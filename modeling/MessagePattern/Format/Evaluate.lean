import MessagePattern.Compiled.Basic
import MessagePattern.Format.Run
import MessagePattern.Format.Typed

/-! Formatting compiled messages.

The nodes of a message are run one behind the other. Each is handed the text written so far
and gives the text as it goes on, and the first error ends the run. A select takes the branch
whose key is the value itself. A plural first looks for a branch of its integer; only without
one does it take off the offset and ask for the category, once, and a category without a
branch of its own falls to `other`. -/
namespace MessagePattern

open Plural (Question Source)

/-- The values of arguments by name. -/
abbrev Arguments := String → Option Value

namespace Arguments

/-- The values listed under their names; of one name the first counts. -/
def ofList (entries : List (String × Value)) : Arguments := fun name => entries.lookup name

def value (args : Arguments) (name : String) : Except FormatError Value :=
  match args name with
  | some v => .ok v
  | none => .error (.missingArgument name)

def string (args : Arguments) (name : String) : Except FormatError String :=
  match args.value name with
  | .error e => .error e
  | .ok v =>
    match v.string? with
    | some s => .ok s
    | none => .error (.mismatch name .string v.kind)

def integer (args : Arguments) (name : String) : Except FormatError Int64 :=
  match args.value name with
  | .error e => .error e
  | .ok v =>
    match v.integer? with
    | some n => .ok n
    | none => .error (.mismatch name .integer v.kind)

section
variable {args : Arguments} {name : String} {e : FormatError}

theorem string_eq_ok_iff {value : String} :
    args.string name = .ok value ↔ args name = some (.string value) := by
  unfold string Arguments.value
  cases args name with
  | none => simp
  | some v => cases v <;> simp [Value.string?]

theorem string_eq_error_iff : args.string name = .error e ↔
    (args name = none ∧ e = .missingArgument name) ∨
      ∃ v, args name = some v ∧ v.kind ≠ .string ∧ e = .mismatch name .string v.kind := by
  unfold string Arguments.value
  cases args name with
  | none => simp [eq_comm]
  | some v => cases v <;> simp [Value.string?, Value.kind, eq_comm]

theorem integer_eq_ok_iff {n : Int64} :
    args.integer name = .ok n ↔ args name = some (.integer n) := by
  unfold integer Arguments.value
  cases args name with
  | none => simp
  | some v => cases v <;> simp [Value.integer?]

theorem integer_eq_error_iff : args.integer name = .error e ↔
    (args name = none ∧ e = .missingArgument name) ∨
      ∃ v, args name = some v ∧ v.kind ≠ .integer ∧ e = .mismatch name .integer v.kind := by
  unfold integer Arguments.value
  cases args name with
  | none => simp [eq_comm]
  | some v => cases v <;> simp [Value.integer?, Value.kind, eq_comm]

end

end Arguments

/-- The number `n` without the offset of `b`. -/
def Binding.operand (b : Binding) (n : Int64) : Except FormatError Int64 :=
  match Integer.sub? n b.offset with
  | some k => .ok k
  | none => .error (.overflow b.argument)

theorem Binding.operand_eq_ok_iff {b : Binding} {n k : Int64} :
    b.operand n = .ok k ↔ Integer.sub? n b.offset = some k := by
  unfold Binding.operand
  cases Integer.sub? n b.offset <;> simp

theorem Binding.operand_eq_error_iff {b : Binding} {n : Int64} {e : FormatError} :
    b.operand n = .error e ↔ Integer.sub? n b.offset = none ∧ e = .overflow b.argument := by
  unfold Binding.operand
  cases Integer.sub? n b.offset <;> simp [eq_comm]

/-- What formatting reads besides the message. -/
structure Context where
  locale : Locale
  args : Arguments
  formatter : Formatter

namespace Context

/-- The text after a typed argument. -/
def typed (c : Context) (argument : String) (type : ArgumentType) (style : ArgumentStyle)
    (out : String) : Except FormatError String :=
  match c.args.value argument with
  | .error e => .error e
  | .ok v => c.formatter ⟨c.locale, argument, type, style, v⟩ out

/-- The text of a marker. -/
def marker (c : Context) (b : Binding) : Except FormatError String :=
  match c.args.integer b.argument with
  | .error e => .error e
  | .ok n => (b.operand n).map Integer.decimal

end Context

/-- The error of a select that has none but the given keys. -/
def FormatError.ofKeys (name value : String) (keys : List String) : FormatError :=
  .unmatched name value (Suggestion.suggest value keys)

mutual

/-- Run a node behind the text `out`. -/
def Node.run (c : Context) : Node → (out : String) → Run String
  | .text value, out => .done (.ok (out ++ value))
  | .plain a, out => .done ((c.args.string a).map (out ++ ·))
  | .simple a t s, out => .done (c.typed a t s out)
  | .select a branches, out =>
    (Run.done (c.args.string a)).bind fun value =>
      match Block.runUnder c value branches with
      | some run => run out
      | none => .fail (.ofKeys a value (branches.map (·.1)))
  | .plural b ordinal branches other, out =>
    (Run.done (c.args.integer b.argument)).bind fun n =>
      match Block.runFor c (.exact n) branches with
      | some run => run out
      | none =>
        (Run.done (b.operand n)).bind fun k =>
          (Run.category ⟨c.locale, k, ordinal⟩).bind fun category =>
            match Block.runFor c (.category category) branches with
            | some run => run out
            | none => Block.run c other out
  | .marker b, out => .done ((c.marker b).map (out ++ ·))

/-- Run the nodes of a block in order, behind the text `out`. -/
def Block.run (c : Context) : List Node → (out : String) → Run String
  | [], out => .done (.ok out)
  | n :: rest, out => (n.run c out).bind fun out => Block.run c rest out

/-- How the branch of a select under a key runs. -/
def Block.runUnder (c : Context) (key : String) :
    List (String × List Node) → Option (String → Run String)
  | [] => none
  | (k, block) :: rest =>
    if key == k then some fun out => Block.run c block out else Block.runUnder c key rest

/-- How the branch of a plural under a key runs. -/
def Block.runFor (c : Context) (key : PluralKey) :
    List (PluralKey × List Node) → Option (String → Run String)
  | [] => none
  | (k, block) :: rest =>
    if key == k then some fun out => Block.run c block out else Block.runFor c key rest

end

/-! ### Branches by look-up -/

theorem Block.runUnder_eq (c : Context) (key : String) (branches : List (String × Block)) :
    Block.runUnder c key branches = (branches.lookup key).map (Block.run c) := by
  induction branches with
  | nil => rfl
  | cons b rest ih =>
    obtain ⟨k, block⟩ := b
    rw [Block.runUnder, List.lookup_cons, ih]
    cases key == k <;> rfl

theorem Block.runFor_eq (c : Context) (key : PluralKey) (branches : List (PluralKey × Block)) :
    Block.runFor c key branches = (branches.lookup key).map (Block.run c) := by
  induction branches with
  | nil => rfl
  | cons b rest ih =>
    obtain ⟨k, block⟩ := b
    rw [Block.runFor, List.lookup_cons, ih]
    cases key == k <;> rfl

theorem Node.run_select (c : Context) (a : String) (branches : List (String × Block))
    (out : String) :
    (Node.select a branches).run c out = (Run.done (c.args.string a)).bind fun value =>
      ((branches.lookup value).map fun block => Block.run c block out).getD
        (.fail (.ofKeys a value (branches.map (·.1)))) := by
  rw [Node.run]
  congr 1
  funext value
  rw [Block.runUnder_eq]
  cases branches.lookup value <;> rfl

/-- A category chooses the branch it has, or that for all other numbers. -/
theorem Node.run_plural (c : Context) (b : Binding) (ordinal : Bool)
    (branches : List (PluralKey × Block)) (other : Block) (out : String) :
    (Node.plural b ordinal branches other).run c out =
      (Run.done (c.args.integer b.argument)).bind fun n =>
        ((branches.lookup (.exact n)).map fun block => Block.run c block out).getD
          ((Run.done (b.operand n)).bind fun k =>
            (Run.category ⟨c.locale, k, ordinal⟩).bind fun answer =>
              Block.run c ((branches.lookup (.category answer)).getD other) out) := by
  rw [Node.run]
  congr 1
  funext n
  rw [Block.runFor_eq]
  cases branches.lookup (.exact n) with
  | some block => rfl
  | none =>
    show (Run.done (b.operand n)).bind _ = _
    congr 1
    funext k
    congr 1
    funext answer
    rw [Block.runFor_eq]
    cases branches.lookup (.category answer) <;> rfl

/-! ### Compiled messages -/

namespace CompiledMessage

variable {ρ : Type}

/-- Format with any formatter; the run asks for the categories it needs. -/
def run (m : CompiledMessage) (args : Arguments) (formatter : Formatter) : Run String :=
  Block.run ⟨m.locale, args, formatter⟩ m.root ""

/-- Format with a resolver and a formatter. -/
def formatWith (m : CompiledMessage) (args : Arguments) (resolve : Question → Plural.Category)
    (formatter : Formatter) : Except FormatError String :=
  (m.run args formatter).answer resolve

/-- Format with the rules of a source and the plain formatter. Rules that are built are
remembered. -/
def format (m : CompiledMessage) (source : Source ρ) (args : Arguments)
    (memory : Source.Memory ρ) : Except FormatError String × Source.Memory ρ :=
  (m.run args .plain).remember source.resolve memory

end CompiledMessage

end MessagePattern
