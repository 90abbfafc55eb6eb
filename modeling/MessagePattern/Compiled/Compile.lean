import MessagePattern.Compiled.Basic
import MessagePattern.Compiled.Error
import MessagePattern.Integer
import MessagePattern.Limits
import MessagePattern.Message.Basic

/-! Compiling messages.

A message is checked and compiled in document order, and the first fault ends the
compilation: the parts from left to right, branches in key order. A plural without
`other` is at fault before any of its keys and branches, a key before its branch, and
the depth of a branch before what is in it. A select gives its branches no operand,
even inside a plural. How a locale is read off its tag is a parameter. -/
namespace MessagePattern

/-! ### Keys of plurals -/

/-- The key of a plural branch: an equals sign and an integer, or a category. -/
def PluralKey.ofString? (key : String) : Option PluralKey :=
  match key.toList with
  | '=' :: literal => (Integer.ofSigned? literal).map .exact
  | _ => (Plural.Category.ofKeyword? key).map .category

/-- The error for a key that selects nothing. -/
def CompileError.ofKey (argument key : String) : CompileError :=
  .invalidKey argument key (Suggestion.suggest key Plural.Category.keywords)

/-- The entry every plural must have. -/
def otherKey : PluralKey := .category .other

/-- Put an entry in front unless its key is given again behind it: of several spellings
of one integer the last counts. -/
def pushUnlessGiven (key : PluralKey) (block : Block) (entries : List (PluralKey × Block)) :
    List (PluralKey × Block) :=
  if (entries.lookup key).isSome then entries else (key, block) :: entries

/-- The node of a plural, its `other` branch apart. -/
def Node.ofEntries (b : Binding) (ordinal : Bool) (entries : List (PluralKey × Block)) :
    Except CompileError Node :=
  match entries.lookup otherKey with
  | some other => .ok (.plural b ordinal (entries.filter (·.1 ≠ otherKey)) other)
  | none => .error (.missingOther b.argument)

/-! ### Messages -/

mutual

/-- Compile a part at depth `depth`, where the marker stands for `binding?`. -/
def Part.compile (limit : Nat) (binding? : Option Binding) (depth : Nat) :
    Part → Except CompileError Node
  | .text value => .ok (.text value)
  | .plain a => .ok (.plain a)
  | .simple a t s =>
    if t = .invalid ∨ s = .invalid then .error (.invalidShape a) else .ok (.simple a t s)
  | .select a bs =>
    match Branches.compileSelect limit depth bs with
    | .error e => .error e
    | .ok bs => .ok (.select a bs)
  | .plural a o n bs =>
    if (bs.lookup Plural.Category.other.keyword).isNone then .error (.missingOther a)
    else
      match Branches.compilePlural limit ⟨a, n⟩ depth bs with
      | .error e => .error e
      | .ok entries => Node.ofEntries ⟨a, n⟩ o entries
  | .marker =>
    match binding? with
    | some b => .ok (.marker b)
    | none => .error .strayMarker

/-- Compile the parts of a message in order. -/
def Message.compileParts (limit : Nat) (binding? : Option Binding) (depth : Nat) :
    List Part → Except CompileError Block
  | [] => .ok []
  | p :: ps =>
    match p.compile limit binding? depth with
    | .error e => .error e
    | .ok node =>
      match Message.compileParts limit binding? depth ps with
      | .error e => .error e
      | .ok block => .ok (node :: block)

/-- Compile the branches of a select whose message is at depth `depth`. -/
def Branches.compileSelect (limit depth : Nat) :
    List (String × List Part) → Except CompileError (List (String × Block))
  | [] => .ok []
  | (k, m) :: bs =>
    if limit ≤ depth then .error (.tooDeep limit)
    else
      match Message.compileParts limit none (depth + 1) m with
      | .error e => .error e
      | .ok block =>
        match Branches.compileSelect limit depth bs with
        | .error e => .error e
        | .ok rest => .ok ((k, block) :: rest)

/-- Compile the branches of the plural `b` whose message is at depth `depth`. -/
def Branches.compilePlural (limit : Nat) (b : Binding) (depth : Nat) :
    List (String × List Part) → Except CompileError (List (PluralKey × Block))
  | [] => .ok []
  | (k, m) :: bs =>
    match PluralKey.ofString? k with
    | none => .error (.ofKey b.argument k)
    | some key =>
      if limit ≤ depth then .error (.tooDeep limit)
      else
        match Message.compileParts limit (some b) (depth + 1) m with
        | .error e => .error e
        | .ok block =>
          match Branches.compilePlural limit b depth bs with
          | .error e => .error e
          | .ok rest => .ok (pushUnlessGiven key block rest)

end

namespace Message

/-- Compile a message for a locale. -/
def compileFor (limits : Limits) (locale : Locale) (m : Message) :
    Except CompileError CompiledMessage :=
  match compileParts limits.maxDepth none 0 m with
  | .error e => .error e
  | .ok root => .ok ⟨locale, root⟩

/-- Compile a message for the locale of a tag, which is read first. -/
def compile (reader : Locale.Reader) (limits : Limits) (tag : String) (m : Message) :
    Except CompileError CompiledMessage :=
  match reader tag with
  | none => .error (.invalidLocale tag)
  | some locale => compileFor limits locale m

end Message

end MessagePattern
