import MessagePattern.Proofs.Visits

/-! Which arguments a message depends on.

The names of a message are those of its parts (`Message.mem_argumentNames_iff`). A compiled
message reads no others: every node reads the argument of the part it comes from, and a
marker that of the plural around it (`mem_argumentNames_of_holds`). So two assignments of
values that agree on the names run alike, whatever they do elsewhere (`Block.run_congr`), and
an error that is not the formatter's own names one of them (`Node.Gives.name_or_refused`). -/
namespace MessagePattern

open Plural (Category Question)

/-- The argument that an error is about. -/
def FormatError.name : FormatError → String
  | missingArgument name => name
  | mismatch name _ _ => name
  | unmatched name _ _ => name
  | overflow name => name

/-! ### The names of a message -/

section
variable {name : String} {m : Message}

theorem Branches.mem_arguments_iff {bs : Branches} :
    name ∈ Branches.arguments bs ↔ ∃ b ∈ bs, name ∈ Message.arguments b.2 := by
  induction bs with
  | nil => simp [Branches.arguments]
  | cons b bs ih =>
    obtain ⟨k, m⟩ := b
    rw [Branches.arguments, List.mem_append, ih]
    simp only [List.mem_cons, exists_eq_or_imp]

/-- A part has the name of its own argument and those inside its branches. -/
theorem Part.mem_arguments_iff {p : Part} : name ∈ p.arguments ↔ p.argument? = some name ∨
    ∃ binding? branch, p.HasBranch binding? branch ∧ name ∈ Message.arguments branch := by
  have hleaf : ∀ p : Part, (∀ binding? branch, ¬ p.HasBranch binding? branch) →
      ¬ ∃ binding? branch, p.HasBranch binding? branch ∧ name ∈ Message.arguments branch :=
    fun _ h ⟨binding?, branch, hb, _⟩ => h binding? branch hb
  cases p with
  | text value => exact iff_of_false List.not_mem_nil (not_or.2 ⟨nofun, hleaf (.text value) nofun⟩)
  | plain a =>
    rw [or_iff_left (hleaf (.plain a) nofun), Part.arguments, Part.argument?, List.mem_singleton,
      Option.some_inj, eq_comm]
  | simple a t s =>
    rw [or_iff_left (hleaf (.simple a t s) nofun), Part.arguments, Part.argument?,
      List.mem_singleton, Option.some_inj, eq_comm]
  | select a bs =>
    rw [Part.arguments, Part.argument?, List.mem_cons, Branches.mem_arguments_iff, Option.some_inj,
      eq_comm]
    refine or_congr_right ⟨fun ⟨b, hb, hname⟩ => ⟨none, b.2, .select hb, hname⟩, ?_⟩
    intro h
    obtain ⟨_, _, hb, hname⟩ := h
    cases hb with
    | select hb => exact ⟨_, hb, hname⟩
  | plural a o offset bs =>
    rw [Part.arguments, Part.argument?, List.mem_cons, Branches.mem_arguments_iff, Option.some_inj,
      eq_comm]
    refine or_congr_right
      ⟨fun ⟨b, hb, hname⟩ => ⟨some ⟨a, offset⟩, b.2, .plural hb, hname⟩, ?_⟩
    intro h
    obtain ⟨_, _, hb, hname⟩ := h
    cases hb with
    | plural hb => exact ⟨_, hb, hname⟩
  | marker => exact iff_of_false List.not_mem_nil (not_or.2 ⟨nofun, hleaf .marker nofun⟩)

theorem Message.mem_arguments_iff {site : Site} : name ∈ Message.arguments m ↔
    ∃ site' p, Message.Stands site m site' p ∧ p.argument? = some name := by
  induction m using Message.branch_induction generalizing site with
  | nil =>
    refine iff_of_false List.not_mem_nil fun ⟨_, _, hp, _⟩ => ?_
    exact Message.not_stands_nil hp
  | cons p ps ihb ih =>
    rw [Message.arguments, List.mem_append, Part.mem_arguments_iff, ih]
    apply Iff.intro
    · intro h
      rcases h with (hself | ⟨binding?, branch, hb, hinside⟩) | ⟨site', q, hq, hname⟩
      · exact ⟨site, p, .here List.mem_cons_self, hself⟩
      · obtain ⟨site', q, hq, hname⟩ := (ihb _ _ hb).1 hinside
        exact ⟨site', q, .inside List.mem_cons_self hb hq, hname⟩
      · exact ⟨site', q, Message.stands_cons_iff.2 (.inr (.inr hq)), hname⟩
    · intro h
      obtain ⟨site', q, hq, hname⟩ := h
      rcases Message.stands_cons_iff.1 hq with ⟨rfl, rfl⟩ | ⟨binding?, branch, hb, hq⟩ | hq
      · exact .inl (.inl hname)
      · exact .inl (.inr ⟨binding?, branch, hb, (ihb _ _ hb).2 ⟨site', q, hq, hname⟩⟩)
      · exact .inr ⟨site', q, hq, hname⟩

/-- **The names of a message are those of the arguments of its parts**, at any depth. -/
theorem Message.mem_argumentNames_iff : name ∈ m.argumentNames ↔
    ∃ site p, Message.Stands .root m site p ∧ p.argument? = some name :=
  Message.mem_argumentNames.trans Message.mem_arguments_iff

end

/-! ### The names that nodes read -/

/-- The argument a node reads. -/
def Node.argument? : Node → Option String
  | text _ => none
  | plain a => some a
  | simple a _ _ => some a
  | select a _ => some a
  | plural b _ _ _ => some b.argument
  | marker b => some b.argument

/-- A node reads the argument of its part, unless it is the marker. -/
theorem Part.argument?_of_compile {limit depth : Nat} {binding? : Option Binding} {p : Part}
    {n : Node} (h : p.compile limit binding? depth = .ok n) :
    n.argument? = p.argument? ∨ ∃ b, n = .marker b ∧ binding? = some b := by
  cases p with
  | text value =>
    cases h
    exact .inl rfl
  | plain a =>
    cases h
    exact .inl rfl
  | simple a t s =>
    rw [Part.compile] at h
    split at h
    next => cases h
    next =>
      cases h
      exact .inl rfl
  | select a bs =>
    obtain ⟨entries, -, rfl⟩ := Part.compile_select_eq_ok h
    exact .inl rfl
  | plural a o offset bs =>
    obtain ⟨entries, other, -, -, rfl⟩ := Part.compile_plural_eq_ok h
    exact .inl rfl
  | marker =>
    cases binding? with
    | none => cases h
    | some b =>
      cases h
      exact .inr ⟨b, rfl, rfl⟩

/-- **A compiled message reads only arguments that the message names.** -/
theorem mem_argumentNames_of_holds {limit : Nat} {m : Message} {root : Block}
    (hroot : Message.compileParts limit none 0 m = .ok root) {around? : Option Binding} {n : Node}
    (hn : Block.Holds none root around? n) {a : String} (ha : n.argument? = some a) :
    a ∈ m.argumentNames := by
  obtain ⟨site, p, hp, -, hcompile⟩ := @exists_part_of_holds limit .root m root hroot _ _ hn
  rw [Message.mem_argumentNames_iff]
  rcases Part.argument?_of_compile hcompile with hself | ⟨b, rfl, hb⟩
  · exact ⟨site, p, hp, hself ▸ ha⟩
  · -- The marker has no argument of its own: it reads that of the plural around it.
    cases ha
    rcases hp.exists_plural hb with hnone | ⟨around, o, bs, hplural⟩
    · cases hnone
    · exact ⟨around, _, hplural, rfl⟩

/-! ### Runs that agree -/

section
variable {locale : Locale} {formatter : Formatter} {args args' : Arguments}

theorem Arguments.value_congr {a : String} (h : args a = args' a) :
    args.value a = args'.value a := by
  rw [Arguments.value, Arguments.value, h]

theorem Arguments.string_congr {a : String} (h : args a = args' a) :
    args.string a = args'.string a := by
  rw [Arguments.string, Arguments.string, Arguments.value_congr h]

theorem Arguments.integer_congr {a : String} (h : args a = args' a) :
    args.integer a = args'.integer a := by
  rw [Arguments.integer, Arguments.integer, Arguments.value_congr h]

/-- A node runs alike where the argument it reads has the same value and its branches run
alike. -/
theorem Node.run_congr {n : Node} (hself : ∀ a, n.argument? = some a → args a = args' a)
    (hbranch : ∀ binding? block, n.HasBranch binding? block →
      Block.run ⟨locale, args, formatter⟩ block = Block.run ⟨locale, args', formatter⟩ block) :
    n.run ⟨locale, args, formatter⟩ = n.run ⟨locale, args', formatter⟩ := by
  funext out
  cases n with
  | text value => rw [Node.run, Node.run]
  | plain a => rw [Node.run, Node.run, Arguments.string_congr (hself a rfl)]
  | simple a t s =>
    rw [Node.run, Node.run, Context.typed, Context.typed, Arguments.value_congr (hself a rfl)]
  | select a branches =>
    rw [Node.run_select, Node.run_select, Arguments.string_congr (hself a rfl)]
    congr 1
    funext value
    cases hb : branches.lookup value with
    | none => rfl
    | some block => exact congrFun (hbranch none block (.select (mem_of_lookup_eq_some hb))) out
  | plural b o branches other =>
    have hentry : ∀ {key block}, branches.lookup key = some block →
        Block.run ⟨locale, args, formatter⟩ block out =
          Block.run ⟨locale, args', formatter⟩ block out :=
      fun h => congrFun (hbranch (some b) _ (.plural (mem_of_lookup_eq_some h))) out
    rw [Node.run_plural, Node.run_plural, Arguments.integer_congr (hself b.argument rfl)]
    congr 1
    funext n
    cases hexact : branches.lookup (.exact n) with
    | some block => exact hentry hexact
    | none =>
      show (Run.done (b.operand n)).bind _ = (Run.done (b.operand n)).bind _
      congr 1
      funext k
      congr 1
      funext answer
      cases hcategory : branches.lookup (.category answer) with
      | some block => exact hentry hcategory
      | none => exact congrFun (hbranch (some b) other .other) out
  | marker b =>
    rw [Node.run, Node.run, Context.marker, Context.marker,
      Arguments.integer_congr (hself b.argument rfl)]

/-- **A block runs alike under arguments that agree on all that its nodes read.** -/
theorem Block.run_congr {block : Block} {binding? : Option Binding}
    (h : ∀ around? n a, Block.Holds binding? block around? n → n.argument? = some a →
      args a = args' a) :
    Block.run ⟨locale, args, formatter⟩ block = Block.run ⟨locale, args', formatter⟩ block := by
  induction block using Block.branch_induction generalizing binding? with
  | nil =>
    funext out
    rw [Block.run, Block.run]
  | cons n rest ihb ih =>
    have hn : n.run ⟨locale, args, formatter⟩ = n.run ⟨locale, args', formatter⟩ := by
      refine Node.run_congr (fun a => h _ _ _ (.here List.mem_cons_self)) fun inner? block hb => ?_
      exact ihb _ _ hb fun _ _ _ hx => h _ _ _ (.inside List.mem_cons_self hb hx)
    funext out
    rw [Block.run, Block.run, hn, ih fun _ _ _ hx => h _ _ _ hx.cons]

end

/-! ### Names in errors -/

theorem Arguments.name_of_string {args : Arguments} {a : String} {e : FormatError}
    (h : args.string a = .error e) : e.name = a := by
  rcases Arguments.string_eq_error_iff.1 h with ⟨-, rfl⟩ | ⟨v, -, -, rfl⟩
  · rfl
  · rfl

theorem Arguments.name_of_integer {args : Arguments} {a : String} {e : FormatError}
    (h : args.integer a = .error e) : e.name = a := by
  rcases Arguments.integer_eq_error_iff.1 h with ⟨-, rfl⟩ | ⟨v, -, -, rfl⟩
  · rfl
  · rfl

theorem Binding.name_of_operand {b : Binding} {n : Int64} {e : FormatError}
    (h : b.operand n = .error e) : e.name = b.argument := by
  obtain ⟨-, rfl⟩ := Binding.operand_eq_error_iff.1 h
  rfl

theorem Context.name_of_marker {c : Context} {b : Binding} {e : FormatError}
    (h : c.marker b = .error e) : e.name = b.argument := by
  unfold Context.marker at h
  split at h
  next e' he =>
    cases h
    exact Arguments.name_of_integer he
  next n hn =>
    cases hk : b.operand n with
    | error e' =>
      rw [hk] at h
      cases h
      exact Binding.name_of_operand hk
    | ok k =>
      rw [hk] at h
      cases h

/-- The error is the formatter's answer to a typed argument that has a value, behind the text
`out`. -/
inductive Node.Refused (c : Context) : Node → (out : String) → FormatError → Prop where
  | mk {a t s v out e} : c.args a = some v → c.formatter ⟨c.locale, a, t, s, v⟩ out = .error e →
      Node.Refused c (.simple a t s) out e

/-- The plain formatter names the argument it refuses. -/
theorem Node.Refused.name_of_plain {locale : Locale} {args : Arguments} {n : Node} {out : String}
    {e : FormatError} (h : n.Refused ⟨locale, args, .plain⟩ out e) :
    n.argument? = some e.name := by
  cases h with
  | mk _ he =>
    simp only [Formatter.plain] at he
    split at he
    next => cases he
    next =>
      cases he
      rfl

/-- An error that a node gives is about the argument it reads, unless it is the formatter's. -/
theorem Node.Gives.name_or_refused {c : Context} {n : Node} {out : String} {e : FormatError}
    (h : n.Gives c out (.error e)) : n.argument? = some e.name ∨ n.Refused c out e := by
  generalize hr : Except.error e = r at h
  cases h with
  | text => cases hr
  | plain =>
    exact .inl (congrArg some (Arguments.name_of_string (map_eq_error_iff.1 hr.symm)).symm)
  | @simple a t s =>
    unfold Context.typed Arguments.value at hr
    cases hv : c.args a with
    | none =>
      simp only [hv] at hr
      cases hr
      exact .inl rfl
    | some v =>
      simp only [hv] at hr
      exact .inr (.mk hv hr.symm)
  | selectFault he =>
    cases hr
    exact .inl (congrArg some (Arguments.name_of_string he).symm)
  | unmatched =>
    cases hr
    exact .inl rfl
  | pluralFault he =>
    cases hr
    exact .inl (congrArg some (Arguments.name_of_integer he).symm)
  | overflow _ _ he =>
    cases hr
    exact .inl (congrArg some (Binding.name_of_operand he).symm)
  | marker =>
    exact .inl (congrArg some (Context.name_of_marker (map_eq_error_iff.1 hr.symm)).symm)

/-! ### Formatting -/

/-- An error of a run was given by a node that the run came by, and is about an argument that
the message names, unless the formatter gave it. -/
theorem exists_name_of_yields_error {limit : Nat} {m : Message} {root : Block}
    (hroot : Message.compileParts limit none 0 m = .ok root) {c : Context} {out : String}
    {log : Log} {e : FormatError} (h : (Block.run c root out).Yields log (.error e)) :
    ∃ visits, Block.Visits c none root out log visits ∧ ∃ v ∈ visits, v.result = .error e ∧
      (e.name ∈ m.argumentNames ∨ v.node.Refused c v.before e) := by
  obtain ⟨visits, hvisits, he⟩ : ∃ visits, Block.Visits c none root out log visits ∧
      .error e = outcome out visits := yields_iff_visits.1 h
  obtain ⟨v, hv, hresult⟩ := exists_mem_of_outcome_eq_error he.symm
  have hsound := hvisits.sound nofun v hv
  have hgives := hsound.gives
  rw [hresult] at hgives
  exact ⟨visits, hvisits, v, hv, hresult,
    hgives.name_or_refused.imp_left (mem_argumentNames_of_holds hroot hsound.holds)⟩

/-- **Formatting depends on the arguments that the message names, and on no others.** The
names are those of its parts. Arguments that agree on them give the same text or error and
the same questions, and an error of the walk, or of the plain formatter, names one of them. -/
theorem argumentNames_of_compileFor {limits : Limits} {locale : Locale} {m : Message}
    {compiled : CompiledMessage} (h : m.compileFor limits locale = .ok compiled) :
    (∀ name, name ∈ m.argumentNames ↔
      ∃ site p, Message.Stands .root m site p ∧ p.argument? = some name) ∧
    (∀ (args args' : Arguments), (∀ name ∈ m.argumentNames, args name = args' name) →
      ∀ formatter resolve,
        compiled.formatWith args resolve formatter = compiled.formatWith args' resolve formatter ∧
        (compiled.run args formatter).questions resolve =
          (compiled.run args' formatter).questions resolve) ∧
    (∀ args formatter log e, (compiled.run args formatter).Yields log (.error e) →
      ∃ visits, Block.Visits ⟨locale, args, formatter⟩ none compiled.root "" log visits ∧
        ∃ v ∈ visits, v.result = .error e ∧
          (e.name ∈ m.argumentNames ∨ v.node.Refused ⟨locale, args, formatter⟩ v.before e)) ∧
    ∀ args resolve e, compiled.formatWith args resolve .plain = .error e →
      e.name ∈ m.argumentNames := by
  obtain ⟨root, hroot, rfl⟩ := Message.compileFor_eq_ok h
  refine ⟨fun name => Message.mem_argumentNames_iff, fun args args' hagree formatter resolve => ?_,
    fun args formatter log e he => exists_name_of_yields_error hroot he,
    fun args resolve e he => ?_⟩
  · have hrun : Block.run ⟨locale, args, formatter⟩ root =
        Block.run ⟨locale, args', formatter⟩ root :=
      Block.run_congr fun _ _ a hn ha => hagree a (mem_argumentNames_of_holds hroot hn ha)
    exact ⟨congrArg (Run.answer resolve) (congrFun hrun ""),
      congrArg (Run.questions resolve) (congrFun hrun "")⟩
  · have hyields := Run.yields_answer resolve (Block.run ⟨locale, args, .plain⟩ root "")
    have hanswer : (Block.run ⟨locale, args, .plain⟩ root "").answer resolve = .error e := he
    rw [hanswer] at hyields
    obtain ⟨visits, hvisits, v, hv, -, hname | hrefused⟩ :=
      exists_name_of_yields_error hroot hyields
    · exact hname
    · exact mem_argumentNames_of_holds hroot (hvisits.sound nofun v hv).holds hrefused.name_of_plain

theorem argumentNames_of_compileFor_unmatched :
    (∀ formatter resolve, CompiledMessage.formatWith ⟨⟨⟨"en", none, none, []⟩, [], [], [], []⟩,
          [.plural ⟨"n", 1⟩ false [] [.marker ⟨"n", 1⟩, .select "g" [("a", [.plain "u"])]]]⟩
          (.ofList [("n", .integer 3), ("g", .string "b")]) resolve formatter =
        CompiledMessage.formatWith ⟨⟨⟨"en", none, none, []⟩, [], [], [], []⟩,
          [.plural ⟨"n", 1⟩ false [] [.marker ⟨"n", 1⟩, .select "g" [("a", [.plain "u"])]]]⟩
          (.ofList [("x", .string "y"), ("n", .integer 3), ("g", .string "b")]) resolve
          formatter) ∧
    "g" ∈ Message.argumentNames
      [.plural "n" false 1 [("other", [.marker, .select "g" [("a", [.plain "u"])]])]] := by
  have hcompile : Message.compileFor .standard ⟨⟨"en", none, none, []⟩, [], [], [], []⟩
      [.plural "n" false 1 [("other", [.marker, .select "g" [("a", [.plain "u"])]])]] = .ok _ := rfl
  have h := argumentNames_of_compileFor hcompile
  refine ⟨fun formatter resolve => (h.2.1 _ _ (fun name hname => ?_) formatter resolve).1, ?_⟩
  · have hnames : Message.argumentNames
        [.plural "n" false 1 [("other", [.marker, .select "g" [("a", [.plain "u"])]])]] =
        ["g", "n", "u"] := by decide
    rw [hnames] at hname
    simp only [List.mem_cons, List.not_mem_nil, or_false] at hname
    rcases hname with rfl | rfl | rfl
    · rfl
    · rfl
    · rfl
  · exact h.2.2.2 (.ofList [("n", .integer 3), ("g", .string "b")]) (fun _ => .other)
      (.unmatched "g" "b" ["a"]) rfl

end MessagePattern
