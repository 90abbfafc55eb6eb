import MessagePattern.Proofs.Marker

/-! Why formatting fails.

What a message asks of its arguments can be read off its parts (`Message.WellTyped`), and
each error that the plain formatter leaves possible puts the blame on one part
(`Part.Justifies`): its argument is missing, or of a kind it cannot do with, or selects
nothing, or overflows.

Every node that gives an error is compiled from a part that justifies it
(`justifies_of_gives`). Only the marker does not read an argument of its own: it fails
where its plural could have failed. `compileFor_justified` is the consequence for whole
messages, also that nothing fails without a reason. -/
namespace MessagePattern

open Plural (Category Question)

/-! ### What arguments must be -/

/-- The values that the plain formatter can show as the type asks. -/
inductive PlainTakes : ArgumentType → Value → Prop where
  | integer {t n} : PlainTakes t (.integer n)
  | float {t x} : t = .default ∨ t = .number ∨ t = .duration → PlainTakes t (.float x)
  | string {s} : PlainTakes .default (.string s)

/-- With these arguments nothing can go wrong in the message. -/
structure Message.WellTyped (args : Arguments) (m : Message) : Prop where
  plain : ∀ site a, Message.Stands .root m site (.plain a) → ∃ s, args a = some (.string s)
  simple : ∀ site a t s, Message.Stands .root m site (.simple a t s) →
    ∃ v, args a = some v ∧ PlainTakes t v
  /-- Every select has a branch for its value. -/
  select : ∀ site a bs, Message.Stands .root m site (.select a bs) →
    ∃ value, args a = some (.string value) ∧ value ∈ bs.map (·.1)
  /-- Every plural has an operand of 64 bits. -/
  plural : ∀ site a o offset bs, Message.Stands .root m site (.plural a o offset bs) →
    ∃ n, args a = some (.integer n) ∧ Integer.Fits (n.toInt - offset.toInt)

/-- The part reads the argument, and expects it to be of a kind. -/
inductive Part.Reads : Part → (name : String) → ValueKind → Prop where
  | plain {a} : Part.Reads (.plain a) a .string
  | simple {a t s} : Part.Reads (.simple a t s) a .integer
  | select {a bs} : Part.Reads (.select a bs) a .string
  | plural {a o offset bs} : Part.Reads (.plural a o offset bs) a .integer

/-- The value is of a kind that the part can do with. -/
inductive Part.Admits : Part → Value → Prop where
  | plain {a s} : Part.Admits (.plain a) (.string s)
  | simple {a t s v} : PlainTakes t v → Part.Admits (.simple a t s) v
  | select {a bs s} : Part.Admits (.select a bs) (.string s)
  | plural {a o offset bs n} : Part.Admits (.plural a o offset bs) (.integer n)

/-- The error is to be expected of the part. -/
inductive Part.Justifies (args : Arguments) : Part → FormatError → Prop where
  | missing {p name kind} : Part.Reads p name kind → args name = none →
      Part.Justifies args p (.missingArgument name)
  | mismatch {p name kind v} : Part.Reads p name kind → args name = some v → ¬ Part.Admits p v →
      Part.Justifies args p (.mismatch name kind v.kind)
  | unmatched {name bs value} : args name = some (.string value) → value ∉ bs.map (·.1) →
      Part.Justifies args (.select name bs)
        (.unmatched name value (Suggestion.suggest value (bs.map (·.1))))
  | overflow {name o offset bs n} : args name = some (.integer n) →
      ¬ Integer.Fits (n.toInt - offset.toInt) →
      Part.Justifies args (.plural name o offset bs) (.overflow name)

variable {args : Arguments} {m : Message} {site : Site} {p : Part} {e : FormatError}

theorem Message.WellTyped.exists_admitted (h : m.WellTyped args)
    (hp : Message.Stands .root m site p) {name : String} {kind : ValueKind}
    (hread : p.Reads name kind) : ∃ v, args name = some v ∧ p.Admits v := by
  cases hread with
  | plain =>
    obtain ⟨s, hs⟩ := h.plain _ _ hp
    exact ⟨_, hs, .plain⟩
  | simple =>
    obtain ⟨v, hv, htakes⟩ := h.simple _ _ _ _ hp
    exact ⟨v, hv, .simple htakes⟩
  | select =>
    obtain ⟨value, hvalue, -⟩ := h.select _ _ _ hp
    exact ⟨_, hvalue, .select⟩
  | plural =>
    obtain ⟨n, hn, -⟩ := h.plural _ _ _ _ _ hp
    exact ⟨_, hn, .plural⟩

/-- Nothing justifies an error when all arguments are as they must be. -/
theorem Message.WellTyped.not_justifies (h : m.WellTyped args)
    (hp : Message.Stands .root m site p) : ¬ p.Justifies args e := by
  intro hjustifies
  cases hjustifies with
  | missing hread hnone =>
    obtain ⟨v, hv, -⟩ := h.exists_admitted hp hread
    rw [hnone] at hv
    cases hv
  | mismatch hread hv hadmits =>
    obtain ⟨v', hv', hadmits'⟩ := h.exists_admitted hp hread
    rw [hv] at hv'
    cases hv'
    exact hadmits hadmits'
  | unmatched hvalue hkeys =>
    obtain ⟨value', hvalue', hkeys'⟩ := h.select _ _ _ hp
    rw [hvalue] at hvalue'
    cases hvalue'
    exact hkeys hkeys'
  | overflow hn hlarge =>
    obtain ⟨n', hn', hfits⟩ := h.plural _ _ _ _ _ hp
    rw [hn] at hn'
    cases hn'
    exact hlarge hfits

/-! ### Errors of single nodes -/

theorem ArgumentType.accepts_iff {t : ArgumentType} {v : Value} :
    t.accepts v = true ↔ PlainTakes t v := by
  cases v with
  | integer n => exact iff_of_true rfl .integer
  | float x =>
    have haccepts : t.accepts (.float x) = true ↔ t = .default ∨ t = .number ∨ t = .duration := by
      simp [ArgumentType.accepts, or_assoc]
    rw [haccepts]
    exact ⟨.float, fun | .float h => h⟩
  | string s =>
    have haccepts : t.accepts (.string s) = true ↔ t = .default := by
      simp [ArgumentType.accepts]
    rw [haccepts]
    exact ⟨fun h => h ▸ .string, fun | .string => rfl⟩

theorem Part.Reads.kind_eq_string {name : String} {v : Value} (hread : p.Reads name .string)
    (hadmits : p.Admits v) : v.kind = .string := by
  cases hread with
  | plain =>
    cases hadmits
    rfl
  | select =>
    cases hadmits
    rfl

theorem Part.Reads.justifies_of_string {name : String} (hread : p.Reads name .string)
    (h : args.string name = .error e) : p.Justifies args e := by
  rcases Arguments.string_eq_error_iff.1 h with ⟨hnone, rfl⟩ | ⟨v, hv, hkind, rfl⟩
  · exact .missing hread hnone
  · exact .mismatch hread hv fun hadmits => hkind (hread.kind_eq_string hadmits)

theorem justifies_of_integer {a : String} {o : Bool} {offset : Int64} {bs : Branches}
    (h : args.integer a = .error e) : (Part.plural a o offset bs).Justifies args e := by
  rcases Arguments.integer_eq_error_iff.1 h with ⟨hnone, rfl⟩ | ⟨v, hv, hkind, rfl⟩
  · exact .missing .plural hnone
  · refine .mismatch .plural hv fun hadmits => ?_
    cases hadmits with
    | plural => exact hkind rfl

theorem justifies_of_typed {locale : Locale} {a : String} {t : ArgumentType} {s : ArgumentStyle}
    {out : String} (h : Context.typed ⟨locale, args, .plain⟩ a t s out = .error e) :
    (Part.simple a t s).Justifies args e := by
  unfold Context.typed Arguments.value at h
  cases hv : args a with
  | none =>
    simp only [hv] at h
    cases h
    exact .missing .simple hv
  | some v =>
    simp only [hv, Formatter.plain] at h
    split at h
    next => cases h
    next hrefused =>
      cases h
      refine .mismatch .simple hv fun hadmits => hrefused ?_
      cases hadmits with
      | simple htakes => exact ArgumentType.accepts_iff.2 htakes

/-- **A part justifies every error of its node**, unless it is the marker. -/
theorem justifies_of_gives {limit depth : Nat} {binding? : Option Binding} {locale : Locale}
    {n : Node} {out : String} (hcompile : p.compile limit binding? depth = .ok n)
    (hgives : n.Gives ⟨locale, args, .plain⟩ out (.error e)) :
    p.Justifies args e ∨ ∃ b, n = .marker b := by
  cases p with
  | text value =>
    cases hcompile
    cases Node.gives_text_iff.1 hgives
  | plain a =>
    cases hcompile
    have hstring := map_eq_error_iff.1 (Node.gives_plain_iff.1 hgives).symm
    exact .inl (Part.Reads.plain.justifies_of_string hstring)
  | simple a t s =>
    rw [Part.compile] at hcompile
    split at hcompile
    next => cases hcompile
    next =>
      cases hcompile
      exact .inl (justifies_of_typed (Node.gives_simple_iff.1 hgives).symm)
  | select a bs =>
    obtain ⟨entries, hentries, rfl⟩ := Part.compile_select_eq_ok hcompile
    refine .inl ?_
    cases hgives with
    | selectFault he => exact Part.Reads.select.justifies_of_string he
    | unmatched hvalue hnone =>
      rw [FormatError.ofKeys, keys_compileSelect hentries]
      refine .unmatched (Arguments.string_eq_ok_iff.1 hvalue) fun hkey => ?_
      rw [← keys_compileSelect hentries] at hkey
      obtain ⟨entry, hentry, hkey⟩ := List.mem_map.1 hkey
      exact lookup_eq_none_iff_forall_ne.1 hnone entry hentry hkey
  | plural a o offset bs =>
    obtain ⟨entries, other, -, -, rfl⟩ := Part.compile_plural_eq_ok hcompile
    refine .inl ?_
    cases hgives with
    | pluralFault he => exact justifies_of_integer he
    | overflow hn _ he =>
      obtain ⟨hlarge, rfl⟩ := Binding.operand_eq_error_iff.1 he
      exact .overflow (Arguments.integer_eq_ok_iff.1 hn) (Integer.sub?_eq_none_iff.1 hlarge)
  | marker =>
    cases binding? with
    | none => cases hcompile
    | some b =>
      cases hcompile
      exact .inr ⟨b, rfl⟩

/-! ### Errors of messages -/

/-- An error of a marker is one of the plural around it. -/
theorem exists_justifies_of_marker {limit : Nat} {locale : Locale} {root : Block}
    (hroot : Message.compileParts limit none 0 m = .ok root) {v : Visit}
    (hv : v.Sound ⟨locale, args, .plain⟩ none root) (he : v.result = .error e)
    (hsite : site.binding? = v.around?.map (·.binding)) (hp : Message.Stands .root m site p)
    {b : Binding} (hb : v.node = .marker b) :
    ∃ site p, Message.Stands .root m site p ∧ p.Justifies args e := by
  obtain ⟨n, key, htaken, hn, hresult, -⟩ := hv.exists_taken hroot hb
  rw [htaken] at hsite
  rcases hp.exists_plural hsite with hnone | ⟨around, o, bs, hplural⟩
  · cases hnone
  · by_cases hfits : Integer.Fits (b.difference n)
    · rw [he, Context.marker_of_fits hn hfits] at hresult
      cases hresult
    · rw [he, Context.marker_of_not_fits hn hfits] at hresult
      cases hresult
      exact ⟨around, _, hplural, .overflow (Arguments.integer_eq_ok_iff.1 hn) hfits⟩

theorem exists_justifies_of_yields {limit : Nat} {locale : Locale} {root : Block}
    (hroot : Message.compileParts limit none 0 m = .ok root) {out : String} {log : Log}
    (h : (Block.run ⟨locale, args, .plain⟩ root out).Yields log (.error e)) :
    ∃ site p, Message.Stands .root m site p ∧ p.Justifies args e := by
  obtain ⟨visits, v, site, p, hvisits, hv, he, hp, hsite, hcompile⟩ :=
    exists_visit_of_yields_error hroot h
  have hsound := hvisits.sound nofun v hv
  have hgives := hsound.gives
  rw [he] at hgives
  -- A marker has no argument to blame, so the plural around it has to stand in.
  rcases justifies_of_gives hcompile hgives with hjustifies | ⟨b, hb⟩
  · exact ⟨site, p, hp, hjustifies⟩
  · exact exists_justifies_of_marker hroot hsound he hsite hp hb

/-- The result is what the message and its arguments let expect. -/
structure Message.Justified (args : Arguments) (m : Message) (r : Except FormatError String) :
    Prop where
  ok : m.WellTyped args → ∃ text, r = .ok text
  error : ∀ e, r = .error e → ∃ site p, Message.Stands .root m site p ∧ p.Justifies args e

theorem Message.justified_of_yields {limit : Nat} {locale : Locale} {root : Block}
    (hroot : Message.compileParts limit none 0 m = .ok root) {out : String} {log : Log}
    {r : Except FormatError String}
    (h : (Block.run ⟨locale, args, .plain⟩ root out).Yields log r) : m.Justified args r := by
  cases r with
  | ok text => exact ⟨fun _ => ⟨text, rfl⟩, nofun⟩
  | error e =>
    obtain ⟨site, p, hp, hjustifies⟩ := exists_justifies_of_yields hroot h
    refine ⟨fun hm => absurd hjustifies (hm.not_justifies hp), fun e' he => ?_⟩
    cases he
    exact ⟨site, p, hp, hjustifies⟩

/-- **With arguments as they must be, formatting gives a text, and every error is justified
by a part of the message**, whichever categories a resolver chooses and whatever it
remembers. -/
theorem compileFor_justified {limits : Limits} {locale : Locale} {m : Message}
    {compiled : CompiledMessage} (h : m.compileFor limits locale = .ok compiled)
    (args : Arguments) :
    (∀ resolve, m.Justified args (compiled.formatWith args resolve .plain)) ∧
      ∀ (σ : Type) (respond : σ → Question → Category × σ) (memory : σ),
        m.Justified args ((compiled.run args .plain).remember respond memory).1 := by
  obtain ⟨root, hroot, rfl⟩ := Message.compileFor_eq_ok h
  apply And.intro
  · intro resolve
    exact Message.justified_of_yields hroot (Run.yields_answer resolve _)
  · intro σ respond memory
    obtain ⟨log, hlog⟩ := Run.exists_yields_remember respond memory
      (Block.run ⟨locale, args, .plain⟩ root "")
    exact Message.justified_of_yields hroot hlog

theorem compileFor_justified_marker :
    (∃ text, CompiledMessage.formatWith ⟨⟨⟨"en", none, none, []⟩, [], [], [], []⟩,
        [.plural ⟨"n", 1⟩ false [] [.marker ⟨"n", 1⟩]]⟩ (.ofList [("n", .integer 3)])
        (fun _ => .few) .plain = .ok text) ∧
    ∃ site p, Message.Stands .root [.plural "n" false 1 [("other", [.marker])]] site p ∧
      p.Justifies (.ofList [("n", .string "3")]) (.mismatch "n" .integer .string) := by
  have hcompile : Message.compileFor .standard ⟨⟨"en", none, none, []⟩, [], [], [], []⟩
      [.plural "n" false 1 [("other", [.marker])]] = .ok _ := rfl
  have hparts : ∀ site p, Message.Stands .root [.plural "n" false 1 [("other", [.marker])]] site p →
      p = .plural "n" false 1 [("other", [.marker])] ∨ p = .marker := by
    intro site p h
    rcases Message.stands_cons_iff.1 h with ⟨-, rfl⟩ | ⟨_, _, hb, h⟩ | h
    · exact .inl rfl
    · cases hb with
      | plural hb =>
        cases List.mem_singleton.1 hb
        rcases Message.stands_cons_iff.1 h with ⟨-, rfl⟩ | ⟨_, _, hb, -⟩ | h
        · exact .inr rfl
        · cases hb
        · exact absurd h Message.not_stands_nil
    · exact absurd h Message.not_stands_nil
  have htyped : Message.WellTyped (.ofList [("n", .integer 3)])
      [.plural "n" false 1 [("other", [.marker])]] := by
    refine ⟨fun _ _ h => ?_, fun _ _ _ _ h => ?_, fun _ _ _ h => ?_, fun _ _ _ _ _ h => ?_⟩
    · rcases hparts _ _ h with h | h <;> cases h
    · rcases hparts _ _ h with h | h <;> cases h
    · rcases hparts _ _ h with h | h <;> cases h
    · rcases hparts _ _ h with h | h
      · cases h
        exact ⟨3, rfl, by decide⟩
      · cases h
  exact ⟨((compileFor_justified hcompile _).1 _).ok htyped,
    ((compileFor_justified hcompile _).1 fun _ => .few).error _ rfl⟩

end MessagePattern
