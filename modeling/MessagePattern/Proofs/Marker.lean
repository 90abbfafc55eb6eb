import MessagePattern.Proofs.Visits

/-! What the marker stands for.

In a compiled message every marker belongs to the plural in a branch of which it stands
directly (`binding_of_holds_marker`). So a run that comes by it is in a branch that this
plural took, and has read the argument of it before: nothing is left to go wrong with the
marker but its offset (`Visit.Sound.exists_taken`). The plural took off the same offset when it
asked for a category, so that too can fail only in a branch for one integer. -/
namespace MessagePattern

/-- A marker comes from a marker, and belongs to the plural that this stands in. -/
theorem Part.compile_eq_marker {limit depth : Nat} {binding? : Option Binding} {p : Part}
    {b : Binding} (h : p.compile limit binding? depth = .ok (.marker b)) :
    p = .marker ∧ binding? = some b := by
  cases p with
  | text value => cases h
  | plain a => cases h
  | simple a t s =>
    rw [Part.compile] at h
    split at h
    next => cases h
    next => cases h
  | select a bs =>
    obtain ⟨_, -, hnode⟩ := Part.compile_select_eq_ok h
    cases hnode
  | plural a o offset bs =>
    obtain ⟨_, _, -, -, hnode⟩ := Part.compile_plural_eq_ok h
    cases hnode
  | marker =>
    cases binding? with
    | none => cases h
    | some b' =>
      cases h
      exact ⟨rfl, rfl⟩

/-- **A marker belongs to the plural next around it**, with no select between. -/
theorem binding_of_holds_marker {limit : Nat} {m : Message} {block : Block}
    (h : Message.compileParts limit none 0 m = .ok block) {around? : Option Binding} {b : Binding}
    (hb : Block.Holds none block around? (.marker b)) : around? = some b := by
  obtain ⟨site, p, -, rfl, hcompile⟩ := @exists_part_of_holds limit .root m block h _ _ hb
  exact (Part.compile_eq_marker hcompile).2

/-! ### Operands -/

/-- The operand without the bound of 64 bits. -/
def Binding.difference (b : Binding) (n : Int64) : Int := n.toInt - b.offset.toInt

theorem Binding.exists_operand_iff {b : Binding} {n : Int64} :
    (∃ k, b.operand n = .ok k) ↔ Integer.Fits (b.difference n) := by
  rw [← not_iff_not, Binding.difference, ← Integer.sub?_eq_none_iff,
    Option.eq_none_iff_forall_ne_some]
  simp only [not_exists, Binding.operand_eq_ok_iff, ne_eq]

variable {c : Context} {b : Binding} {n : Int64}

theorem Context.marker_of_fits (hn : c.args.integer b.argument = .ok n)
    (h : Integer.Fits (b.difference n)) : c.marker b = .ok (toString (b.difference n)) := by
  obtain ⟨k, hk⟩ := Binding.exists_operand_iff.2 h
  have hvalue : k.toInt = b.difference n :=
    Integer.sub?_eq_some_iff.1 (Binding.operand_eq_ok_iff.1 hk)
  rw [Context.marker, hn, ← hvalue, ← Integer.decimal_eq_toString]
  show (b.operand n).map Integer.decimal = _
  rw [hk]
  rfl

theorem Context.marker_of_not_fits (hn : c.args.integer b.argument = .ok n)
    (h : ¬ Integer.Fits (b.difference n)) : c.marker b = .error (.overflow b.argument) := by
  have hoverflow : b.operand n = .error (.overflow b.argument) :=
    Binding.operand_eq_error_iff.2 ⟨Integer.sub?_eq_none_iff.2 h, rfl⟩
  rw [Context.marker, hn]
  show (b.operand n).map Integer.decimal = _
  rw [hoverflow]
  rfl

/-! ### Runs -/

/-- A run reaches a marker in a branch that its plural took. The plural has read the same
argument, and unless the branch is that of one integer, taken off the same offset. -/
theorem Visit.Sound.exists_taken {limit : Nat} {m : Message} {block : Block}
    (h : Message.compileParts limit none 0 m = .ok block) {v : Visit} (hv : v.Sound c none block)
    (hb : v.node = .marker b) : ∃ n key, v.around? = some ⟨b, n, key⟩ ∧
      c.args.integer b.argument = .ok n ∧ v.result = (c.marker b).map (v.before ++ ·) ∧
        (key = .exact n ∨ Integer.Fits (b.difference n)) := by
  -- The branch is that of the plural the marker stands in, and the marker belongs to that.
  have hholds := hv.holds
  have hgives := hv.gives
  rw [hb] at hholds hgives
  obtain ⟨t, htaken, rfl⟩ := Option.map_eq_some_iff.1 (binding_of_holds_marker h hholds)
  have hsound := hv.taken t htaken
  refine ⟨t.value, t.key, htaken, hsound.read, Node.gives_marker_iff.1 hgives, ?_⟩
  exact hsound.operand.imp_right Binding.exists_operand_iff.1

/-- **A marker is bound to the plural next around it and fails only with its offset.** In
every run it is reached in a branch that this plural took for an integer, and writes the
operand in decimal behind the text that the run has come to. It overflows if that has more than
64 bits, which happens only in the branch of the integer itself. -/
theorem marker_of_compileFor {limits : Limits} {locale : Locale} {m : Message}
    {compiled : CompiledMessage} (h : m.compileFor limits locale = .ok compiled) :
    (∀ around? b, Block.Holds none compiled.root around? (.marker b) → around? = some b) ∧
    ∀ args formatter,
      (∀ log r, (compiled.run args formatter).Yields log r ↔ ∃ visits,
        Block.Visits ⟨locale, args, formatter⟩ none compiled.root "" log visits ∧
          r = outcome "" visits) ∧
      (∀ resolve, ∃ log visits,
        Block.Visits ⟨locale, args, formatter⟩ none compiled.root "" log visits ∧
          compiled.formatWith args resolve formatter = outcome "" visits) ∧
      ∀ log visits, Block.Visits ⟨locale, args, formatter⟩ none compiled.root "" log visits →
        (∀ vs v ws, visits = vs ++ v :: ws → outcome "" vs = .ok v.before) ∧
        ∀ v ∈ visits, ∀ b, v.node = .marker b → ∃ n key, v.around? = some ⟨b, n, key⟩ ∧
          args b.argument = some (.integer n) ∧
          (Integer.Fits (n.toInt - b.offset.toInt) →
            v.result = .ok (v.before ++ toString (n.toInt - b.offset.toInt))) ∧
          (¬ Integer.Fits (n.toInt - b.offset.toInt) →
            v.result = .error (.overflow b.argument) ∧ key = .exact n) := by
  obtain ⟨root, hroot, rfl⟩ := Message.compileFor_eq_ok h
  refine ⟨fun around? b => binding_of_holds_marker hroot,
    fun args formatter => ⟨fun log r => yields_iff_visits, fun resolve => ?_, ?_⟩⟩
  · exact ⟨_, yields_iff_visits.1 (Run.yields_answer resolve _)⟩
  · intro log visits hvisits
    refine ⟨hvisits.before, fun v hv b hb => ?_⟩
    have hsound := hvisits.sound nofun v hv
    obtain ⟨n, key, htaken, hn, hresult, hkey⟩ := hsound.exists_taken hroot hb
    refine ⟨n, key, htaken, Arguments.integer_eq_ok_iff.1 hn, fun hfits => ?_, fun hlarge => ?_⟩
    · rw [hresult, Context.marker_of_fits hn hfits]
      rfl
    · rw [hresult, Context.marker_of_not_fits hn hlarge]
      exact ⟨rfl, hkey.resolve_right hlarge⟩

/-- Whatever a formatter leaves of the text. -/
theorem marker_of_compileFor_overflow :
    (∃ visits, Block.Visits ⟨⟨⟨"en", none, none, []⟩, [], [], [], []⟩,
        .ofList [("n", .integer (-2))], fun _ _ => .ok ""⟩ none
        [.plural ⟨"n", 0x7fffffffffffffff⟩ false
          [(.exact (-2), [.simple "n" .number .default, .marker ⟨"n", 0x7fffffffffffffff⟩])]
          [.marker ⟨"n", 0x7fffffffffffffff⟩]] "" [] visits ∧
        outcome "" visits = .error (.overflow "n")) ∧
    ∀ log visits, Block.Visits ⟨⟨⟨"en", none, none, []⟩, [], [], [], []⟩,
        .ofList [("n", .integer (-2))], fun _ _ => .ok ""⟩ none
        [.plural ⟨"n", 0x7fffffffffffffff⟩ false
          [(.exact (-2), [.simple "n" .number .default, .marker ⟨"n", 0x7fffffffffffffff⟩])]
          [.marker ⟨"n", 0x7fffffffffffffff⟩]] "" log visits →
      ∀ v ∈ visits, v.node = .marker ⟨"n", 0x7fffffffffffffff⟩ →
        v.result = .error (.overflow "n") := by
  have hcompile : Message.compileFor .standard ⟨⟨"en", none, none, []⟩, [], [], [], []⟩
      [.plural "n" false 0x7fffffffffffffff
        [("=-2", [.simple "n" .number .default, .marker]), ("other", [.marker])]] =
      .ok _ := rfl
  have h := (marker_of_compileFor hcompile).2 (.ofList [("n", .integer (-2))]) fun _ _ => .ok ""
  apply And.intro
  · obtain ⟨visits, hvisits, hr⟩ := (h.1 [] (.error (.overflow "n"))).1 .done
    exact ⟨visits, hvisits, hr.symm⟩
  · intro log visits hvisits v hv hb
    obtain ⟨n, key, -, hn, -, hlarge⟩ := (h.2.2 log visits hvisits).2 v hv _ hb
    cases hn
    exact (hlarge (by decide)).1

end MessagePattern
