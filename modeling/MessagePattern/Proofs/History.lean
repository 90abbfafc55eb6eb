import MessagePattern.Proofs.Nesting

/-! Formatting after anything else.

Rules are built for a language identifier and for cardinal or ordinal use, and those built
are remembered, so what a resolver holds depends on all that it was asked before. What is
remembered is what would be built (`Source.Sound`), every question keeps it so, and so the
history never shows (`Source.resolve_after`), whichever source the rules come from.

Of the locale a question looks at the language identifier alone, and the plain formatter at
nothing (`Block.answer_congr`). So messages compiled for two locales with one identifier
format alike, each after a history of its own (`format_of_id_eq`). -/
namespace MessagePattern

namespace Plural

namespace Source

variable {ρ : Type} (source : Source ρ)

/-- The memory after questions. -/
def after (history : List Question) : Memory ρ :=
  history.foldl (fun memory q => (source.resolve memory q).2) []

/-! ### What is remembered -/

/-- What is remembered is what would be built. -/
def Sound (memory : Memory ρ) : Prop := ∀ e ∈ memory, source.build e.1.1 e.1.2 = some e.2

variable {source} {memory : Memory ρ}

theorem Sound.resolve_eq (h : source.Sound memory) (q : Question) :
    (source.resolve memory q).1 = source.fresh q := by
  unfold resolve fresh
  split
  next rules hrules => rw [h _ (mem_of_lookup_eq_some hrules)]
  next => split <;> rfl

/-- **Every question leaves what would be built.** -/
theorem Sound.resolve (h : source.Sound memory) (q : Question) :
    source.Sound (source.resolve memory q).2 := by
  unfold Source.resolve
  split
  next => exact h
  next =>
    split
    next rules hrules =>
      refine List.forall_mem_append.2 ⟨h, fun e he => ?_⟩
      obtain rfl := List.mem_singleton.1 he
      exact hrules
    next => exact h

theorem sound_foldl (h : source.Sound memory) (history : List Question) :
    source.Sound (history.foldl (fun memory q => (source.resolve memory q).2) memory) := by
  induction history generalizing memory with
  | nil => exact h
  | cons q history ih => exact ih (h.resolve q)

variable (source)

theorem sound_nil : source.Sound [] := fun _ h => nomatch h

theorem sound_after (history : List Question) : source.Sound (source.after history) :=
  sound_foldl source.sound_nil history

/-- **No history shows**: remembered rules answer as those built for the question. -/
theorem resolve_after (history : List Question) (q : Question) :
    (source.resolve (source.after history) q).1 = source.fresh q :=
  (source.sound_after history).resolve_eq q

end Source

/-- The resolver looks at the language identifier of the locale alone. -/
def ReadsId (resolve : Question → Category) : Prop :=
  ∀ locale locale' n ordinal, locale.id = locale'.id →
    resolve ⟨locale, n, ordinal⟩ = resolve ⟨locale', n, ordinal⟩

theorem Source.readsId_fresh {ρ : Type} (source : Source ρ) : ReadsId source.fresh := by
  intro locale locale' n ordinal hid
  unfold fresh
  rw [hid]

end Plural

open Plural (Category Question Source)

/-- What is remembered does not show in what is formatted. -/
theorem CompiledMessage.format_eq_formatWith {ρ : Type} {source : Source ρ}
    {memory : Source.Memory ρ} (h : source.Sound memory) (m : CompiledMessage)
    (args : Arguments) :
    (m.format source args memory).1 = m.formatWith args source.fresh .plain :=
  (@Run.remember_eq_answer _ _ source.Sound source.fresh source.resolve
    (fun _ q hm => hm.resolve_eq q) (fun _ q hm => hm.resolve q)
    (m.run args .plain) memory h).1

/-! ### What is read of the locale -/

section
variable {locale locale' : Locale} {args : Arguments} {resolve : Question → Category}

/-- A node comes to the same for both locales if its branches do. -/
theorem Node.answer_congr (hresolve : Plural.ReadsId resolve) (hid : locale.id = locale'.id)
    {n : Node} (hbranch : ∀ binding? block, n.HasBranch binding? block → ∀ out,
      (Block.run ⟨locale, args, .plain⟩ block out).answer resolve =
        (Block.run ⟨locale', args, .plain⟩ block out).answer resolve) (out : String) :
    (n.run ⟨locale, args, .plain⟩ out).answer resolve =
      (n.run ⟨locale', args, .plain⟩ out).answer resolve := by
  cases n with
  | text value => rw [Node.run, Node.run]
  | plain a => rw [Node.run, Node.run]
  | simple a t s => rw [Node.run, Node.run, Context.typed, Context.typed]; rfl
  | select a branches =>
    rw [Node.run_select, Node.run_select, Run.answer_bind, Run.answer_bind]
    congr 1
    funext value
    cases hb : branches.lookup value with
    | none => rfl
    | some block => exact hbranch none block (.select (mem_of_lookup_eq_some hb)) out
  | plural b o branches other =>
    have hentry : ∀ {key block}, branches.lookup key = some block →
        (Block.run ⟨locale, args, .plain⟩ block out).answer resolve =
          (Block.run ⟨locale', args, .plain⟩ block out).answer resolve :=
      fun h => hbranch (some b) _ (.plural (mem_of_lookup_eq_some h)) out
    rw [Node.run_plural, Node.run_plural, Run.answer_bind, Run.answer_bind]
    congr 1
    funext n
    cases hexact : branches.lookup (.exact n) with
    | some block => exact hentry hexact
    | none =>
      show ((Run.done (b.operand n)).bind _).answer resolve =
        ((Run.done (b.operand n)).bind _).answer resolve
      rw [Run.answer_bind, Run.answer_bind]
      congr 1
      funext k
      rw [Run.answer_bind, Run.answer_bind]
      show (Except.ok (resolve ⟨locale, k, o⟩)).bind _ =
        (Except.ok (resolve ⟨locale', k, o⟩)).bind _
      rw [hresolve locale locale' k o hid]
      show Run.answer resolve _ = Run.answer resolve _
      generalize resolve ⟨locale', k, o⟩ = answer
      cases hcategory : branches.lookup (.category answer) with
      | some block => exact hentry hcategory
      | none => exact hbranch (some b) other .other out
  | marker b => rw [Node.run, Node.run, Context.marker, Context.marker]

theorem Block.answer_congr (hresolve : Plural.ReadsId resolve) (hid : locale.id = locale'.id)
    (block : Block) : ∀ out, (Block.run ⟨locale, args, .plain⟩ block out).answer resolve =
      (Block.run ⟨locale', args, .plain⟩ block out).answer resolve := by
  induction block using Block.branch_induction with
  | nil =>
    intro out
    rw [Block.run, Block.run]
  | cons n rest ihb ih =>
    intro out
    rw [Block.run, Block.run, Run.answer_bind, Run.answer_bind,
      Node.answer_congr hresolve hid ihb]
    congr 1
    funext out
    exact ih out

end

/-- The locale shows only where the message is formatted. -/
theorem root_eq_of_compileFor {limits limits' : Limits} {locale locale' : Locale} {m : Message}
    {compiled compiled' : CompiledMessage} (h : m.compileFor limits locale = .ok compiled)
    (h' : m.compileFor limits' locale' = .ok compiled') :
    ∃ root, compiled = ⟨locale, root⟩ ∧ compiled' = ⟨locale', root⟩ := by
  obtain ⟨root, hroot, rfl⟩ := Message.compileFor_eq_ok h
  obtain ⟨root', hroot', rfl⟩ := Message.compileFor_eq_ok h'
  have hvalid := Message.valid_iff.2 ((reports_compileFor _ _ m).exists_ok_iff.1 ⟨_, h'⟩)
  have hdepth : 0 + Message.depth m ≤ limits'.maxDepth := by
    have := hvalid.depth
    omega
  have hsame := compileParts_of_ok _ limits'.maxDepth m none 0 root hroot hdepth
  obtain rfl : root = root' := Except.ok.inj (hsame.symm.trans hroot')
  exact ⟨root, rfl, rfl⟩

/-- **Formatting depends on the locale through its language identifier, and on no history.** -/
theorem format_of_id_eq {limits limits' : Limits} {locale locale' : Locale} {m : Message}
    {compiled compiled' : CompiledMessage} (h : m.compileFor limits locale = .ok compiled)
    (h' : m.compileFor limits' locale' = .ok compiled') (hid : locale.id = locale'.id) {ρ : Type}
    (source : Source ρ) :
    (∀ history history' args, (compiled.format source args (source.after history)).1 =
      (compiled'.format source args (source.after history')).1) ∧
    ∀ history q, (source.resolve (source.after history) q).1 = source.fresh q := by
  obtain ⟨root, rfl, rfl⟩ := root_eq_of_compileFor h h'
  refine ⟨fun history history' args => ?_, source.resolve_after⟩
  rw [CompiledMessage.format_eq_formatWith (source.sound_after history),
    CompiledMessage.format_eq_formatWith (source.sound_after history')]
  exact Block.answer_congr source.readsId_fresh hid root ""

/-- English rules for small numbers. -/
def Plural.Source.english : Source Bool where
  build id ordinal := if id.language = "en" then some ordinal else none
  category ordinal n :=
    if n = 1 then .one
    else if ordinal ∧ n = 2 then .two
    else if ordinal ∧ n = 3 then .few
    else .other

theorem format_of_id_eq_extension :
    (CompiledMessage.format ⟨⟨⟨"en", none, none, []⟩, [], [("nu", ["thai"])], [("t", ["es"])], []⟩,
        [.plural ⟨"n", 0⟩ true [(.category .few, [.marker ⟨"n", 0⟩, .text "rd"])] []]⟩
      .english (.ofList [("n", .integer 3)])
      (Source.english.after [⟨⟨⟨"en", none, none, []⟩, [], [], [], []⟩, 1, false⟩,
        ⟨⟨⟨"ru", none, none, []⟩, [], [], [], []⟩, 3, true⟩])).1 = .ok "3rd" := by
  have h : Message.compileFor .standard ⟨⟨"en", none, none, []⟩, [], [], [], []⟩
      [.plural "n" true 0 [("few", [.marker, .text "rd"]), ("other", [])]] = .ok _ := rfl
  have h' : Message.compileFor .standard
      ⟨⟨"en", none, none, []⟩, [], [("nu", ["thai"])], [("t", ["es"])], []⟩
      [.plural "n" true 0 [("few", [.marker, .text "rd"]), ("other", [])]] = .ok _ := rfl
  have hfresh : (CompiledMessage.format ⟨⟨⟨"en", none, none, []⟩, [], [], [], []⟩,
        [.plural ⟨"n", 0⟩ true [(.category .few, [.marker ⟨"n", 0⟩, .text "rd"])] []]⟩
      .english (.ofList [("n", .integer 3)]) (Source.english.after [])).1 = .ok "3rd" := rfl
  rw [← hfresh]
  exact ((format_of_id_eq h h' rfl Source.english).1 _ _ _).symm

end MessagePattern
