import MessagePattern.Proofs.Compilation
import MessagePattern.Proofs.Log

/-! What a run comes by.

A run goes through nodes, handing each the text that it has come to. Most give the text that
this becomes, or an error, at once (`Node.Gives`); a select or a plural that has a branch to
take sends the run into it (`Node.Enters`). `Block.Visits` lists the nodes of the first kind
that a run comes by, each with the text it was handed, what it gave and the branch of a plural
it was reached in.

`yields_iff_visits` says that every run has such a list and that its result is told by
it. `Visits.sound` is what holds of each visit: the node stands where the visit says, and
the plural around it has read its argument before. -/
namespace MessagePattern

open Plural (Category)

variable {c : Context}

/-! ### One node -/

/-- A branch that a plural took for an integer. -/
structure Taken where
  binding : Binding
  value : Int64
  /-- The integer itself, or the category of its operand as answered. -/
  key : PluralKey
  deriving DecidableEq

/-- Behind the text `out` the node gives a text or an error without taking a branch. -/
inductive Node.Gives (c : Context) : Node → (out : String) → Except FormatError String → Prop where
  | text {value out} : Node.Gives c (.text value) out (.ok (out ++ value))
  | plain {a out} : Node.Gives c (.plain a) out ((c.args.string a).map (out ++ ·))
  | simple {a t s out} : Node.Gives c (.simple a t s) out (c.typed a t s out)
  | selectFault {a branches out e} : c.args.string a = .error e →
      Node.Gives c (.select a branches) out (.error e)
  | unmatched {a branches out value} : c.args.string a = .ok value →
      branches.lookup value = none →
      Node.Gives c (.select a branches) out (.error (.ofKeys a value (branches.map (·.1))))
  | pluralFault {b o branches other out e} : c.args.integer b.argument = .error e →
      Node.Gives c (.plural b o branches other) out (.error e)
  | overflow {b o branches other out n e} : c.args.integer b.argument = .ok n →
      branches.lookup (.exact n) = none → b.operand n = .error e →
      Node.Gives c (.plural b o branches other) out (.error e)
  | marker {b out} : Node.Gives c (.marker b) out ((c.marker b).map (out ++ ·))

theorem Node.gives_text_iff {value out : String} {r : Except FormatError String} :
    (Node.text value).Gives c out r ↔ r = .ok (out ++ value) :=
  ⟨fun | .text => rfl, fun h => h ▸ .text⟩

theorem Node.gives_plain_iff {a out : String} {r : Except FormatError String} :
    (Node.plain a).Gives c out r ↔ r = (c.args.string a).map (out ++ ·) :=
  ⟨fun | .plain => rfl, fun h => h ▸ .plain⟩

theorem Node.gives_simple_iff {a out : String} {t : ArgumentType} {s : ArgumentStyle}
    {r : Except FormatError String} : (Node.simple a t s).Gives c out r ↔ r = c.typed a t s out :=
  ⟨fun | .simple => rfl, fun h => h ▸ .simple⟩

theorem Node.gives_marker_iff {b : Binding} {out : String} {r : Except FormatError String} :
    (Node.marker b).Gives c out r ↔ r = (c.marker b).map (out ++ ·) :=
  ⟨fun | .marker => rfl, fun h => h ▸ .marker⟩

/-- What is put behind a text can fail, putting it there cannot. -/
theorem map_eq_error_iff {ε α β : Type} {f : α → β} {x : Except ε α} {e : ε} :
    x.map f = .error e ↔ x = .error e := by
  cases x <;> simp [Except.map]

/-- Answered as the log says, the node takes the branch. -/
inductive Node.Enters (c : Context) : Node → Log → Option Taken → Block → Prop where
  | select {a branches value block} : c.args.string a = .ok value →
      branches.lookup value = some block → Node.Enters c (.select a branches) [] none block
  | exact {b o branches other n block} : c.args.integer b.argument = .ok n →
      branches.lookup (.exact n) = some block →
      Node.Enters c (.plural b o branches other) [] (some ⟨b, n, .exact n⟩) block
  | category {b o branches other n k answer} : c.args.integer b.argument = .ok n →
      branches.lookup (.exact n) = none → b.operand n = .ok k →
      Node.Enters c (.plural b o branches other) [(⟨c.locale, k, o⟩, answer)]
        (some ⟨b, n, .category answer⟩) ((branches.lookup (.category answer)).getD other)

theorem Node.Enters.hasBranch {n : Node} {log : Log} {taken? : Option Taken} {block : Block}
    (h : n.Enters c log taken? block) : n.HasBranch (taken?.map (·.binding)) block := by
  cases h with
  | select _ hblock => exact .select (mem_of_lookup_eq_some hblock)
  | exact _ hblock => exact .plural (mem_of_lookup_eq_some hblock)
  | @category _ _ branches _ _ _ answer =>
    cases hblock : branches.lookup (.category answer) with
    | none => exact .other
    | some block => exact .plural (mem_of_lookup_eq_some hblock)

/-- The plural read the integer, and took its operand unless it had a branch for the
integer itself. -/
structure Taken.Sound (c : Context) (t : Taken) : Prop where
  read : c.args.integer t.binding.argument = .ok t.value
  operand : t.key = .exact t.value ∨ ∃ k, t.binding.operand t.value = .ok k

theorem Node.Enters.taken_sound {n : Node} {log : Log} {taken? : Option Taken} {block : Block}
    (h : n.Enters c log taken? block) : ∀ t ∈ taken?, t.Sound c := by
  intro t ht
  cases h with
  | select => cases ht
  | exact hn =>
    cases ht
    exact ⟨hn, .inl rfl⟩
  | category hn _ hk =>
    cases ht
    exact ⟨hn, .inr ⟨_, hk⟩⟩

/-! ### The run of a node -/

/-- The node gives the result at once, or takes a branch that yields it behind the question
by which it was taken. -/
inductive Node.Yields (c : Context) (n : Node) (out : String) :
    Log → Except FormatError String → Prop where
  | gives {r} : n.Gives c out r → Node.Yields c n out [] r
  | enters {asked taken? block log r} : n.Enters c asked taken? block →
      (Block.run c block out).Yields log r → Node.Yields c n out (asked ++ log) r

variable {out : String} {log : Log} {r : Except FormatError String}

/-- A node that takes no branch gives its result. -/
theorem yields_run_of_leaf {n : Node} {x : Except FormatError String}
    (hrun : n.run c out = .done x) (hgives : ∀ r, n.Gives c out r ↔ r = x)
    (hleaf : ∀ asked taken? block, ¬ n.Enters c asked taken? block) :
    (n.run c out).Yields log r ↔ n.Yields c out log r := by
  rw [hrun, Run.yields_done_iff]
  apply Iff.intro
  · intro h
    obtain ⟨rfl, rfl⟩ := h
    exact .gives ((hgives r).2 rfl)
  · intro h
    cases h with
    | gives h => exact ⟨rfl, (hgives r).1 h⟩
    | enters henters => exact absurd henters (hleaf _ _ _)

theorem yields_select_iff {a : String} {branches : List (String × Block)} :
    ((Node.select a branches).run c out).Yields log r ↔
      (Node.select a branches).Yields c out log r := by
  rw [Node.run_select, Run.yields_done_bind_iff]
  apply Iff.intro
  · intro h
    rcases h with ⟨e, he, rfl, rfl⟩ | ⟨value, hvalue, hrun⟩
    · exact .gives (.selectFault he)
    cases hb : branches.lookup value with
    | none =>
      rw [hb] at hrun
      obtain ⟨rfl, rfl⟩ := Run.yields_done_iff.1 hrun
      exact .gives (.unmatched hvalue hb)
    | some block =>
      rw [hb] at hrun
      exact .enters (.select hvalue hb) hrun
  · intro h
    cases h with
    | gives hgives =>
      cases hgives with
      | selectFault he => exact .inl ⟨_, he, rfl, rfl⟩
      | @unmatched _ _ _ value hvalue hb =>
        refine .inr ⟨value, hvalue, ?_⟩
        rw [hb]
        exact .done
    | enters henters hrun =>
      cases henters with
      | @select _ _ value _ hvalue hb =>
        refine .inr ⟨value, hvalue, ?_⟩
        rw [hb]
        exact hrun

theorem yields_plural_iff {b : Binding} {o : Bool} {branches : List (PluralKey × Block)}
    {other : Block} : ((Node.plural b o branches other).run c out).Yields log r ↔
      (Node.plural b o branches other).Yields c out log r := by
  rw [Node.run_plural, Run.yields_done_bind_iff]
  apply Iff.intro
  · intro h
    rcases h with ⟨e, he, rfl, rfl⟩ | ⟨n, hn, hrun⟩
    · exact .gives (.pluralFault he)
    cases hb : branches.lookup (.exact n) with
    | some block =>
      rw [hb] at hrun
      exact .enters (.exact hn hb) hrun
    | none =>
      rw [hb] at hrun
      rcases Run.yields_done_bind_iff.1 hrun with ⟨e, he, rfl, rfl⟩ | ⟨k, hk, hask⟩
      · exact .gives (.overflow hn hb he)
      · obtain ⟨answer, rest, rfl, hblock⟩ := Run.yields_category_bind_iff.1 hask
        exact .enters (.category hn hb hk) hblock
  · intro h
    cases h with
    | gives hgives =>
      cases hgives with
      | pluralFault he => exact .inl ⟨_, he, rfl, rfl⟩
      | @overflow _ _ _ _ _ n e hn hb he =>
        refine .inr ⟨n, hn, ?_⟩
        rw [hb]
        exact Run.yields_done_bind_iff.2 (.inl ⟨e, he, rfl, rfl⟩)
    | @enters _ _ _ rest _ henters hrun =>
      cases henters with
      | @exact _ _ _ _ n _ hn hb =>
        refine .inr ⟨n, hn, ?_⟩
        rw [hb]
        exact hrun
      | @category _ _ _ _ n k answer hn hb hk =>
        refine .inr ⟨n, hn, ?_⟩
        rw [hb]
        refine Run.yields_done_bind_iff.2 (.inr ⟨k, hk, ?_⟩)
        exact Run.yields_category_bind_iff.2 ⟨answer, rest, rfl, hrun⟩

/-- **A node gives its result at once or is the run of the branch it takes.** -/
theorem yields_run_iff {n : Node} : (n.run c out).Yields log r ↔ n.Yields c out log r := by
  cases n with
  | text value =>
    exact yields_run_of_leaf (by rw [Node.run]) (fun _ => Node.gives_text_iff)
      fun _ _ _ h => by cases h
  | plain a =>
    exact yields_run_of_leaf (by rw [Node.run]) (fun _ => Node.gives_plain_iff)
      fun _ _ _ h => by cases h
  | simple a t s =>
    exact yields_run_of_leaf (by rw [Node.run]) (fun _ => Node.gives_simple_iff)
      fun _ _ _ h => by cases h
  | select a branches => exact yields_select_iff
  | plural b o branches other => exact yields_plural_iff
  | marker b =>
    exact yields_run_of_leaf (by rw [Node.run]) (fun _ => Node.gives_marker_iff)
      fun _ _ _ h => by cases h

/-! ### The run of a block -/

/-- A node that gave its result at once. -/
structure Visit where
  node : Node
  /-- The branch it was reached in, if it stands directly in one of a plural. -/
  around? : Option Taken
  /-- The text it was handed. -/
  before : String
  result : Except FormatError String

/-- The text that visits behind the text `out` come to, or the first error. -/
def outcome (out : String) : List Visit → Except FormatError String
  | [] => .ok out
  | v :: visits =>
    match v.result with
    | .error e => .error e
    | .ok out => outcome out visits

theorem outcome_append (out : String) (vs ws : List Visit) :
    outcome out (vs ++ ws) = (outcome out vs).bind fun out => outcome out ws := by
  induction vs generalizing out with
  | nil => rfl
  | cons v vs ih =>
    rw [List.cons_append, outcome, outcome]
    cases v.result with
    | error e => rfl
    | ok out => exact ih out

/-- The run through the block, which is in the branch `around?` and has come to the text `out`,
comes by the visited nodes in this order, if it is answered as the log says. It ends behind
the first error. -/
inductive Block.Visits (c : Context) : (around? : Option Taken) → Block → (out : String) → Log →
    List Visit → Prop where
  | nil {around? out} : Block.Visits c around? [] out [] []
  | give {around? n rest out out' log visits} : n.Gives c out (.ok out') →
      Block.Visits c around? rest out' log visits →
      Block.Visits c around? (n :: rest) out log (⟨n, around?, out, .ok out'⟩ :: visits)
  | fault {around? n rest out e} : n.Gives c out (.error e) →
      Block.Visits c around? (n :: rest) out [] [⟨n, around?, out, .error e⟩]
  | enter {around? n rest asked taken? block out log visits out' log' visits'} :
      n.Enters c asked taken? block → Block.Visits c taken? block out log visits →
      outcome out visits = .ok out' → Block.Visits c around? rest out' log' visits' →
      Block.Visits c around? (n :: rest) out (asked ++ log ++ log') (visits ++ visits')
  | enterFault {around? n rest asked taken? block out log visits e} :
      n.Enters c asked taken? block → Block.Visits c taken? block out log visits →
      outcome out visits = .error e →
      Block.Visits c around? (n :: rest) out (asked ++ log) visits

theorem Block.Visits.yields {around? : Option Taken} {block : Block} {visits : List Visit}
    (h : Block.Visits c around? block out log visits) :
    (Block.run c block out).Yields log (outcome out visits) := by
  induction h with
  | nil =>
    rw [Block.run]
    exact .done
  | give hgives _ ih =>
    have hn := yields_run_iff.2 (.gives hgives)
    exact Block.yields_cons_iff.2 (.inr ⟨_, [], _, hn, ih, rfl⟩)
  | fault hgives =>
    have hn := yields_run_iff.2 (.gives hgives)
    exact Block.yields_cons_iff.2 (.inl ⟨_, hn, rfl⟩)
  | enter henters _ hok _ ihb ih =>
    have hn := yields_run_iff.2 (.enters henters ihb)
    rw [hok] at hn
    rw [outcome_append, hok]
    exact Block.yields_cons_iff.2 (.inr ⟨_, _, _, hn, ih, rfl⟩)
  | enterFault henters _ herror ihb =>
    have hn := yields_run_iff.2 (.enters henters ihb)
    rw [herror] at hn ⊢
    exact Block.yields_cons_iff.2 (.inl ⟨_, hn, rfl⟩)

/-- **A run yields what the nodes it comes by give**, along the same log. -/
theorem yields_iff_visits {around? : Option Taken} {block : Block} :
    (Block.run c block out).Yields log r ↔
      ∃ visits, Block.Visits c around? block out log visits ∧ r = outcome out visits := by
  refine ⟨fun h => ?_, fun ⟨visits, h, hr⟩ => hr ▸ h.yields⟩
  -- By the branches of a node first: it enters one of them, where another plural is around.
  induction block using Block.branch_induction generalizing around? out log r with
  | nil =>
    rw [Block.run, Run.yields_done_iff] at h
    obtain ⟨rfl, rfl⟩ := h
    exact ⟨[], .nil, rfl⟩
  | cons n rest ihb ih =>
    rcases Block.yields_cons_iff.1 h with ⟨e, hn, rfl⟩ | ⟨out', log₁, log₂, hn, hrest, rfl⟩
    · cases yields_run_iff.1 hn with
      | gives hgives => exact ⟨_, .fault hgives, rfl⟩
      | enters henters hrun =>
        obtain ⟨visits, hvisits, he⟩ := ihb _ _ henters.hasBranch hrun
        exact ⟨visits, .enterFault henters hvisits he.symm, he⟩
    · obtain ⟨visits', hvisits', rfl⟩ := ih hrest
      cases yields_run_iff.1 hn with
      | gives hgives => exact ⟨_, .give hgives hvisits', rfl⟩
      | enters henters hrun =>
        obtain ⟨visits, hvisits, hout⟩ := ihb _ _ henters.hasBranch hrun
        refine ⟨visits ++ visits', .enter henters hvisits hout.symm hvisits', ?_⟩
        rw [outcome_append, ← hout]
        rfl

/-- **A node is handed the text that the visits before it come to.** -/
theorem Block.Visits.before {around? : Option Taken} {block : Block} {visits : List Visit}
    (h : Block.Visits c around? block out log visits) :
    ∀ vs v ws, visits = vs ++ v :: ws → outcome out vs = .ok v.before := by
  induction h with
  | nil => exact fun vs v ws hv => absurd hv.symm (by simp)
  | give _ _ ih =>
    intro vs v ws hv
    cases vs with
    | nil =>
      obtain ⟨rfl, -⟩ := List.cons.inj hv
      rfl
    | cons w vs =>
      obtain ⟨rfl, htail⟩ := List.cons.inj hv
      exact ih vs v ws htail
  | fault =>
    intro vs v ws hv
    cases vs with
    | nil =>
      obtain ⟨rfl, -⟩ := List.cons.inj hv
      rfl
    | cons w vs => exact absurd (List.cons.inj hv).2.symm (by simp)
  | enter _ _ hok _ ihb ih =>
    intro vs v ws hv
    -- The node is one of the branch entered, or one behind it.
    rcases List.append_eq_append_iff.1 hv with ⟨as, rfl, hbehind⟩ | ⟨bs, hinside, hbs⟩
    · rw [outcome_append, hok]
      exact ih as v ws hbehind
    · cases bs with
      | nil =>
        rw [List.append_nil] at hinside
        subst hinside
        rw [hok]
        exact ih [] v ws hbs.symm
      | cons w bs =>
        obtain ⟨rfl, -⟩ := List.cons.inj hbs
        exact ihb vs v bs hinside
  | enterFault _ _ _ ihb => exact ihb

/-! ### What holds of every visit -/

/-- The node of the visit gave its result, and it stands in the block where the visit has
it, in a branch that was taken for good reason. -/
structure Visit.Sound (c : Context) (around? : Option Taken) (block : Block) (v : Visit) :
    Prop where
  gives : v.node.Gives c v.before v.result
  holds : Block.Holds (around?.map (·.binding)) block (v.around?.map (·.binding)) v.node
  taken : ∀ t ∈ v.around?, t.Sound c

theorem Visit.Sound.cons {around? : Option Taken} {n : Node} {rest : Block} {v : Visit}
    (h : v.Sound c around? rest) : v.Sound c around? (n :: rest) :=
  ⟨h.gives, h.holds.cons, h.taken⟩

theorem Visit.Sound.enter {around? taken? : Option Taken} {n : Node} {rest block : Block}
    {asked : Log} {v : Visit} (henters : n.Enters c asked taken? block)
    (h : v.Sound c taken? block) : v.Sound c around? (n :: rest) :=
  ⟨h.gives, .inside List.mem_cons_self henters.hasBranch h.holds, h.taken⟩

/-- **Every visit is as it is listed.** -/
theorem Block.Visits.sound {around? : Option Taken} {block : Block} {visits : List Visit}
    (h : Block.Visits c around? block out log visits)
    (htaken : ∀ t ∈ around?, t.Sound c) : ∀ v ∈ visits, v.Sound c around? block := by
  -- The branch that the run is in stays sound: a new one is entered only by `Node.Enters`.
  induction h with
  | nil => exact fun _ hv => nomatch hv
  | give hgives _ ih =>
    exact List.forall_mem_cons.2
      ⟨⟨hgives, .here List.mem_cons_self, htaken⟩, fun v hv => (ih htaken v hv).cons⟩
  | fault hgives =>
    intro v hv
    obtain rfl := List.mem_singleton.1 hv
    exact ⟨hgives, .here List.mem_cons_self, htaken⟩
  | enter henters _ _ _ ihb ih =>
    intro v hv
    rcases List.mem_append.1 hv with hv | hv
    · exact (ihb henters.taken_sound v hv).enter henters
    · exact (ih htaken v hv).cons
  | enterFault henters _ _ ihb =>
    exact fun v hv => (ihb henters.taken_sound v hv).enter henters

/-- An error of a run was given by a node it came by. -/
theorem exists_mem_of_outcome_eq_error {visits : List Visit} {e : FormatError}
    (h : outcome out visits = .error e) : ∃ v ∈ visits, v.result = .error e := by
  induction visits generalizing out with
  | nil => cases h
  | cons v visits ih =>
    rw [outcome] at h
    split at h
    next hv =>
      cases h
      exact ⟨v, List.mem_cons_self, hv⟩
    next hv =>
      obtain ⟨w, hw, he⟩ := ih h
      exact ⟨w, List.mem_cons_of_mem v hw, he⟩

/-- **An error of a compiled message was given by a node it came by**, and that comes from a
part of the message. -/
theorem exists_visit_of_yields_error {limit : Nat} {m : Message} {root : Block}
    (hroot : Message.compileParts limit none 0 m = .ok root) {e : FormatError}
    (h : (Block.run c root out).Yields log (.error e)) :
    ∃ visits v site p, Block.Visits c none root out log visits ∧ v ∈ visits ∧
      v.result = .error e ∧ Message.Stands .root m site p ∧
        site.binding? = v.around?.map (·.binding) ∧
          p.compile limit site.binding? site.depth = .ok v.node := by
  obtain ⟨visits, hvisits, herror⟩ : ∃ visits, Block.Visits c none root out log visits ∧
      .error e = outcome out visits := yields_iff_visits.1 h
  obtain ⟨v, hv, he⟩ := exists_mem_of_outcome_eq_error herror.symm
  have hsound := hvisits.sound nofun v hv
  obtain ⟨site, p, hp, hsite, hcompile⟩ :=
    @exists_part_of_holds limit .root m root hroot _ _ hsound.holds
  exact ⟨visits, v, site, p, hvisits, hv, he, hp, hsite, hcompile⟩

end MessagePattern
