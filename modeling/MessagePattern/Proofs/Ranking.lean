import MessagePattern.Proofs.Compilation
import MessagePattern.Proofs.Edits
import MessagePattern.Proofs.Visits

/-! What is suggested, and for what.

A ranking puts nearer words first and leaves equally near ones as they were given
(`Ranks`), which leaves no choice (`Ranks.unique`). The suggestions for a word are the first
three of the ranking of what is near to it, or all if there are fewer: they are the `Best`
of the candidates.

`suggestions_best` draws the consequence for a select that has no branch for a value: what
is suggested are keys of just that select, and among equally near ones the lower key comes
first. -/
namespace MessagePattern

namespace Suggestion

variable {word : String} {candidates ranked : List String}

/-! ### Rankings -/

/-- The candidates, nearer ones first, and equally near ones in their given order. -/
structure Ranks (word : String) (candidates ranked : List String) : Prop where
  sorted : ranked.Pairwise fun s t => editDistance word s ≤ editDistance word t
  stable : ∀ d,
    ranked.filter (editDistance word · = d) = candidates.filter (editDistance word · = d)

theorem mem_iff_of_ties {as bs : List String}
    (h : ∀ d, as.filter (editDistance word · = d) = bs.filter (editDistance word · = d))
    (s : String) : s ∈ as ↔ s ∈ bs := by
  simpa using congrArg (s ∈ ·) (h (editDistance word s))

/-- A sorted list is told by which words it has at each distance, in order. -/
theorem eq_of_ties {as bs : List String}
    (ha : as.Pairwise fun s t => editDistance word s ≤ editDistance word t)
    (hb : bs.Pairwise fun s t => editDistance word s ≤ editDistance word t)
    (h : ∀ d, as.filter (editDistance word · = d) = bs.filter (editDistance word · = d)) :
    as = bs := by
  induction as generalizing bs with
  | nil =>
    exact (List.eq_nil_iff_forall_not_mem.2 fun s hs => nomatch (mem_iff_of_ties h s).2 hs).symm
  | cons s as ih =>
    have hmem := mem_iff_of_ties h
    cases bs with
    | nil => exact nomatch (hmem s).1 List.mem_cons_self
    | cons t bs =>
      obtain ⟨hs, has⟩ := List.pairwise_cons.1 ha
      obtain ⟨ht, hbs⟩ := List.pairwise_cons.1 hb
      -- Both heads are nearest in both lists, so they are equally near.
      have htie : editDistance word s = editDistance word t := by
        apply Nat.le_antisymm
        · rcases List.mem_cons.1 ((hmem t).2 List.mem_cons_self) with rfl | hmem
          · exact Nat.le_refl _
          · exact hs t hmem
        · rcases List.mem_cons.1 ((hmem s).1 List.mem_cons_self) with rfl | hmem
          · exact Nat.le_refl _
          · exact ht s hmem
      have hhead := h (editDistance word t)
      simp only [List.filter_cons, htie, decide_true, if_true] at hhead
      obtain ⟨rfl, -⟩ := List.cons.inj hhead
      have hrest : ∀ d,
          as.filter (editDistance word · = d) = bs.filter (editDistance word · = d) := by
        intro d
        have hd := h d
        rw [List.filter_cons, List.filter_cons] at hd
        split at hd
        next => exact (List.cons.inj hd).2
        next => exact hd
      rw [ih has hbs hrest]

namespace Ranks

theorem perm (h : Ranks word candidates ranked) : ranked.Perm candidates := by
  rw [List.perm_iff_count]
  intro s
  -- A word is counted among those as near as itself.
  have hcount : ∀ l : List String,
      List.count s (l.filter (editDistance word · = editDistance word s)) = List.count s l :=
    fun _ => List.count_filter (decide_eq_true rfl)
  rw [← hcount, h.stable, hcount]

/-- What holds of every two candidates in order holds of every two equally near ones in the
ranking. -/
theorem pairwise (h : Ranks word candidates ranked) {R : String → String → Prop}
    (hc : candidates.Pairwise R) :
    ranked.Pairwise fun s t => editDistance word s < editDistance word t ∨
      editDistance word s = editDistance word t ∧ R s t := by
  rw [List.pairwise_iff_forall_sublist]
  intro s t hst
  rcases Nat.lt_or_eq_of_le (List.pairwise_iff_forall_sublist.1 h.sorted hst) with hlt | heq
  · exact .inl hlt
  · refine .inr ⟨heq, List.pairwise_iff_forall_sublist.1 hc ?_⟩
    have htied := hst.filter (editDistance word · = editDistance word t)
    rw [h.stable] at htied
    simp only [List.filter_cons, heq, decide_true, if_true, List.filter_nil] at htied
    exact htied.trans List.filter_sublist

/-- **There is only one ranking.** -/
theorem unique {other : List String} (h : Ranks word candidates ranked)
    (h' : Ranks word candidates other) : ranked = other :=
  eq_of_ties h.sorted h'.sorted fun d => (h.stable d).trans (h'.stable d).symm

end Ranks

/-- Within so many edits, but not the word itself. -/
def Near (word s : String) : Prop :=
  1 ≤ editDistance word s ∧ editDistance word s ≤ if word.length ≤ 3 then 1 else 2

instance (word s : String) : Decidable (Near word s) := inferInstanceAs (Decidable (_ ∧ _))

/-- The first three of the near candidates as they are ranked, or all if there are fewer. -/
structure Best (word : String) (candidates chosen : List String) : Prop where
  near : ∀ s ∈ chosen, s ∈ candidates ∧ Near word s
  length : chosen.length = min 3 (candidates.countP (Near word ·))
  /-- Those left out come behind. -/
  first : ∃ left, Ranks word (candidates.filter (Near word ·)) (chosen ++ left)

/-! ### Suggestions -/

/-- Everything near, ranked. -/
def nearby (word : String) (candidates : List String) : List String :=
  (List.range' 1 (tolerance word)).flatMap (atDistance word candidates)

theorem editDistance_of_mem_atDistance {d : Nat} {s : String}
    (h : s ∈ atDistance word candidates d) : editDistance word s = d :=
  eq_of_beq (List.mem_filter.1 h).2

theorem filter_atDistance (d d' : Nat) :
    (atDistance word candidates d').filter (editDistance word · = d) =
      if d' = d then candidates.filter (editDistance word · = d) else [] := by
  split
  next h =>
    subst h
    rw [atDistance, List.filter_filter]
    refine List.filter_congr fun s _ => ?_
    exact Bool.and_self _
  next h =>
    refine List.filter_eq_nil_iff.2 fun s hs => ?_
    rw [editDistance_of_mem_atDistance hs, decide_eq_true_eq]
    exact h

theorem filter_flatMap_atDistance {d : Nat} {ds : List Nat} (hds : ds.Nodup) :
    (ds.flatMap (atDistance word candidates)).filter (editDistance word · = d) =
      if d ∈ ds then candidates.filter (editDistance word · = d) else [] := by
  induction ds with
  | nil => rfl
  | cons d' ds ih =>
    obtain ⟨hd', hds⟩ := List.nodup_cons.1 hds
    rw [List.flatMap_cons, List.filter_append, filter_atDistance, ih hds]
    by_cases h : d' = d
    · subst h
      rw [if_pos rfl, if_neg hd', if_pos List.mem_cons_self, List.append_nil]
    · rw [if_neg h, List.nil_append]
      exact if_congr (by simp [Ne.symm h]) rfl rfl

theorem mem_range'_tolerance_iff {s : String} :
    editDistance word s ∈ List.range' 1 (tolerance word) ↔ Near word s := by
  rw [List.mem_range'_1, Near, tolerance, Nat.lt_one_add_iff]

theorem ranks_nearby (word : String) (candidates : List String) :
    Ranks word (candidates.filter (Near word ·)) (nearby word candidates) := by
  refine ⟨List.pairwise_flatMap.2 ⟨fun d _ => ?_, ?_⟩, fun d => ?_⟩
  · refine List.pairwise_of_forall_mem_list fun s hs t ht => ?_
    rw [editDistance_of_mem_atDistance hs, editDistance_of_mem_atDistance ht]
  · refine List.Pairwise.imp (fun hlt s hs t ht => ?_) List.pairwise_lt_range'
    rw [editDistance_of_mem_atDistance hs, editDistance_of_mem_atDistance ht]
    exact Nat.le_of_lt hlt
  · rw [nearby, filter_flatMap_atDistance List.nodup_range', List.filter_filter]
    split
    next hd =>
      refine List.filter_congr fun s _ => ?_
      by_cases hs : editDistance word s = d
      · subst hs
        simp [mem_range'_tolerance_iff.1 hd]
      · simp [hs]
    next hd =>
      refine (List.filter_eq_nil_iff.2 fun s _ hs => hd ?_).symm
      simp only [Bool.and_eq_true, decide_eq_true_eq] at hs
      obtain ⟨rfl, hs⟩ := hs
      exact mem_range'_tolerance_iff.2 hs

/-- **What is suggested is the best there is.** -/
theorem best_suggest (word : String) (candidates : List String) :
    Best word candidates (suggest word candidates) := by
  have hranks := ranks_nearby word candidates
  refine ⟨fun s hs => ?_, ?_, (nearby word candidates).drop atMost, ?_⟩
  · have hs := List.mem_filter.1 (hranks.perm.mem_iff.1 (List.mem_of_mem_take hs))
    exact ⟨hs.1, of_decide_eq_true hs.2⟩
  · rw [List.countP_eq_length_filter, ← hranks.perm.length_eq]
    exact List.length_take
  · rw [suggest, ← nearby, List.take_append_drop]
    exact hranks

/-- **Nothing else is the best**, as there is only one ranking to begin with. -/
theorem best_iff {chosen : List String} :
    Best word candidates chosen ↔ chosen = suggest word candidates := by
  apply Iff.intro
  · intro h
    have hsuggest := best_suggest word candidates
    obtain ⟨left, hranks⟩ := h.first
    obtain ⟨left', hranks'⟩ := hsuggest.first
    exact (List.append_inj (hranks.unique hranks') (h.length.trans hsuggest.length.symm)).1
  · intro h
    exact h ▸ best_suggest word candidates

/-- A word is never suggested for itself. -/
theorem Best.not_mem {chosen : List String} (h : Best word candidates chosen) : word ∉ chosen := by
  intro hmem
  have hnear := (h.near word hmem).2.1
  rw [editDistance_eq_zero_iff.2 rfl] at hnear
  exact absurd hnear (by decide)

/-- The suggestions from ascending candidates ascend where they are equally near. -/
theorem Best.pairwise {chosen : List String} (h : Best word candidates chosen)
    (hc : candidates.Pairwise (· < ·)) :
    chosen.Pairwise fun s t => editDistance word s < editDistance word t ∨
      editDistance word s = editDistance word t ∧ s < t := by
  obtain ⟨left, hranks⟩ := h.first
  exact (List.pairwise_append.1 (hranks.pairwise (hc.sublist List.filter_sublist))).1

end Suggestion

open Suggestion

/-! ### Values without a branch -/

variable {c : Context} {m : Message} {out name value : String} {suggestions : List String}

/-- Behind the text `out` the part finds the value unmatched. The formatter of a typed argument
may say so; a select says so that has other keys, and the suggestions are the best of those. -/
inductive Part.Unmatched (c : Context) (out name value : String) (suggestions : List String) :
    Part → Prop where
  | formatter {a t s v} : c.args a = some v →
      c.formatter ⟨c.locale, a, t, s, v⟩ out = .error (.unmatched name value suggestions) →
      Part.Unmatched c out name value suggestions (.simple a t s)
  | select {bs} : c.args name = some (.string value) → value ∉ bs.map (·.1) →
      Best value (bs.map (·.1)) suggestions → value ∉ suggestions →
      (suggestions.Pairwise fun s t => editDistance value s < editDistance value t ∨
        editDistance value s = editDistance value t ∧ s < t) →
      Part.Unmatched c out name value suggestions (.select name bs)

/-- The run of a compiled message, answered as the log says, fails at a node with the value
unmatched, and the part which that is compiled from finds it so. -/
inductive Message.Unmatched (c : Context) (limit : Nat) (m : Message) (root : Block) (log : Log)
    (name value : String) (suggestions : List String) : Prop where
  | mk {visits v site p} : Block.Visits c none root "" log visits → v ∈ visits →
      v.result = .error (.unmatched name value suggestions) → Message.Stands .root m site p →
      p.compile limit site.binding? site.depth = .ok v.node →
      p.Unmatched c v.before name value suggestions →
      Message.Unmatched c limit m root log name value suggestions

theorem exists_value_of_typed {a : String} {t : ArgumentType} {s : ArgumentStyle}
    (h : c.typed a t s out = .error (.unmatched name value suggestions)) :
    ∃ v, c.args a = some v ∧
      c.formatter ⟨c.locale, a, t, s, v⟩ out = .error (.unmatched name value suggestions) := by
  unfold Context.typed Arguments.value at h
  cases hv : c.args a with
  | none =>
    simp only [hv] at h
    cases h
  | some v =>
    simp only [hv] at h
    exact ⟨v, rfl, h⟩

theorem string_ne_unmatched {args : Arguments} {a : String} :
    args.string a ≠ .error (.unmatched name value suggestions) := by
  intro h
  rcases Arguments.string_eq_error_iff.1 h with ⟨-, he⟩ | ⟨_, -, -, he⟩ <;> cases he

theorem integer_ne_unmatched {args : Arguments} {a : String} :
    args.integer a ≠ .error (.unmatched name value suggestions) := by
  intro h
  rcases Arguments.integer_eq_error_iff.1 h with ⟨-, he⟩ | ⟨_, -, -, he⟩ <;> cases he

theorem operand_ne_unmatched {b : Binding} {n : Int64} :
    b.operand n ≠ .error (.unmatched name value suggestions) := by
  intro h
  obtain ⟨-, he⟩ := Binding.operand_eq_error_iff.1 h
  cases he

theorem marker_ne_unmatched {b : Binding} :
    c.marker b ≠ .error (.unmatched name value suggestions) := by
  intro h
  unfold Context.marker at h
  split at h
  next e he =>
    cases h
    exact integer_ne_unmatched he
  next n _ =>
    cases hk : b.operand n with
    | ok k =>
      rw [hk] at h
      cases h
    | error e =>
      rw [hk] at h
      cases h
      exact operand_ne_unmatched hk

/-- **Only a select and a formatter report an unmatched value.** -/
theorem unmatched_of_gives {p : Part} (hp : p.Ordered) {limit depth : Nat}
    {binding? : Option Binding} {n : Node} (hcompile : p.compile limit binding? depth = .ok n)
    (hgives : n.Gives c out (.error (.unmatched name value suggestions))) :
    p.Unmatched c out name value suggestions := by
  cases p with
  | text value =>
    cases hcompile
    cases Node.gives_text_iff.1 hgives
  | plain a =>
    cases hcompile
    exact absurd (map_eq_error_iff.1 (Node.gives_plain_iff.1 hgives).symm) string_ne_unmatched
  | simple a t s =>
    rw [Part.compile] at hcompile
    split at hcompile
    next => cases hcompile
    next =>
      cases hcompile
      obtain ⟨v, hv, he⟩ := exists_value_of_typed (Node.gives_simple_iff.1 hgives).symm
      exact .formatter hv he
  | select a bs =>
    obtain ⟨entries, hentries, rfl⟩ := Part.compile_select_eq_ok hcompile
    cases hgives with
    | selectFault he => exact absurd he string_ne_unmatched
    | unmatched hvalue hnone =>
      have hkeys := keys_compileSelect hentries
      have hother : value ∉ bs.map (·.1) := by
        intro hkey
        rw [← hkeys] at hkey
        obtain ⟨entry, hentry, hkey⟩ := List.mem_map.1 hkey
        exact lookup_eq_none_iff_forall_ne.1 hnone entry hentry hkey
      have hbest := best_suggest value (bs.map (·.1))
      have hascending : (bs.map (·.1)).Pairwise (· < ·) := List.pairwise_map.2 hp.1
      rw [hkeys]
      exact .select (Arguments.string_eq_ok_iff.1 hvalue) hother hbest hbest.not_mem
        (hbest.pairwise hascending)
  | plural a o offset bs =>
    obtain ⟨entries, other, -, -, rfl⟩ := Part.compile_plural_eq_ok hcompile
    cases hgives with
    | pluralFault he => exact absurd he integer_ne_unmatched
    | overflow _ _ he => exact absurd he operand_ne_unmatched
  | marker =>
    cases binding? with
    | none => cases hcompile
    | some b =>
      cases hcompile
      exact absurd (map_eq_error_iff.1 (Node.gives_marker_iff.1 hgives).symm) marker_ne_unmatched

theorem unmatched_of_yields (hm : Message.Ordered m) {limit : Nat} {root : Block}
    (hroot : Message.compileParts limit none 0 m = .ok root) {log : Log}
    (h : (Block.run c root "").Yields log (.error (.unmatched name value suggestions))) :
    m.Unmatched c limit root log name value suggestions := by
  obtain ⟨visits, v, site, p, hvisits, hv, he, hp, -, hcompile⟩ :=
    exists_visit_of_yields_error hroot h
  have hgives := (hvisits.sound nofun v hv).gives
  rw [he] at hgives
  exact .mk hvisits hv he hp hcompile (unmatched_of_gives (hp.ordered hm) hcompile hgives)

/-- **Suggestions are the best there are.** Distances are least numbers of edits, what is
suggested is the first three of the ranking of all that is near and nothing else, and a value
that a select has no branch for is reported with the best of the keys of that select, however
what is asked in the run is answered. -/
theorem suggestions_best :
    (∀ a b : String, IsLeast {n | Edits n a.toList b.toList} (editDistance a b)) ∧
    (∀ word candidates chosen,
      Best word candidates chosen ↔ chosen = suggest word candidates) ∧
    ∀ {limits : Limits} {locale : Locale} {m : Message} {compiled : CompiledMessage},
      Message.Ordered m → m.compileFor limits locale = .ok compiled →
      ∀ (args : Arguments) (formatter : Formatter) (name value : String)
        (suggestions : List String),
        (∀ log, (compiled.run args formatter).Yields log
            (.error (.unmatched name value suggestions)) →
          m.Unmatched ⟨locale, args, formatter⟩ limits.maxDepth compiled.root log
            name value suggestions) ∧
        ∀ resolve, compiled.formatWith args resolve formatter =
            .error (.unmatched name value suggestions) →
          m.Unmatched ⟨locale, args, formatter⟩ limits.maxDepth compiled.root
            (((compiled.run args formatter).questions resolve).map fun q => (q, resolve q))
            name value suggestions := by
  refine ⟨isLeast_editDistance, fun _ _ _ => best_iff, ?_⟩
  intro limits locale m compiled hm h args formatter name value suggestions
  obtain ⟨root, hroot, rfl⟩ := Message.compileFor_eq_ok h
  refine ⟨fun log hyields => unmatched_of_yields hm hroot hyields, fun resolve herror => ?_⟩
  exact unmatched_of_yields hm hroot (Run.yields_map_iff.2 ⟨herror, rfl⟩)

/-- Of four keys, three of them as near as each other, the far one is left out. -/
theorem suggestions_best_tied :
    Message.Unmatched
      ⟨⟨⟨"en", none, none, []⟩, [], [], [], []⟩, .ofList [("g", .string "b")], .plain⟩ 64
      [.select "g" [("a", []), ("bb", []), ("c", []), ("xyz", [])]]
      [.select "g" [("a", []), ("bb", []), ("c", []), ("xyz", [])]] [] "g" "b"
      ["a", "bb", "c"] := by
  have hordered : Message.Ordered [.select "g" [("a", []), ("bb", []), ("c", []), ("xyz", [])]] :=
    ⟨⟨by decide, trivial, trivial, trivial, trivial, trivial⟩, trivial⟩
  have hcompile : Message.compileFor .standard ⟨⟨"en", none, none, []⟩, [], [], [], []⟩
      [.select "g" [("a", []), ("bb", []), ("c", []), ("xyz", [])]] = .ok _ := rfl
  exact (suggestions_best.2.2 hordered hcompile (.ofList [("g", .string "b")]) .plain _ _ _).2
    (fun _ => .other) (by decide)

end MessagePattern
