import MessagePattern.Proofs.Compilation

/-! Which messages compile.

A message is valid when every part of it makes sense where it stands (`Message.Valid`). All
that is wrong with a message can be listed in document order (`Message.violations`): parts
from left to right, branches as they stand in their argument, of a plural first that it has
no branch for all other numbers, of a branch its key, then its depth, then what is in it.

`mem_violations_iff` says that the list is complete and holds nothing else, `compileFor_reports`
that compilation fails with the first entry and succeeds when there is none, which is when
the message is valid. -/
namespace MessagePattern

open Plural (Category)

variable {limit : Nat} {site : Site}

/-! ### Valid messages -/

/-- The message makes sense, and its branches nest at most `limit` deep. -/
structure Message.Valid (limit : Nat) (m : Message) : Prop where
  /-- Whatever is typed has a type and a style. -/
  shaped : ∀ site a t s, Message.Stands .root m site (.simple a t s) →
    t ≠ .invalid ∧ s ≠ .invalid
  /-- Every plural has a branch for all numbers that its other branches leave. -/
  other : ∀ site a o offset bs, Message.Stands .root m site (.plural a o offset bs) →
    Category.other.keyword ∈ bs.map (·.1)
  /-- Every key of a plural selects something. -/
  keys : ∀ site a o offset bs, Message.Stands .root m site (.plural a o offset bs) →
    ∀ b ∈ bs, IsPluralKey b.1
  /-- Every marker stands directly in a branch of a plural. -/
  bound : ∀ site, Message.Stands .root m site .marker → site.inPlural = true
  depth : Message.depth m ≤ limit

/-! ### Violations -/

/-- What is wrong with the part itself, its branches counted but not what is in them. -/
inductive Part.Violates (limit : Nat) (site : Site) : Part → CompileError → Prop where
  | shape {a t s} : t = .invalid ∨ s = .invalid →
      Part.Violates limit site (.simple a t s) (.invalidShape a)
  | other {a o offset bs} : Category.other.keyword ∉ bs.map (·.1) →
      Part.Violates limit site (.plural a o offset bs) (.missingOther a)
  | key {a o offset bs b} : b ∈ bs → ¬ IsPluralKey b.1 →
      Part.Violates limit site (.plural a o offset bs) (.ofKey a b.1)
  | depth {p binding? branch} : Part.HasBranch p binding? branch → limit ≤ site.depth →
      Part.Violates limit site p (.tooDeep limit)
  | stray : site.inPlural = false → Part.Violates limit site .marker .strayMarker

/-- What is wrong with the branches of a plural as a whole. -/
def otherViolations (argument : String) (bs : Branches) : List CompileError :=
  if Category.other.keyword ∈ bs.map (·.1) then [] else [.missingOther argument]

/-- What is wrong with the key of a branch, if the argument is a plural. -/
def keyViolations (plural? : Option Binding) (key : String) : List CompileError :=
  match plural? with
  | none => []
  | some b => if IsPluralKey key then [] else [.ofKey b.argument key]

/-- What is wrong with a branch of a part at `site`, seen from outside. -/
def depthViolations (limit : Nat) (site : Site) : List CompileError :=
  if site.depth < limit then [] else [.tooDeep limit]

mutual

/-- All that is wrong with a part that stands at `site`. -/
def Part.violations (limit : Nat) (site : Site) : Part → List CompileError
  | .text _ | .plain _ => []
  | .simple a t s => if t = .invalid ∨ s = .invalid then [.invalidShape a] else []
  | .select _ bs => Branches.violations limit site none bs
  | .plural a _ offset bs =>
    otherViolations a bs ++ Branches.violations limit site (some ⟨a, offset⟩) bs
  | .marker => if site.inPlural then [] else [.strayMarker]

/-- All that is wrong with a message at `site`, from left to right. -/
def Message.violations (limit : Nat) (site : Site) : List Part → List CompileError
  | [] => []
  | p :: ps => p.violations limit site ++ Message.violations limit site ps

/-- All that is wrong with the branches of a part at `site`, one branch after the other. -/
def Branches.violations (limit : Nat) (site : Site) (plural? : Option Binding) :
    List (String × List Part) → List CompileError
  | [] => []
  | (k, m) :: bs =>
    keyViolations plural? k ++ depthViolations limit site ++
      Message.violations limit (site.inside plural?) m ++
      Branches.violations limit site plural? bs

end

/-! ### The list of violations is complete -/

theorem mem_otherViolations_iff {a : String} {bs : Branches} {e : CompileError} :
    e ∈ otherViolations a bs ↔
      Category.other.keyword ∉ bs.map (·.1) ∧ e = .missingOther a := by
  unfold otherViolations
  by_cases h : Category.other.keyword ∈ bs.map (·.1)
  · rw [if_pos h]
    exact iff_of_false List.not_mem_nil fun hnone => hnone.1 h
  · rw [if_neg h, List.mem_singleton]
    exact (and_iff_right h).symm

theorem mem_keyViolations_iff {b : Binding} {key : String} {e : CompileError} :
    e ∈ keyViolations (some b) key ↔ ¬ IsPluralKey key ∧ e = .ofKey b.argument key := by
  unfold keyViolations
  by_cases h : IsPluralKey key <;> simp [h]

theorem mem_depthViolations_iff {e : CompileError} :
    e ∈ depthViolations limit site ↔ limit ≤ site.depth ∧ e = .tooDeep limit := by
  unfold depthViolations
  by_cases h : site.depth < limit
  · simp [h, Nat.not_le.2 h]
  · simp [h, Nat.le_of_not_lt h]

theorem Branches.mem_violations_iff {plural? : Option Binding} {bs : Branches} {e : CompileError} :
    e ∈ Branches.violations limit site plural? bs ↔ ∃ b ∈ bs, e ∈ keyViolations plural? b.1 ∨
      e ∈ depthViolations limit site ∨ e ∈ Message.violations limit (site.inside plural?) b.2 := by
  induction bs with
  | nil => simp [Branches.violations]
  | cons b bs ih =>
    obtain ⟨k, m⟩ := b
    rw [Branches.violations, List.mem_append, List.mem_append, List.mem_append, ih]
    simp only [List.mem_cons, exists_eq_or_imp, or_assoc]

/-- A part without branches has only violations of its own. -/
theorem Part.mem_violations_of_leaf {p : Part} {e : CompileError}
    (hleaf : ∀ binding? m, ¬ p.HasBranch binding? m)
    (h : e ∈ p.violations limit site ↔ p.Violates limit site e) :
    e ∈ p.violations limit site ↔ p.Violates limit site e ∨ ∃ binding? branch,
      p.HasBranch binding? branch ∧
        e ∈ Message.violations limit (site.inside binding?) branch := by
  rw [h]
  apply Iff.intro
  · exact .inl
  · intro h
    rcases h with h | ⟨binding?, branch, hb, -⟩
    · exact h
    · exact absurd hb (hleaf binding? branch)

/-- What is wrong with a part is wrong with the part itself or inside one of its branches. -/
theorem Part.mem_violations_iff {p : Part} {e : CompileError} :
    e ∈ p.violations limit site ↔ p.Violates limit site e ∨ ∃ binding? branch,
      p.HasBranch binding? branch ∧
        e ∈ Message.violations limit (site.inside binding?) branch := by
  cases p with
  | text value =>
    refine Part.mem_violations_of_leaf nofun ⟨nofun, fun h => ?_⟩
    cases h with
    | depth hb => cases hb
  | plain a =>
    refine Part.mem_violations_of_leaf nofun ⟨nofun, fun h => ?_⟩
    cases h with
    | depth hb => cases hb
  | simple a t s =>
    refine Part.mem_violations_of_leaf nofun ?_
    rw [Part.violations]
    apply Iff.intro
    · intro h
      split at h
      next hshape =>
        rw [List.mem_singleton.1 h]
        exact .shape hshape
      next => cases h
    · intro h
      cases h with
      | shape hshape => simp [hshape]
      | depth hb => cases hb
  | select a bs =>
    rw [Part.violations, Branches.mem_violations_iff]
    apply Iff.intro
    · intro h
      obtain ⟨b, hb, hkey | hdepth | hinside⟩ := h
      · cases hkey
      · obtain ⟨hlimit, rfl⟩ := mem_depthViolations_iff.1 hdepth
        exact .inl (.depth (.select hb) hlimit)
      · exact .inr ⟨none, b.2, .select hb, hinside⟩
    · intro h
      rcases h with hself | ⟨_, _, hb, hinside⟩
      · cases hself with
        | depth hb hlimit =>
          cases hb with
          | select hb => exact ⟨_, hb, .inr (.inl (mem_depthViolations_iff.2 ⟨hlimit, rfl⟩))⟩
      · cases hb with
        | select hb => exact ⟨_, hb, .inr (.inr hinside)⟩
  | plural a o offset bs =>
    rw [Part.violations, List.mem_append, mem_otherViolations_iff, Branches.mem_violations_iff]
    apply Iff.intro
    · intro h
      rcases h with ⟨hnone, rfl⟩ | ⟨b, hb, hkey | hdepth | hinside⟩
      · exact .inl (.other hnone)
      · obtain ⟨hunread, rfl⟩ := mem_keyViolations_iff.1 hkey
        exact .inl (.key hb hunread)
      · obtain ⟨hlimit, rfl⟩ := mem_depthViolations_iff.1 hdepth
        exact .inl (.depth (.plural hb) hlimit)
      · exact .inr ⟨some ⟨a, offset⟩, b.2, .plural hb, hinside⟩
    · intro h
      rcases h with hself | ⟨_, _, hb, hinside⟩
      · cases hself with
        | other hnone => exact .inl ⟨hnone, rfl⟩
        | key hb hkey => exact .inr ⟨_, hb, .inl (mem_keyViolations_iff.2 ⟨hkey, rfl⟩)⟩
        | depth hb hlimit =>
          cases hb with
          | plural hb =>
            exact .inr ⟨_, hb, .inr (.inl (mem_depthViolations_iff.2 ⟨hlimit, rfl⟩))⟩
      · cases hb with
        | plural hb => exact .inr ⟨_, hb, .inr (.inr hinside)⟩
  | marker =>
    refine Part.mem_violations_of_leaf nofun ?_
    rw [Part.violations]
    apply Iff.intro
    · intro h
      split at h
      next => cases h
      next hstray =>
        rw [List.mem_singleton.1 h]
        exact .stray (Bool.not_eq_true _ ▸ hstray)
    · intro h
      cases h with
      | stray hstray => simp [hstray]
      | depth hb => cases hb

/-- **The violations of a message are those of its parts**, each where it stands. -/
theorem Message.mem_violations_iff {m : Message} {e : CompileError} :
    e ∈ Message.violations limit site m ↔
      ∃ site' p, Message.Stands site m site' p ∧ p.Violates limit site' e := by
  induction m using Message.branch_induction generalizing site with
  | nil =>
    refine iff_of_false List.not_mem_nil fun h => ?_
    obtain ⟨_, _, hp, -⟩ := h
    exact Message.not_stands_nil hp
  | cons p ps ihb ih =>
    rw [Message.violations, List.mem_append, Part.mem_violations_iff, ih]
    apply Iff.intro
    · intro h
      rcases h with (hself | ⟨binding?, branch, hb, hinside⟩) | ⟨site', q, hq, hviolates⟩
      · exact ⟨site, p, .here List.mem_cons_self, hself⟩
      · obtain ⟨site', q, hq, hviolates⟩ := (ihb _ _ hb).1 hinside
        exact ⟨site', q, .inside List.mem_cons_self hb hq, hviolates⟩
      · exact ⟨site', q, Message.stands_cons_iff.2 (.inr (.inr hq)), hviolates⟩
    · intro h
      obtain ⟨site', q, hq, hviolates⟩ := h
      rcases Message.stands_cons_iff.1 hq with ⟨rfl, rfl⟩ | ⟨binding?, branch, hb, hq⟩ | hq
      · exact .inl (.inl hviolates)
      · exact .inl (.inr ⟨binding?, branch, hb, (ihb _ _ hb).2 ⟨site', q, hq, hviolates⟩⟩)
      · exact .inr ⟨site', q, hq, hviolates⟩

/-! ### Compilation stops at the first violation -/

section
variable {α β : Type} {x : Except CompileError α} {es es' : List CompileError}

/-- The outcome is the first of the listed errors, or none of them as there are none. -/
def Reports (x : Except CompileError α) (es : List CompileError) : Prop :=
  ∀ e, x = .error e ↔ es.head? = some e

theorem reports_ok (a : α) : Reports (.ok a) [] := by
  intro e
  simp

theorem reports_error (e : CompileError) (es : List CompileError) :
    Reports (.error e : Except CompileError α) (e :: es) := by
  intro e'
  simp

theorem Reports.exists_ok_iff (h : Reports x es) : (∃ a, x = .ok a) ↔ es = [] := by
  cases x with
  | error e =>
    have hhead := (h e).1 rfl
    refine iff_of_false nofun fun hnil => ?_
    rw [hnil] at hhead
    cases hhead
  | ok a =>
    refine iff_of_true ⟨a, rfl⟩ (List.head?_eq_none_iff.1 ?_)
    rw [Option.eq_none_iff_forall_ne_some]
    exact fun e he => nomatch (h e).2 he

/-- One compilation behind another: the first error of either ends both. -/
theorem Reports.append {y : Except CompileError β} (hx : Reports x es)
    (herror : ∀ e, x = .error e → y = .error e) (hok : ∀ a, x = .ok a → Reports y es') :
    Reports y (es ++ es') := by
  cases x with
  | error e =>
    obtain ⟨rest, rfl⟩ := List.head?_eq_some_iff.1 ((hx e).1 rfl)
    rw [herror e rfl]
    exact reports_error e (rest ++ es')
  | ok a =>
    obtain rfl := hx.exists_ok_iff.1 ⟨a, rfl⟩
    exact hok a rfl

/-- What is made of a result leaves the report as it is. -/
theorem Reports.last {y : Except CompileError β} (hx : Reports x es)
    (herror : ∀ e, x = .error e → y = .error e) (hok : ∀ a, x = .ok a → ∃ b, y = .ok b) :
    Reports y es := by
  rw [← List.append_nil es]
  refine hx.append herror fun a ha => ?_
  obtain ⟨b, rfl⟩ := hok a ha
  exact reports_ok b

end

/-- The depth of a branch is looked at before what is in it. -/
theorem reports_depth {α : Type} {x : Except CompileError α} {es : List CompileError}
    (h : Reports x es) : Reports (if limit ≤ site.depth then .error (.tooDeep limit) else x)
      (depthViolations limit site ++ es) := by
  unfold depthViolations
  by_cases hd : limit ≤ site.depth
  · rw [if_pos hd, if_neg (Nat.not_lt.2 hd)]
    exact reports_error _ _
  · rw [if_neg hd, if_pos (Nat.lt_of_not_le hd)]
    exact h

/-- Compiling the message reports its violations in order, wherever it stands. -/
def Message.Reported (limit : Nat) (m : Message) : Prop :=
  ∀ site : Site, Reports (Message.compileParts limit site.binding? site.depth m)
    (Message.violations limit site m)

theorem reports_compileSelect {bs : Branches} (hbs : ∀ b ∈ bs, Message.Reported limit b.2) :
    Reports (Branches.compileSelect limit site.depth bs)
      (Branches.violations limit site none bs) := by
  induction bs with
  | nil => exact reports_ok []
  | cons b bs ih =>
    obtain ⟨k, m⟩ := b
    obtain ⟨hm, hbs⟩ := List.forall_mem_cons.1 hbs
    rw [Branches.compileSelect, Branches.violations, List.append_assoc, List.append_assoc]
    have hm : Reports (Message.compileParts limit none (site.depth + 1) m) _ :=
      hm (site.inside none)
    refine reports_depth (hm.append (fun e he => by rw [he]) fun block hblock => ?_)
    rw [hblock]
    exact (ih hbs).last (fun e he => by rw [he]) (fun rest hrest => ⟨_, by rw [hrest]⟩)

theorem reports_compilePlural {b : Binding} {bs : Branches}
    (hbs : ∀ b ∈ bs, Message.Reported limit b.2) :
    Reports (Branches.compilePlural limit b site.depth bs)
      (Branches.violations limit site (some b) bs) := by
  induction bs with
  | nil => exact reports_ok []
  | cons e bs ih =>
    obtain ⟨k, m⟩ := e
    obtain ⟨hm, hbs⟩ := List.forall_mem_cons.1 hbs
    have hkey := @PluralKey.isSome_ofString?_iff k
    -- Key, depth, contents, other branches: each step stops where the list would go on.
    rw [Branches.compilePlural, Branches.violations, keyViolations, List.append_assoc,
      List.append_assoc]
    split
    next hnone =>
      rw [hnone] at hkey
      rw [if_neg fun h => Bool.false_ne_true (hkey.2 h)]
      exact reports_error _ _
    next key hsome =>
      rw [if_pos (hkey.1 (by rw [hsome]; rfl))]
      have hm : Reports (Message.compileParts limit (some b) (site.depth + 1) m) _ :=
        hm (site.inside (some b))
      refine reports_depth (hm.append (fun e he => by rw [he]) fun block hblock => ?_)
      rw [hblock]
      exact (ih hbs).last (fun e he => by rw [he]) (fun rest hrest => ⟨_, by rw [hrest]⟩)

theorem isSome_lookup_pushUnlessGiven {key sought : PluralKey} {block : Block}
    {entries : List (PluralKey × Block)}
    (h : sought = key ∨ (entries.lookup sought).isSome = true) :
    ((pushUnlessGiven key block entries).lookup sought).isSome = true := by
  unfold pushUnlessGiven
  by_cases hgiven : (entries.lookup key).isSome = true
  · rw [if_pos hgiven]
    rcases h with rfl | h
    · exact hgiven
    · exact h
  · rw [if_neg hgiven, List.lookup_cons]
    rcases h with rfl | h
    · simp
    · cases sought == key
      · exact h
      · rfl

/-- Every branch of a plural that compiles has an entry under what its key is read as. -/
theorem isSome_lookup_compilePlural {depth : Nat} {b : Binding} {bs : Branches}
    {entries : List (PluralKey × Block)}
    (h : Branches.compilePlural limit b depth bs = .ok entries) {e : String × Message}
    (he : e ∈ bs) {key : PluralKey} (hkey : PluralKey.ofString? e.1 = some key) :
    (entries.lookup key).isSome = true := by
  induction bs generalizing entries with
  | nil => cases he
  | cons first bs ih =>
    obtain ⟨key', block, rest, hkey', -, hrest, rfl⟩ := Branches.compilePlural_cons_eq_ok h
    refine isSome_lookup_pushUnlessGiven ?_
    rcases List.mem_cons.1 he with rfl | he
    · exact .inl (Option.some.inj (hkey.symm.trans hkey'))
    · exact .inr (ih hrest he)

theorem reports_compile {p : Part}
    (hp : ∀ binding? m, p.HasBranch binding? m → Message.Reported limit m) :
    Reports (p.compile limit site.binding? site.depth) (p.violations limit site) := by
  cases p with
  | text value => exact reports_ok _
  | plain a => exact reports_ok _
  | simple a t s =>
    rw [Part.compile, Part.violations]
    split
    next => exact reports_error _ _
    next => exact reports_ok _
  | select a bs =>
    rw [Part.compile, Part.violations]
    exact (reports_compileSelect fun b hb => hp none b.2 (.select hb)).last
      (fun e he => by rw [he]) (fun entries hentries => ⟨_, by rw [hentries]⟩)
  | plural a o offset bs =>
    have hbs : Reports (Branches.compilePlural limit ⟨a, offset⟩ site.depth bs) _ :=
      reports_compilePlural fun b hb => hp (some ⟨a, offset⟩) b.2 (.plural hb)
    rw [Part.compile, Part.violations, otherViolations]
    by_cases hother : Category.other.keyword ∈ bs.map (·.1)
    · obtain ⟨e, he, hkey⟩ := List.mem_map.1 hother
      have hlookup : (bs.lookup Category.other.keyword).isSome = true :=
        List.lookup_isSome_iff.2 ⟨e, he, beq_iff_eq.2 hkey.symm⟩
      rw [if_pos hother, if_neg (by simpa using hlookup), List.nil_append]
      refine hbs.last (fun e he => by rw [he]) fun entries hentries => ?_
      have hgiven := isSome_lookup_compilePlural hentries he
        (PluralKey.ofString?_eq_category_iff.2 hkey)
      obtain ⟨other, hfound⟩ := Option.isSome_iff_exists.1 hgiven
      rw [hentries]
      exact ⟨_, by simp only [Node.ofEntries, otherKey, hfound]; rfl⟩
    · have hlookup : bs.lookup Category.other.keyword = none :=
        lookup_eq_none_iff_forall_ne.2 fun b hb hkey => hother (List.mem_map.2 ⟨b, hb, hkey⟩)
      rw [if_neg hother, if_pos (by rw [hlookup]; rfl)]
      exact reports_error _ _
  | marker =>
    obtain ⟨binding?, depth⟩ := site
    cases binding? with
    | none => exact reports_error _ _
    | some b => exact reports_ok _

theorem reported (limit : Nat) (m : Message) : Message.Reported limit m := by
  induction m using Message.branch_induction with
  | nil => exact fun site => reports_ok []
  | cons p ps ihb ih =>
    intro site
    rw [Message.compileParts, Message.violations]
    refine (reports_compile ihb).append (fun e he => by rw [he]) fun node hnode => ?_
    rw [hnode]
    exact (ih site).last (fun e he => by rw [he]) (fun block hblock => ⟨_, by rw [hblock]⟩)

theorem reports_compileFor (limits : Limits) (locale : Locale) (m : Message) :
    Reports (m.compileFor limits locale) (Message.violations limits.maxDepth .root m) := by
  have hroot : Reports (Message.compileParts limits.maxDepth none 0 m) _ :=
    reported limits.maxDepth m .root
  rw [Message.compileFor]
  exact hroot.last (fun e he => by rw [he]) (fun block hblock => ⟨_, by rw [hblock]⟩)

/-! ### Valid messages have no violation -/

theorem Message.violations_eq_nil_iff {m : Message} :
    Message.violations limit site m = [] ↔
      ∀ site' p e, Message.Stands site m site' p → ¬ p.Violates limit site' e := by
  rw [List.eq_nil_iff_forall_not_mem]
  simp only [Message.mem_violations_iff]
  exact ⟨fun h site' p e hp hv => h e ⟨site', p, hp, hv⟩,
    fun h e ⟨site', p, hp, hv⟩ => h site' p e hp hv⟩

/-- No branch of the message stands too deep. -/
theorem Message.depth_le_iff {m : Message} :
    Message.depth m ≤ limit ↔ ∀ site p binding? branch,
      Message.Stands .root m site p → p.HasBranch binding? branch → site.depth < limit := by
  have hroot : Site.root.depth + Message.depth m ≤ limit ↔ _ :=
    Message.add_depth_le_iff (Nat.zero_le limit)
  rw [← hroot, Site.root, Nat.zero_add]

theorem Message.valid_iff {m : Message} :
    m.Valid limit ↔ Message.violations limit .root m = [] := by
  rw [Message.violations_eq_nil_iff]
  apply Iff.intro
  · intro h site p e hp hv
    cases hv with
    | shape hshape =>
      obtain ⟨ht, hs⟩ := h.shaped _ _ _ _ hp
      exact hshape.elim ht hs
    | other hnone => exact hnone (h.other _ _ _ _ _ hp)
    | key hb hkey => exact hkey (h.keys _ _ _ _ _ hp _ hb)
    | depth hb hlimit =>
      exact absurd (Message.depth_le_iff.1 h.depth _ _ _ _ hp hb) (Nat.not_lt.2 hlimit)
    | stray hstray => exact absurd (h.bound _ hp) (by rw [hstray]; exact Bool.false_ne_true)
  · intro h
    refine ⟨fun site a t s hp => ?_, fun site a o offset bs hp => ?_,
      fun site a o offset bs hp b hb => ?_, fun site hp => ?_,
      Message.depth_le_iff.2 fun site p binding? branch hp hb => ?_⟩
    · exact not_or.1 fun hshape => h _ _ _ hp (.shape hshape)
    · exact Decidable.not_not.1 fun hnone => h _ _ _ hp (.other hnone)
    · exact Decidable.not_not.1 fun hkey => h _ _ _ hp (.key hb hkey)
    · exact Bool.of_not_eq_false fun hstray => h _ _ _ hp (.stray hstray)
    · exact Nat.lt_of_not_le fun hlimit => h _ _ _ hp (.depth hb hlimit)

/-- **A message compiles exactly when it is valid, and otherwise the error is the first of
its violations** in document order, among all that its parts have where they stand. -/
theorem compileFor_reports (limits : Limits) (locale : Locale) (m : Message) :
    ((∃ compiled, m.compileFor limits locale = .ok compiled) ↔ m.Valid limits.maxDepth) ∧
      (∀ e, m.compileFor limits locale = .error e ↔
        (Message.violations limits.maxDepth .root m).head? = some e) ∧
      ∀ e, e ∈ Message.violations limits.maxDepth .root m ↔
        ∃ site p, Message.Stands .root m site p ∧ p.Violates limits.maxDepth site e := by
  have h := reports_compileFor limits locale m
  exact ⟨h.exists_ok_iff.trans Message.valid_iff.symm, h, fun e => Message.mem_violations_iff⟩

/-- Everything is wrong here, from the plural as a whole to the marker behind it. -/
example : Message.violations 1 .root [.plural "n" false 0 [("few", [.simple "x" .invalid .default]),
      ("lots", [.select "g" [("a", [.marker])]])], .marker] =
    [.missingOther "n", .invalidShape "x", .ofKey "n" "lots", .tooDeep 1, .strayMarker,
      .strayMarker] := by decide

end MessagePattern
