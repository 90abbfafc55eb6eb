import MessagePattern.Proofs.Completeness

/-! The braces that open branches.

A derivation of a message passes the braces in front of its branches, each at a level of
nesting. `OpensMessage` is the grammar of `ReadsMessage` with these braces listed in the
order in which they are passed, which is that of the pattern (`OpensMessage.ranged`). A
message is as deep as the deepest of them (`OpensMessage.depth_le_iff`).

Where the message is too deep for the limit, reading it is cut off at the first brace that
is (`OpensMessage.cutsOff`). -/
namespace MessagePattern.Pattern

open Lexis Integer

/-- A brace in front of a branch: the level of the branch, which is one for the branches of
a message's own arguments, and what stands behind the brace. -/
structure Opening where
  level : Nat
  behind : List Char

/-- The same brace, seen from the message around the branch in which it stands. -/
def Opening.inside (o : Opening) : Opening := ⟨o.level + 1, o.behind⟩

/-! ### Derivations and their braces -/

mutual

/-- `ReadsMessage` with the braces that are passed. -/
inductive OpensMessage : (nested inPlural : Bool) → List Char → List Part → List Char →
    List Opening → Prop where
  | nil {nested inPlural cs} : OpensMessage nested inPlural cs [] cs []
  | text {nested inPlural cs t cs' m rest os} : ReadsText nested inPlural cs t cs' → t ≠ [] →
      OpensMessage nested inPlural cs' m rest os →
      OpensMessage nested inPlural cs (.text (String.ofList t) :: m) rest os
  | argument {nested inPlural cs part cs' m rest os os'} : OpensArgument cs part cs' os →
      OpensMessage nested inPlural cs' m rest os' →
      OpensMessage nested inPlural cs (part :: m) rest (os ++ os')
  | marker {nested cs m rest os} : OpensMessage nested true cs m rest os →
      OpensMessage nested true ('#' :: cs) (.marker :: m) rest os

/-- `ReadsArgument` with the braces that are passed; the brace of the argument itself is
none of them. -/
inductive OpensArgument : List Char → Part → List Char → List Opening → Prop where
  | leaf {cs part rest} : ReadsArgument cs part rest → part.branches? = none →
      OpensArgument cs part rest []
  | select {a given bs cs cs₁ cs₂ rest os} : IsArgumentName a.toList →
      ReadsSpaced a.toList cs (',' :: cs₁) → ReadsSpaced selectWord.toList cs₁ (',' :: cs₂) →
      OpensBranches false cs₂ given rest os → given ≠ [] → Ascending bs → bs.Perm given →
      OpensArgument ('{' :: cs) (.select a bs) rest os
  | plural {a o n given bs cs cs₁ cs₂ cs₃ rest os} : IsArgumentName a.toList →
      ReadsSpaced a.toList cs (',' :: cs₁) →
      ReadsSpaced (pluralKeyword o).toList cs₁ (',' :: cs₂) → ReadsOffset cs₂ n cs₃ →
      OpensBranches true cs₃ given rest os → given ≠ [] → Ascending bs → bs.Perm given →
      OpensArgument ('{' :: cs) (.plural a o n bs) rest os

/-- `ReadsBranches` with the braces that are passed. -/
inductive OpensBranches : (inPlural : Bool) → List Char → List (String × List Part) →
    List Char → List Opening → Prop where
  | close {inPlural w rest} : IsBlank w → OpensBranches inPlural (w ++ '}' :: rest) [] rest []
  | branch {inPlural key k cs cs₁ m cs₂ bs rest os os'} : ReadsKey inPlural key k →
      ReadsSpaced key cs ('{' :: cs₁) → OpensMessage true inPlural cs₁ m ('}' :: cs₂) os →
      OpensBranches inPlural cs₂ bs rest os' →
      OpensBranches inPlural cs ((k, m) :: bs) rest (⟨1, cs₁⟩ :: (os.map .inside ++ os'))

end

mutual

/-- What passes braces is a derivation. -/
theorem OpensMessage.reads : ∀ {nested inPlural cs m rest os},
    OpensMessage nested inPlural cs m rest os → ReadsMessage nested inPlural cs m rest
  | _, _, _, _, _, _, .nil => .nil
  | _, _, _, _, _, _, .text ht hne h => .text ht hne h.reads
  | _, _, _, _, _, _, .argument ha h => .argument ha.reads h.reads
  | _, _, _, _, _, _, .marker h => .marker h.reads

theorem OpensArgument.reads : ∀ {cs part rest os},
    OpensArgument cs part rest os → ReadsArgument cs part rest
  | _, _, _, _, .leaf ha _ => ha
  | _, _, _, _, .select ha hs hs' h hne hbs hperm => .select ha hs hs' h.reads hne hbs hperm
  | _, _, _, _, .plural ha hs hs' ho h hne hbs hperm => .plural ha hs hs' ho h.reads hne hbs hperm

theorem OpensBranches.reads : ∀ {inPlural cs given rest os},
    OpensBranches inPlural cs given rest os → ReadsBranches inPlural cs given rest
  | _, _, _, _, _, .close hw => .close hw
  | _, _, _, _, _, .branch hk hs hm h => .branch hk hs hm.reads h.reads

end

mutual

/-- Every derivation passes some braces. -/
theorem ReadsMessage.exists_opens : ∀ {nested inPlural cs m rest},
    ReadsMessage nested inPlural cs m rest → ∃ os, OpensMessage nested inPlural cs m rest os
  | _, _, _, _, _, .nil => ⟨[], .nil⟩
  | _, _, _, _, _, .text ht hne h => h.exists_opens.imp fun _ h => .text ht hne h
  | _, _, _, _, _, .argument ha h =>
    let ⟨os, ha⟩ := ha.exists_opens
    let ⟨os', h⟩ := h.exists_opens
    ⟨os ++ os', .argument ha h⟩
  | _, _, _, _, _, .marker h => h.exists_opens.imp fun _ h => .marker h

theorem ReadsArgument.exists_opens : ∀ {cs part rest},
    ReadsArgument cs part rest → ∃ os, OpensArgument cs part rest os
  | _, _, _, .plain ha hs => ⟨[], .leaf (.plain ha hs) rfl⟩
  | _, _, _, .simple ha ht hs hs' hstyle => ⟨[], .leaf (.simple ha ht hs hs' hstyle) rfl⟩
  | _, _, _, .select ha hs hs' h hne hbs hperm =>
    h.exists_opens.imp fun _ h => .select ha hs hs' h hne hbs hperm
  | _, _, _, .plural ha hs hs' ho h hne hbs hperm =>
    h.exists_opens.imp fun _ h => .plural ha hs hs' ho h hne hbs hperm

theorem ReadsBranches.exists_opens : ∀ {inPlural cs given rest},
    ReadsBranches inPlural cs given rest → ∃ os, OpensBranches inPlural cs given rest os
  | _, _, _, _, .close hw => ⟨[], .close hw⟩
  | _, _, _, _, .branch hk hs hm h =>
    let ⟨_, hm⟩ := hm.exists_opens
    let ⟨_, h⟩ := h.exists_opens
    ⟨_, .branch hk hs hm h⟩

end

/-! ### Levels and order -/

theorem Part.depth_of_leaf {part : Part} (h : part.branches? = none) : part.depth = 0 := by
  cases part with
  | select a bs => cases h
  | plural a o n bs => cases h
  | _ => rfl

theorem Branches.depth_le_iff_of_perm {d : Nat} {bs given : Branches} (h : bs.Perm given) :
    Branches.depth bs ≤ d ↔ Branches.depth given ≤ d :=
  ⟨Branches.depth_le_of_perm h.symm, Branches.depth_le_of_perm h⟩

/-- **A message is as deep as the deepest brace in it.** -/
theorem OpensMessage.depth_le_iff {nested inPlural : Bool} {cs rest : List Char} {m : Message}
    {os : List Opening} (h : OpensMessage nested inPlural cs m rest os) {d : Nat} :
    Message.depth m ≤ d ↔ ∀ o ∈ os, o.level ≤ d := by
  induction h using OpensMessage.rec
    (motive_2 := fun _ part _ os _ => ∀ d, part.depth ≤ d ↔ ∀ o ∈ os, o.level ≤ d)
    (motive_3 := fun _ _ given _ os _ => ∀ d, Branches.depth given ≤ d ↔ ∀ o ∈ os, o.level ≤ d)
    generalizing d with
  | nil => simp [Message.depth]
  | text _ _ _ ih => rw [Message.depth, Part.depth, Nat.zero_max, ih]
  | argument _ _ iha ih =>
    rw [Message.depth, Nat.max_le, iha, ih, List.forall_mem_append]
  | marker _ ih => rw [Message.depth, Part.depth, Nat.zero_max, ih]
  | leaf _ hleaf d => simp [Part.depth_of_leaf hleaf]
  | select _ _ _ _ _ _ hperm ih d => rw [Part.depth, Branches.depth_le_iff_of_perm hperm, ih]
  | plural _ _ _ _ _ _ _ hperm ih d => rw [Part.depth, Branches.depth_le_iff_of_perm hperm, ih]
  | close _ d => simp [Branches.depth]
  | branch _ _ _ _ ihm ih d =>
    rw [Branches.depth, Nat.max_le, ih, List.forall_mem_cons, List.forall_mem_append,
      List.forall_mem_map]
    cases d with
    | zero => simp
    | succ d => simp [ihm, Opening.inside]

theorem OpensMessage.add_level_le {nested inPlural : Bool} {cs rest : List Char} {m : Message}
    {os : List Opening} (h : OpensMessage nested inPlural cs m rest os) {n d : Nat}
    (hd : n + Message.depth m ≤ d) : ∀ o ∈ os, n + o.level ≤ d := by
  intro o ho
  have := h.depth_le_iff.1 (Nat.le_sub_of_add_le' hd) o ho
  omega

theorem OpensArgument.add_level_le {cs rest : List Char} {part : Part} {os : List Opening}
    (h : OpensArgument cs part rest os) {n d : Nat} (hd : n + part.depth ≤ d) :
    ∀ o ∈ os, n + o.level ≤ d := by
  have hm : OpensMessage false false cs [part] rest (os ++ []) := .argument h .nil
  rw [List.append_nil] at hm
  refine hm.add_level_le ?_
  rwa [Message.depth, Message.depth, Nat.max_zero]

/-- The braces stand between `cs` and `rest`, each behind the one before. -/
structure Ranged (cs rest : List Char) (os : List Opening) : Prop where
  le : rest.length ≤ cs.length
  upper : ∀ o ∈ os, o.behind.length < cs.length
  lower : ∀ o ∈ os, rest.length ≤ o.behind.length
  pairwise : os.Pairwise fun a b => b.behind.length < a.behind.length

namespace Ranged

variable {cs cs' rest : List Char} {os os' : List Opening}

theorem nil (h : rest.length ≤ cs.length) : Ranged cs rest [] :=
  ⟨h, nofun, nofun, .nil⟩

theorem of_le (h : cs'.length ≤ cs.length) (ho : Ranged cs' rest os) : Ranged cs rest os :=
  ⟨Nat.le_trans ho.le h, fun o hm => Nat.lt_of_lt_of_le (ho.upper o hm) h, ho.lower, ho.pairwise⟩

theorem append (h : Ranged cs cs' os) (h' : Ranged cs' rest os') : Ranged cs rest (os ++ os') := by
  refine ⟨Nat.le_trans h'.le h.le, List.forall_mem_append.2 ⟨h.upper, ?_⟩,
    List.forall_mem_append.2 ⟨?_, h'.lower⟩, List.pairwise_append.2 ⟨h.pairwise, h'.pairwise, ?_⟩⟩
  · exact fun o ho => Nat.lt_of_lt_of_le (h'.upper o ho) h.le
  · exact fun o ho => Nat.le_trans h'.le (h.lower o ho)
  · exact fun a ha b hb => Nat.lt_of_lt_of_le (h'.upper b hb) (h.lower a ha)

theorem cons {level : Nat} (hlt : cs'.length < cs.length) (h : Ranged cs' rest os) :
    Ranged cs rest (⟨level, cs'⟩ :: os) := by
  have ho := h.of_le (Nat.le_of_lt hlt)
  exact ⟨ho.le, List.forall_mem_cons.2 ⟨hlt, ho.upper⟩, List.forall_mem_cons.2 ⟨h.le, h.lower⟩,
    List.pairwise_cons.2 ⟨h.upper, h.pairwise⟩⟩

theorem map_inside (h : Ranged cs rest os) : Ranged cs rest (os.map .inside) :=
  ⟨h.le, List.forall_mem_map.2 h.upper, List.forall_mem_map.2 h.lower,
    List.pairwise_map.2 h.pairwise⟩

end Ranged

/-- **Braces are listed in the order in which they stand.** -/
theorem OpensMessage.ranged {nested inPlural : Bool} {cs rest : List Char} {m : Message}
    {os : List Opening} (h : OpensMessage nested inPlural cs m rest os) : Ranged cs rest os := by
  induction h using OpensMessage.rec
    (motive_2 := fun cs _ rest os _ => Ranged cs rest os)
    (motive_3 := fun _ cs _ rest os _ => Ranged cs rest os) with
  | nil => exact .nil (Nat.le_refl _)
  | text ht _ _ ih => exact ih.of_le (by have := ht.length_le; omega)
  | argument _ _ iha ih => exact iha.append ih
  | marker _ ih => exact ih.of_le (Nat.le_succ _)
  | leaf ha _ => exact .nil (Nat.le_of_lt ha.length_lt)
  | select ha hs hs' _ _ _ _ ih =>
    refine ih.of_le ?_
    have := hs.length_lt ha.word.ne_nil
    have := hs'.length_lt isWord_selectWord.ne_nil
    simp only [List.length_cons] at *
    omega
  | @plural a o _ _ _ _ _ _ _ _ _ ha hs hs' ho _ _ _ _ ih =>
    refine ih.of_le ?_
    have := hs.length_lt ha.word.ne_nil
    have := hs'.length_lt (isWord_pluralKeyword o).ne_nil
    have := ho.length_le
    simp only [List.length_cons] at *
    omega
  | close _ => exact .nil (by simp only [List.length_append, List.length_cons]; omega)
  | branch hk hs _ _ ihm ih =>
    have hlt := hs.length_lt hk.ne_nil
    exact .cons (by simp only [List.length_cons] at hlt; omega)
      (ihm.map_inside.append (ih.of_le (Nat.le_succ _)))

/-! ### Cutting off -/

/-- Reading `cs` at `p` is cut off at the first of the braces whose branch is too deep. -/
def CutsOff (limit : Nat) (p : Position) (s : State) (cs : List Char) (os : List Opening) : Prop :=
  ∃ front o back pre, os = front ++ o :: back ∧ (∀ x ∈ front, s.depth + x.level ≤ limit) ∧
    s.depth + o.level = limit + 1 ∧ cs = pre ++ '{' :: o.behind ∧
    read limit p s cs = .error (.tooDeep limit (p.after pre))

section
variable {limit : Nat} {p : Position} {s t : State} {cs cs' : List Char} {os os' : List Opening}

theorem CutsOff.append (h : CutsOff limit p s cs os) (os' : List Opening) :
    CutsOff limit p s cs (os ++ os') := by
  obtain ⟨front, o, back, pre, rfl, hfront, ho, hcs, hread⟩ := h
  exact ⟨front, o, back ++ os', pre, by simp, hfront, ho, hcs, hread⟩

/-- What is not too deep is passed first. -/
theorem CutsOff.of_leads (h : Leads limit s cs t cs') (hd : t.depth = s.depth)
    (hos : ∀ x ∈ os, s.depth + x.level ≤ limit) (hc : ∀ p, CutsOff limit p t cs' os')
    (p : Position) : CutsOff limit p s cs (os ++ os') := by
  obtain ⟨pre, rfl, hread⟩ := h p
  obtain ⟨front, o, back, pre', rfl, hfront, ho, rfl, hread'⟩ := hc (p.after pre)
  rw [hd] at hfront ho
  refine ⟨os ++ front, o, back, pre ++ pre', by simp, List.forall_mem_append.2 ⟨hos, hfront⟩, ho,
    (List.append_assoc _ _ _).symm, ?_⟩
  rw [hread, hread', Position.after_append]

variable {choice : Choice} {key cs₁ : List Char} {k : String}

/-- The brace of a branch is too deep where all levels are used up. -/
theorem cutsOff_here (hk : ReadsKey choice.selector.isPlural key k)
    (hs : ReadsSpaced key cs ('{' :: cs₁)) (hd : s.depth = limit) (os : List Opening) :
    CutsOff limit p (s.become (.between (.key choice))) cs (⟨1, cs₁⟩ :: os) := by
  obtain ⟨pre, start, rfl, hread⟩ := hk.read limit s hs p
  have hdepth : (s.become (.between (.key choice))).depth = limit := hd
  refine ⟨[], ⟨1, cs₁⟩, os, pre, rfl, nofun, by rw [hdepth], rfl, ?_⟩
  rw [hread, read_mark (by decide) (by decide), State.mark, if_pos rfl, State.openBranch_become,
    State.openBranch, if_pos (Nat.le_of_eq hd.symm)]
  rfl

/-- What is too deep in the message of a branch is so in the message around it. -/
theorem CutsOff.inside (hk : ReadsKey choice.selector.isPlural key k)
    (hs : ReadsSpaced key cs ('{' :: cs₁)) (hd : s.depth < limit)
    (hc : ∀ p start, CutsOff limit p (s.entered choice k start) cs₁ os) :
    CutsOff limit p (s.become (.between (.key choice))) cs (⟨1, cs₁⟩ :: os.map .inside) := by
  obtain ⟨pre, start, rfl, hread⟩ := hk.enters hs hd p
  obtain ⟨front, o, back, pre', rfl, hfront, ho, heq, hread'⟩ := hc (p.after (pre ++ ['{'])) start
  rw [State.depth_entered] at hfront ho
  refine ⟨⟨1, cs₁⟩ :: front.map .inside, o.inside, back.map .inside, pre ++ ['{'] ++ pre',
    by simp, ?_, ?_, by simp [Opening.inside, heq], ?_⟩
  · rw [List.forall_mem_cons, List.forall_mem_map]
    refine ⟨hd, fun x hx => ?_⟩
    have := hfront x hx
    show s.depth + (x.level + 1) ≤ limit
    omega
  · show s.depth + (o.level + 1) = limit + 1
    omega
  · rw [hread, hread', Position.after_append p (pre ++ ['{'])]

end

/-- A message that is read from `cs` where one of its kind may stand is cut off if it is too
deep there. -/
def CutsMessage (limit : Nat) (nested inPlural : Bool) (cs : List Char) (m : Message)
    (os : List Opening) : Prop :=
  ∀ (p : Position) (s : State), s.isNested = nested → s.inPlural = inPlural → s.depth ≤ limit →
    limit < s.depth + Message.depth m → CutsOff limit p (s.become (.text "" .plain)) cs os

def CutsArgument (limit : Nat) (cs : List Char) (part : Part) (os : List Opening) : Prop :=
  ∀ (p : Position) (s : State), s.depth ≤ limit → limit < s.depth + part.depth →
    CutsOff limit p (s.become (.text "" .plain)) cs os

/-- Branches that are read from `cs`, all under keys that are new, are cut off if one of them
is too deep. -/
def CutsBranches (limit : Nat) (inPlural : Bool) (cs : List Char) (given : Branches)
    (os : List Opening) : Prop :=
  ∀ (p : Position) (s : State) (choice : Choice), choice.selector.isPlural = inPlural →
    (choice.branches ++ given).Pairwise (fun a b => a.1 ≠ b.1) → s.depth ≤ limit →
    limit < s.depth + Branches.depth given →
      CutsOff limit p (s.become (.between (.key choice))) cs os

section
variable {limit : Nat} {cs cs' rest : List Char} {os os' : List Opening}

/-- Behind a part that is passed the rest of the message is cut off. -/
theorem CutsMessage.cons {nested inPlural : Bool} {part : Part} {m : Message}
    (hpart : LeadsArgument limit cs part cs')
    (hos : ∀ n, n + part.depth ≤ limit → ∀ o ∈ os, n + o.level ≤ limit)
    (hcut : CutsArgument limit cs part os) (h : CutsMessage limit nested inPlural cs' m os') :
    CutsMessage limit nested inPlural cs (part :: m) (os ++ os') := by
  intro p s hn hp hd hlt
  rw [Message.depth] at hlt
  by_cases hdeep : limit < s.depth + part.depth
  · exact (hcut p s hd hdeep).append os'
  · have hpass : s.depth + part.depth ≤ limit := Nat.le_of_not_lt hdeep
    refine .of_leads (hpart s hpass) rfl (hos s.depth hpass) (fun q => ?_) p
    have hdepth : (s.withPart part).depth = s.depth := rfl
    exact h q (s.withPart part) hn hp hd (by omega)

/-- A select or plural is cut off if one of its branches is. -/
theorem CutsBranches.choice {inPlural : Bool} {given bs : Branches}
    (h : CutsBranches limit inPlural cs given os) (hbs : Ascending bs) (hperm : bs.Perm given)
    {selector : Selector} (hselector : selector.isPlural = inPlural) {s : State} {a : String}
    (hd : s.depth ≤ limit) (hlt : limit < s.depth + Branches.depth bs) (p : Position) :
    CutsOff limit p (s.become (.between (.key ⟨a, selector, []⟩))) cs os := by
  refine h p s ⟨a, selector, []⟩ hselector ?_ hd ?_
  · rw [List.nil_append]
    exact hperm.pairwise hbs.pairwise_ne fun h => h.symm
  · by_contra hle
    have := Branches.depth_le_of_perm hperm (Nat.le_sub_of_add_le' (Nat.le_of_not_lt hle))
    omega

theorem CutsBranches.branch {inPlural : Bool} {key cs₁ cs₂ : List Char} {k : String} {m : Message}
    {given : Branches} (hk : ReadsKey inPlural key k) (hs : ReadsSpaced key cs ('{' :: cs₁))
    (hm : OpensMessage true inPlural cs₁ m ('}' :: cs₂) os)
    (hcut : CutsMessage limit true inPlural cs₁ m os)
    (h : CutsBranches limit inPlural cs₂ given os') :
    CutsBranches limit inPlural cs ((k, m) :: given) (⟨1, cs₁⟩ :: (os.map .inside ++ os')) := by
  rintro p s choice rfl hkeys hd hlt
  rw [Branches.depth] at hlt
  by_cases hfull : s.depth = limit
  · exact cutsOff_here hk hs hfull _
  have hdepth : s.depth < limit := by omega
  by_cases hdeep : limit < s.depth + 1 + Message.depth m
  · have hinside : CutsOff limit p (s.become (.between (.key choice))) cs _ :=
      .inside hk hs hdepth fun p start => hcut p (s.entered choice k start) rfl rfl hdepth hdeep
    exact hinside.append os'
  -- The branch is passed: the brace that is too deep is that of a branch behind it.
  have hperm : (choice.branches ++ (k, m) :: given).Perm ((k, m) :: (choice.branches ++ given)) :=
    List.perm_middle
  have hnew : ∀ e ∈ choice.branches, e.1 ≠ k := fun e he =>
    (List.pairwise_append.1 hkeys).2.2 e he (k, m) List.mem_cons_self
  have hkeys' : (insertEntry k m choice.branches ++ given).Pairwise fun a b => a.1 ≠ b.1 :=
    (hperm.trans ((insertEntry_perm hnew).symm.append_right given)).pairwise hkeys
      fun h => h.symm
  have hlead : Leads limit (s.become (.between (.key choice))) cs _ cs₂ :=
    branch_leads hk hs hm.reads.leads (lookup_eq_none_iff_forall_ne.2 hnew) (by omega)
  have hpassed : ∀ x ∈ (⟨1, cs₁⟩ :: os.map .inside : List Opening), s.depth + x.level ≤ limit := by
    rw [List.forall_mem_cons, List.forall_mem_map]
    refine ⟨hdepth, fun o ho => ?_⟩
    have hlevel := hm.add_level_le (Nat.le_of_not_lt hdeep) o ho
    show s.depth + (o.level + 1) ≤ limit
    omega
  have hcuts := CutsOff.of_leads hlead rfl hpassed fun q => h q s _ rfl hkeys' hd (by omega)
  exact hcuts p

end

/-- **Where a message is too deep, reading it is cut off** at the first brace that is. -/
theorem OpensMessage.cutsOff {limit : Nat} {nested inPlural : Bool} {cs rest : List Char}
    {m : Message} {os : List Opening} (h : OpensMessage nested inPlural cs m rest os) :
    CutsMessage limit nested inPlural cs m os := by
  induction h using OpensMessage.rec
    (motive_2 := fun cs part _ os _ => CutsArgument limit cs part os)
    (motive_3 := fun inPlural cs given _ os _ => CutsBranches limit inPlural cs given os) with
  | nil =>
    intro p s _ _ hd hlt
    rw [Message.depth] at hlt
    omega
  | @text nested inPlural cs t cs' m rest os ht hne _ ih =>
    rintro p s rfl rfl hd hlt
    rw [Message.depth, Part.depth, Nat.zero_max] at hlt
    exact CutsOff.of_leads (text_leads ht hne) rfl (List.forall_mem_nil _)
      (fun q => ih q (s.withPart _) rfl rfl hd hlt) p
  | argument ha _ iha ih =>
    exact CutsMessage.cons ha.reads.leads (fun _ hn => ha.add_level_le hn) iha ih
  | @marker nested cs m rest os _ ih =>
    intro p s hn hp hd hlt
    rw [Message.depth, Part.depth, Nat.zero_max] at hlt
    exact CutsOff.of_leads (marker_leads hp cs) rfl (List.forall_mem_nil _)
      (fun q => ih q (s.withPart _) hn hp hd hlt) p
  | leaf _ hleaf =>
    intro p s hd hlt
    rw [Part.depth_of_leaf hleaf] at hlt
    omega
  | @select a given bs cs cs₁ cs₂ rest os ha hs hs' _ _ hbs hperm ih =>
    intro p s hd hlt
    have hselector : Leads limit (s.become (.between (.keyword a))) cs₁ _ cs₂ :=
      selector_leads rfl isWord_selectWord hs' a
    exact CutsOff.of_leads ((head_leads ha hs).trans hselector) rfl (List.forall_mem_nil _)
      (ih.choice hbs hperm rfl hd hlt) p
  | @plural a o n given bs cs cs₁ cs₂ cs₃ rest os ha hs hs' ho _ _ hbs hperm ih =>
    intro p s hd hlt
    obtain ⟨offset, rfl, hoffset⟩ := ho.leads a o
    have hselector : Leads limit (s.become (.between (.keyword a))) cs₁ _ cs₂ :=
      selector_leads (Selector.ofKeyword?_pluralKeyword o) (isWord_pluralKeyword o) hs' a
    exact CutsOff.of_leads (((head_leads ha hs).trans hselector).trans hoffset) rfl
      (List.forall_mem_nil _) (ih.choice hbs hperm rfl hd hlt) p
  | close =>
    intro p s choice _ _ hd hlt
    rw [Branches.depth] at hlt
    omega
  | branch hk hs hm _ ihm ih => exact CutsBranches.branch hk hs hm ihm ih

end MessagePattern.Pattern
