import MessagePattern.Compiled.Basic
import MessagePattern.Proofs.Canonical

/-! Where parts and nodes stand.

A part stands directly in the branch of a plural or it does not, and so many branches lie
around it: that is its `Site`. `Message.Stands` finds every part of a message at its site,
at any depth, and `Block.Holds` every node of a compiled message under the plural it stands
directly in.

Both step from a part or node to its branches (`HasBranch`), and both nested types have an
induction principle in these terms (`branch_induction`): what holds of the branches of a
part and of the parts behind it holds of all. -/
namespace MessagePattern

structure Site where
  /-- The plural in a branch of which this is directly. -/
  binding? : Option Binding
  /-- How many branches lie around. -/
  depth : Nat
  deriving DecidableEq

namespace Site

/-- Outside of all branches. -/
def root : Site := ⟨none, 0⟩

/-- In a branch, where the marker stands for `binding?`. -/
def inside (site : Site) (binding? : Option Binding) : Site := ⟨binding?, site.depth + 1⟩

/-- The marker has an operand here. -/
def inPlural (site : Site) : Bool := site.binding?.isSome

@[simp] theorem binding?_inside (site : Site) (binding? : Option Binding) :
    (site.inside binding?).binding? = binding? := rfl

@[simp] theorem depth_inside (site : Site) (binding? : Option Binding) :
    (site.inside binding?).depth = site.depth + 1 := rfl

end Site

/-! ### Parts -/

/-- The message is a branch of the part, and the marker stands for `binding?` in it: in
the branches of a select for nothing. -/
inductive Part.HasBranch : Part → (binding? : Option Binding) → Message → Prop where
  | select {a bs k m} : (k, m) ∈ bs → Part.HasBranch (.select a bs) none m
  | plural {a o offset bs k m} : (k, m) ∈ bs →
      Part.HasBranch (.plural a o offset bs) (some ⟨a, offset⟩) m

theorem Message.branch_induction {P : Message → Prop} (nil : P [])
    (cons : ∀ p rest, (∀ binding? m, Part.HasBranch p binding? m → P m) → P rest → P (p :: rest))
    (m : Message) : P m := by
  induction m using Message.induction with
  | nil => exact nil
  | text value rest ih => exact cons _ rest (fun _ _ h => nomatch h) ih
  | plain a rest ih => exact cons _ rest (fun _ _ h => nomatch h) ih
  | simple a t s rest ih => exact cons _ rest (fun _ _ h => nomatch h) ih
  | select a bs rest ihb ih =>
    refine cons _ rest (fun binding? m h => ?_) ih
    cases h with
    | select hm => exact ihb _ hm
  | plural a o offset bs rest ihb ih =>
    refine cons _ rest (fun binding? m h => ?_) ih
    cases h with
    | plural hm => exact ihb _ hm
  | marker rest ih => exact cons _ rest (fun _ _ h => nomatch h) ih

/-- In the message at the first site, the part stands at the second. -/
inductive Message.Stands : Site → Message → Site → Part → Prop where
  | here {site m p} : p ∈ m → Message.Stands site m site p
  | inside {site m p binding? branch site' q} : p ∈ m → Part.HasBranch p binding? branch →
      Message.Stands (site.inside binding?) branch site' q → Message.Stands site m site' q

theorem Message.not_stands_nil {site site' : Site} {p : Part} :
    ¬ Message.Stands site [] site' p := by
  intro h
  cases h with
  | here hp => cases hp
  | inside hp => cases hp

/-- What stands in a message is its first part, or stands in a branch of that, or behind. -/
theorem Message.stands_cons_iff {site site' : Site} {p q : Part} {ps : Message} :
    Message.Stands site (p :: ps) site' q ↔ (site' = site ∧ q = p) ∨
      (∃ binding? branch, p.HasBranch binding? branch ∧
        Message.Stands (site.inside binding?) branch site' q) ∨
      Message.Stands site ps site' q := by
  apply Iff.intro
  · intro h
    cases h with
    | here hq =>
      rcases List.mem_cons.1 hq with rfl | hq
      · exact .inl ⟨rfl, rfl⟩
      · exact .inr (.inr (.here hq))
    | inside hp hb hq =>
      rcases List.mem_cons.1 hp with rfl | hp
      · exact .inr (.inl ⟨_, _, hb, hq⟩)
      · exact .inr (.inr (.inside hp hb hq))
  · intro h
    rcases h with ⟨rfl, rfl⟩ | ⟨binding?, branch, hb, hq⟩ | h
    · exact .here List.mem_cons_self
    · exact .inside List.mem_cons_self hb hq
    · cases h with
      | here hq => exact .here (List.mem_cons_of_mem _ hq)
      | inside hp hb hq => exact .inside (List.mem_cons_of_mem _ hp) hb hq

/-- A plural whose operand the marker stands for somewhere is found around that place. -/
theorem Message.Stands.exists_plural {site site' : Site} {m : Message} {p : Part}
    (h : Message.Stands site m site' p) {b : Binding} (hb : site'.binding? = some b) :
    site.binding? = some b ∨
      ∃ around o bs, Message.Stands site m around (.plural b.argument o b.offset bs) := by
  induction h with
  | here => exact .inl hb
  | inside hp hbranch _ ih =>
    rcases ih hb with hb | ⟨around, o, bs, hplural⟩
    · cases hbranch with
      | select => cases hb
      | plural =>
        cases hb
        exact .inr ⟨_, _, _, .here hp⟩
    · exact .inr ⟨around, o, bs, .inside hp hbranch hplural⟩

/-- The parts of a canonical message are canonical where they stand. -/
theorem Message.Stands.canonical {site site' : Site} {m : Message} {p : Part}
    (h : Message.Stands site m site' p) (hm : Message.Canonical site.inPlural m) :
    p.Canonical site'.inPlural := by
  have hmem : ∀ {inPlural} {m : Message}, Message.Canonical inPlural m →
      ∀ p ∈ m, p.Canonical inPlural := by
    intro inPlural m hm
    induction m with
    | nil => simp
    | cons p ps ih => exact List.forall_mem_cons.2 ⟨hm.1, ih hm.2.2⟩
  induction h with
  | here hp => exact hmem hm _ hp
  | inside hp hbranch _ ih =>
    have hp := hmem hm _ hp
    cases hbranch with
    | select hb => exact ih (Branches.canonical_iff.1 hp.2.2.2 _ hb).2
    | plural hb => exact ih (Branches.canonical_iff.1 hp.2.2.2 _ hb).2

/-- The parts of an ordered message are ordered where they stand. -/
theorem Message.Stands.ordered {site site' : Site} {m : Message} {p : Part}
    (h : Message.Stands site m site' p) (hm : Message.Ordered m) : p.Ordered := by
  have hmem : ∀ {m : Message}, Message.Ordered m → ∀ p ∈ m, p.Ordered := by
    intro m hm
    induction m with
    | nil => simp
    | cons p ps ih => exact List.forall_mem_cons.2 ⟨hm.1, ih hm.2⟩
  induction h with
  | here hp => exact hmem hm _ hp
  | inside hp hbranch _ ih =>
    have hp := hmem hm _ hp
    cases hbranch with
    | select hb => exact ih (Branches.ordered_iff.1 hp.2 _ hb)
    | plural hb => exact ih (Branches.ordered_iff.1 hp.2 _ hb)

/-! ### Depth -/

theorem Part.depth_le_iff {d : Nat} {p : Part} :
    p.depth ≤ d ↔
      ∀ binding? branch, p.HasBranch binding? branch → Message.depth branch + 1 ≤ d := by
  have hbranches : ∀ {bs : Branches}, Branches.depth bs ≤ d ↔
      ∀ k m, (k, m) ∈ bs → Message.depth m + 1 ≤ d := by
    intro bs
    rw [Branches.depth_le_iff, Prod.forall]
  cases p with
  | text value => exact iff_of_true (Nat.zero_le d) (fun _ _ h => nomatch h)
  | plain a => exact iff_of_true (Nat.zero_le d) (fun _ _ h => nomatch h)
  | simple a t s => exact iff_of_true (Nat.zero_le d) (fun _ _ h => nomatch h)
  | select a bs =>
    rw [Part.depth, hbranches]
    apply Iff.intro
    · intro h binding? branch hb
      cases hb with
      | select hm => exact h _ _ hm
    · exact fun h k m hm => h none m (.select hm)
  | plural a o offset bs =>
    rw [Part.depth, hbranches]
    apply Iff.intro
    · intro h binding? branch hb
      cases hb with
      | plural hm => exact h _ _ hm
    · exact fun h k m hm => h (some ⟨a, offset⟩) m (.plural hm)
  | marker => exact iff_of_true (Nat.zero_le d) (fun _ _ h => nomatch h)

/-- The depth of a message is that of its deepest branch. -/
theorem Message.add_depth_le_iff {d : Nat} {site : Site} {m : Message} (hsite : site.depth ≤ d) :
    site.depth + Message.depth m ≤ d ↔ ∀ site' p binding? branch, Message.Stands site m site' p →
      p.HasBranch binding? branch → site'.depth < d := by
  induction m using Message.branch_induction generalizing site with
  | nil =>
    rw [Message.depth]
    exact ⟨fun _ _ _ _ _ h => absurd h not_stands_nil, fun _ => hsite⟩
  | cons p ps ihb ih =>
    rw [Message.add_depth_cons_le_iff, ih hsite]
    apply Iff.intro
    · intro h site' q binding? branch hq hbranch
      obtain ⟨hp, hps⟩ := h
      have hp : p.depth ≤ d - site.depth := by omega
      rcases Message.stands_cons_iff.1 hq with ⟨rfl, rfl⟩ | ⟨outer?, outer, houter, hq⟩ | hq
      · have := Part.depth_le_iff.1 hp _ _ hbranch
        omega
      · have := Part.depth_le_iff.1 hp _ _ houter
        have hinside : (site.inside outer?).depth + Message.depth outer ≤ d := by
          rw [Site.depth_inside]
          omega
        exact (ihb _ _ houter (Nat.le_of_add_right_le hinside)).1 hinside _ _ _ _ hq hbranch
      · exact hps _ _ _ _ hq hbranch
    · intro h
      refine ⟨?_, fun _ _ _ _ hq => h _ _ _ _ (Message.stands_cons_iff.2 (.inr (.inr hq)))⟩
      have hp : p.depth ≤ d - site.depth := by
        rw [Part.depth_le_iff]
        intro binding? outer houter
        have hlt : (site.inside binding?).depth ≤ d :=
          h _ _ _ _ (.here List.mem_cons_self) houter
        have hinside := (ihb _ _ houter hlt).2
          fun _ _ _ _ hq => h _ _ _ _ (.inside List.mem_cons_self houter hq)
        rw [Site.depth_inside] at hinside
        omega
      omega

/-! ### Nodes -/

/-- The block is a branch of the node, and its markers belong to `binding?`. -/
inductive Node.HasBranch : Node → (binding? : Option Binding) → Block → Prop where
  | select {a branches k block} : (k, block) ∈ branches →
      Node.HasBranch (.select a branches) none block
  | plural {b o branches other key block} : (key, block) ∈ branches →
      Node.HasBranch (.plural b o branches other) (some b) block
  | other {b o branches other} : Node.HasBranch (.plural b o branches other) (some b) other

theorem Block.branch_induction {P : Block → Prop} (nil : P [])
    (cons : ∀ n rest, (∀ binding? block, Node.HasBranch n binding? block → P block) → P rest →
      P (n :: rest)) (block : Block) : P block := by
  induction block using Block.induction with
  | nil => exact nil
  | text value rest ih => exact cons _ rest (fun _ _ h => nomatch h) ih
  | plain a rest ih => exact cons _ rest (fun _ _ h => nomatch h) ih
  | simple a t s rest ih => exact cons _ rest (fun _ _ h => nomatch h) ih
  | select a branches rest ihb ih =>
    refine cons _ rest (fun binding? block h => ?_) ih
    cases h with
    | select hm => exact ihb _ hm
  | plural b o branches other rest ihb iho ih =>
    refine cons _ rest (fun binding? block h => ?_) ih
    cases h with
    | plural hm => exact ihb _ hm
    | other => exact iho
  | marker b rest ih => exact cons _ rest (fun _ _ h => nomatch h) ih

/-- In the block, whose own markers belong to the first plural, the node stands directly
in a branch of the second: of the plural next around it, with no select between. -/
inductive Block.Holds : (binding? : Option Binding) → Block → (around? : Option Binding) →
    Node → Prop where
  | here {binding? block n} : n ∈ block → Block.Holds binding? block binding? n
  | inside {binding? block n inner? branch around? x} : n ∈ block →
      Node.HasBranch n inner? branch → Block.Holds inner? branch around? x →
      Block.Holds binding? block around? x

theorem Block.Holds.cons {binding? around? : Option Binding} {block : Block} {n x : Node}
    (h : Block.Holds binding? block around? x) : Block.Holds binding? (n :: block) around? x := by
  cases h with
  | here hx => exact .here (List.mem_cons_of_mem n hx)
  | inside hn hbranch hx => exact .inside (List.mem_cons_of_mem n hn) hbranch hx

end MessagePattern
