import MessagePattern.Message.Basic
import MessagePattern.Proofs.Token

/-! Canonical messages.

A message is canonical when it has the shape of one that was read from a pattern: texts
are not empty and do not touch, every word in it could stand in a pattern, every select
and plural has branches, under ascending keys, and the marker stands only where a plural
gives it an operand. Canonical says nothing about the nesting of branches, which
`depth` counts.

Both are said part by part, so both are read off the branches one by one
(`canonical_iff`, `depth_le_iff`) and do not depend on the order in which those are
given. -/
namespace MessagePattern

open Lexis

/-! ### Depth -/

mutual

/-- How deep branches nest inside a part. -/
def Part.depth : Part → Nat
  | .text _ | .plain _ | .simple _ _ _ | .marker => 0
  | .select _ bs => Branches.depth bs
  | .plural _ _ _ bs => Branches.depth bs

/-- How deep branches nest inside a message, which itself is at depth zero. -/
def Message.depth : List Part → Nat
  | [] => 0
  | p :: ps => max p.depth (Message.depth ps)

/-- How deep branches nest, the given ones counted. -/
def Branches.depth : List (String × List Part) → Nat
  | [] => 0
  | (_, m) :: bs => max (Message.depth m + 1) (Branches.depth bs)

end

theorem Message.add_depth_cons_le_iff {n d : Nat} {p : Part} {m : Message} :
    n + Message.depth (p :: m) ≤ d ↔ n + p.depth ≤ d ∧ n + Message.depth m ≤ d := by
  rw [Message.depth]
  omega

theorem Branches.depth_le_iff {d : Nat} {bs : Branches} :
    Branches.depth bs ≤ d ↔ ∀ b ∈ bs, Message.depth b.2 + 1 ≤ d := by
  induction bs with
  | nil => simp [Branches.depth]
  | cons b bs ih =>
    obtain ⟨k, m⟩ := b
    rw [Branches.depth, Nat.max_le, ih, List.forall_mem_cons]

/-! ### Order -/

theorem Branches.ordered_iff {bs : Branches} :
    Branches.Ordered bs ↔ ∀ b ∈ bs, Message.Ordered b.2 := by
  induction bs with
  | nil => simp [Branches.Ordered]
  | cons b bs ih =>
    obtain ⟨k, m⟩ := b
    rw [Branches.Ordered, ih, List.forall_mem_cons]

/-! ### Canonical messages -/

/-- The key of a branch: a word, or in a plural an equals sign and a decimal. -/
inductive IsKey : (inPlural : Bool) → List Char → Prop where
  | word {inPlural cs} : IsWord cs → IsKey inPlural cs
  | exact {n cs} : Integer.IsDecimal n cs → IsKey true ('=' :: cs)

def Part.isText : Part → Bool
  | .text _ => true
  | .plain _ | .simple _ _ _ | .select _ _ | .plural _ _ _ _ | .marker => false

/-- Not both are texts. -/
def Part.Apart (p q : Part) : Prop := p.isText = true → q.isText = false

mutual

/-- The part is canonical where it stands, directly in a plural branch or elsewhere. -/
def Part.Canonical (inPlural : Bool) : Part → Prop
  | .text value => value ≠ ""
  | .plain a => IsArgumentName a.toList
  | .simple a t s => IsArgumentName a.toList ∧ t ∈ ArgumentType.spelled ∧
      (s = .default ∨ s ∈ ArgumentStyle.spelled)
  | .select a bs => IsArgumentName a.toList ∧ bs ≠ [] ∧ Ascending bs ∧ Branches.Canonical false bs
  | .plural a _ _ bs =>
    IsArgumentName a.toList ∧ bs ≠ [] ∧ Ascending bs ∧ Branches.Canonical true bs
  | .marker => inPlural = true

/-- Every part is canonical and no text touches the next. -/
def Message.Canonical (inPlural : Bool) : List Part → Prop
  | [] => True
  | p :: ps => p.Canonical inPlural ∧ (∀ q ∈ ps.head?, p.Apart q) ∧ Message.Canonical inPlural ps

/-- Every key is one of its kind of argument, and every message under a key canonical. -/
def Branches.Canonical (inPlural : Bool) : List (String × List Part) → Prop
  | [] => True
  | (k, m) :: bs =>
    IsKey inPlural k.toList ∧ Message.Canonical inPlural m ∧ Branches.Canonical inPlural bs

end

theorem Branches.canonical_iff {inPlural : Bool} {bs : Branches} :
    Branches.Canonical inPlural bs ↔
      ∀ b ∈ bs, IsKey inPlural b.1.toList ∧ Message.Canonical inPlural b.2 := by
  induction bs with
  | nil => simp [Branches.Canonical]
  | cons b bs ih =>
    obtain ⟨k, m⟩ := b
    rw [Branches.Canonical, ih, List.forall_mem_cons, and_assoc]

theorem Branches.Canonical.of_perm {inPlural : Bool} {bs given : Branches} (h : bs.Perm given)
    (hg : Branches.Canonical inPlural given) : Branches.Canonical inPlural bs :=
  Branches.canonical_iff.2 fun b hb => Branches.canonical_iff.1 hg b (h.mem_iff.1 hb)

theorem Branches.depth_le_of_perm {d : Nat} {bs given : Branches} (h : bs.Perm given)
    (hg : Branches.depth given ≤ d) : Branches.depth bs ≤ d :=
  Branches.depth_le_iff.2 fun b hb => Branches.depth_le_iff.1 hg b (h.mem_iff.1 hb)

/-! ### Canonical is decidable

`isKey_iff` finds the integer of a key, and everything else is looked up in the message. -/

theorem isKey_iff {inPlural : Bool} {cs : List Char} : IsKey inPlural cs ↔ IsWord cs ∨
    inPlural = true ∧ ∃ n ∈ Integer.ofLiteral? cs.tail, cs = '=' :: Integer.digits n := by
  apply Iff.intro
  · intro h
    rcases h with hw | @⟨n, ds, hd⟩
    · exact .inl hw
    · refine .inr ⟨rfl, n, Integer.isLiteral_iff.1 hd.literal, ?_⟩
      rw [Integer.isDecimal_iff.1 hd]
  · intro h
    rcases h with hw | ⟨rfl, n, -, rfl⟩
    · exact .word hw
    · exact .exact (Integer.isDecimal_iff.2 rfl)

instance (inPlural : Bool) (cs : List Char) : Decidable (IsKey inPlural cs) :=
  decidable_of_iff _ isKey_iff.symm

instance (p q : Part) : Decidable (p.Apart q) :=
  inferInstanceAs (Decidable (_ → _))

mutual

def Part.decCanonical (inPlural : Bool) : (p : Part) → Decidable (p.Canonical inPlural)
  | .text value => inferInstanceAs (Decidable (value ≠ ""))
  | .plain a => inferInstanceAs (Decidable (IsArgumentName a.toList))
  | .simple a t s => inferInstanceAs (Decidable (IsArgumentName a.toList ∧
      t ∈ ArgumentType.spelled ∧ (s = .default ∨ s ∈ ArgumentStyle.spelled)))
  | .select a bs =>
    have := Branches.decCanonical false bs
    inferInstanceAs (Decidable
      (IsArgumentName a.toList ∧ bs ≠ [] ∧ Ascending bs ∧ Branches.Canonical false bs))
  | .plural a _ _ bs =>
    have := Branches.decCanonical true bs
    inferInstanceAs (Decidable
      (IsArgumentName a.toList ∧ bs ≠ [] ∧ Ascending bs ∧ Branches.Canonical true bs))
  | .marker => inferInstanceAs (Decidable (inPlural = true))

def Message.decCanonical (inPlural : Bool) :
    (m : List Part) → Decidable (Message.Canonical inPlural m)
  | [] => .isTrue trivial
  | p :: ps =>
    have := p.decCanonical inPlural
    have := Message.decCanonical inPlural ps
    inferInstanceAs (Decidable
      (p.Canonical inPlural ∧ (∀ q ∈ ps.head?, p.Apart q) ∧ Message.Canonical inPlural ps))

def Branches.decCanonical (inPlural : Bool) :
    (bs : List (String × List Part)) → Decidable (Branches.Canonical inPlural bs)
  | [] => .isTrue trivial
  | (k, m) :: bs =>
    have := Message.decCanonical inPlural m
    have := Branches.decCanonical inPlural bs
    inferInstanceAs (Decidable
      (IsKey inPlural k.toList ∧ Message.Canonical inPlural m ∧ Branches.Canonical inPlural bs))

end

instance (inPlural : Bool) (m : Message) : Decidable (Message.Canonical inPlural m) :=
  Message.decCanonical inPlural m

end MessagePattern
