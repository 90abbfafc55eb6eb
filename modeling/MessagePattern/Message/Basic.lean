import MessagePattern.Ascending
import MessagePattern.Message.Argument

/-! Messages.

A message is its parts in output order: literal text and arguments. Select and plural
arguments hold one message per branch, so messages nest. Nothing here says that a
message makes sense; a hand-built one is checked only when it is compiled.

`Message.induction` is the induction principle of the nested type: a statement about
messages may be assumed for the branches and for the parts behind. Branches stand in
ascending key order (`Message.Ordered`). -/
namespace MessagePattern

inductive Part where
  /-- Literal text, its quoting resolved. -/
  | text (value : String)
  /-- The string value of an argument. -/
  | plain (argument : String)
  /-- The value of an argument, shown as its type and style ask. -/
  | simple (argument : String) (type : ArgumentType) (style : ArgumentStyle)
  /-- The branch whose key is the string value of an argument. -/
  | select (argument : String) (branches : List (String × List Part))
  /-- The branch chosen by the integer value of an argument: one whose key is an equals
  sign and that integer, or one named for the plural category of its distance to
  `offset`. -/
  | plural (argument : String) (ordinal : Bool) (offset : Int64)
    (branches : List (String × List Part))
  /-- The operand of the plural around it, its offset taken off. -/
  | marker

abbrev Message := List Part

/-- The messages of a select or plural argument under their keys. -/
abbrev Branches := List (String × Message)

/-! ### Induction and equality -/

theorem Message.induction {P : Message → Prop} (nil : P [])
    (text : ∀ value rest, P rest → P (.text value :: rest))
    (plain : ∀ argument rest, P rest → P (.plain argument :: rest))
    (simple : ∀ argument type style rest, P rest → P (.simple argument type style :: rest))
    (select : ∀ argument (branches : Branches) rest, (∀ b ∈ branches, P b.2) → P rest →
      P (.select argument branches :: rest))
    (plural : ∀ argument ordinal offset (branches : Branches) rest, (∀ b ∈ branches, P b.2) →
      P rest → P (.plural argument ordinal offset branches :: rest))
    (marker : ∀ rest, P rest → P (.marker :: rest)) (m : Message) : P m :=
  Part.rec_3 (motive_1 := fun p => ∀ rest, P rest → P (p :: rest))
    (motive_2 := fun bs => ∀ b ∈ bs, P b.2) (motive_3 := fun b => P b.2) (motive_4 := P)
    text plain simple (fun a bs ih r => select a bs r ih) (fun a o n bs ih r => plural a o n bs r ih)
    marker (fun _ hb => nomatch hb)
    (fun _ _ ih ihs b hb => (List.mem_cons.1 hb).elim (fun h => h ▸ ih) (ihs b))
    (fun _ _ ih => ih) nil (fun _ ps ih ihs => ih ps ihs) m

mutual

def Part.decEq : (p q : Part) → Decidable (p = q)
  | .text a, .text b => decidable_of_iff (a = b) (by simp)
  | .plain a, .plain b => decidable_of_iff (a = b) (by simp)
  | .simple a t s, .simple b u r => decidable_of_iff (a = b ∧ t = u ∧ s = r) (by simp)
  | .select a bs, .select b cs =>
    match Branches.decEq bs cs with
    | .isTrue h => decidable_of_iff (a = b) (by simp [h])
    | .isFalse h => .isFalse (by simp [h])
  | .plural a o n bs, .plural b p k cs =>
    match Branches.decEq bs cs with
    | .isTrue h => decidable_of_iff (a = b ∧ o = p ∧ n = k) (by simp [h])
    | .isFalse h => .isFalse (by simp [h])
  | .marker, .marker => .isTrue rfl
  | .text _, .plain _ | .text _, .simple .. | .text _, .select .. | .text _, .plural ..
  | .text _, .marker | .plain _, .text _ | .plain _, .simple .. | .plain _, .select ..
  | .plain _, .plural .. | .plain _, .marker | .simple .., .text _ | .simple .., .plain _
  | .simple .., .select .. | .simple .., .plural .. | .simple .., .marker | .select .., .text _
  | .select .., .plain _ | .select .., .simple .. | .select .., .plural .. | .select .., .marker
  | .plural .., .text _ | .plural .., .plain _ | .plural .., .simple .. | .plural .., .select ..
  | .plural .., .marker | .marker, .text _ | .marker, .plain _ | .marker, .simple ..
  | .marker, .select .. | .marker, .plural .. => .isFalse nofun

def Message.decEq : (m n : List Part) → Decidable (m = n)
  | [], [] => .isTrue rfl
  | [], _ :: _ | _ :: _, [] => .isFalse nofun
  | p :: ps, q :: qs =>
    match p.decEq q, Message.decEq ps qs with
    | .isTrue h, .isTrue h' => .isTrue (by rw [h, h'])
    | .isFalse h, _ => .isFalse (by simp [h])
    | _, .isFalse h => .isFalse (by simp [h])

def Branches.decEq : (bs cs : List (String × List Part)) → Decidable (bs = cs)
  | [], [] => .isTrue rfl
  | [], _ :: _ | _ :: _, [] => .isFalse nofun
  | (k, m) :: bs, (l, n) :: cs =>
    match decEq k l, Message.decEq m n, Branches.decEq bs cs with
    | .isTrue h, .isTrue h', .isTrue h'' => .isTrue (by rw [h, h', h''])
    | .isFalse h, _, _ => .isFalse (by simp [h])
    | _, .isFalse h, _ => .isFalse (by simp [h])
    | _, _, .isFalse h => .isFalse (by simp [h])

end

instance : DecidableEq Part := Part.decEq

/-! ### Arguments and branches of a part -/

namespace Part

/-- The argument a part reads; the marker reads that of the plural around it. -/
def argument? : Part → Option String
  | text _ => none
  | plain a => some a
  | simple a _ _ => some a
  | select a _ => some a
  | plural a _ _ _ => some a
  | marker => none

/-- The branches of a select or plural argument. -/
def branches? : Part → Option Branches
  | select _ bs => some bs
  | plural _ _ _ bs => some bs
  | text _ | plain _ | simple _ _ _ | marker => none

end Part

/-! ### Key order -/

mutual

/-- The branches inside a part stand in ascending key order, at every level. -/
def Part.Ordered : Part → Prop
  | .text _ | .plain _ | .simple _ _ _ | .marker => True
  | .select _ bs => Ascending bs ∧ Branches.Ordered bs
  | .plural _ _ _ bs => Ascending bs ∧ Branches.Ordered bs

/-- Every part of the message is ordered. -/
def Message.Ordered : List Part → Prop
  | [] => True
  | p :: ps => p.Ordered ∧ Message.Ordered ps

/-- Every message under a key is ordered. -/
def Branches.Ordered : List (String × List Part) → Prop
  | [] => True
  | (_, m) :: bs => Message.Ordered m ∧ Branches.Ordered bs

end

/-! ### Argument names -/

mutual

/-- Every argument a part reads, in document order and with repetitions. -/
def Part.arguments : Part → List String
  | .text _ | .marker => []
  | .plain a => [a]
  | .simple a _ _ => [a]
  | .select a bs => a :: Branches.arguments bs
  | .plural a _ _ bs => a :: Branches.arguments bs

/-- Every argument a message reads, in document order and with repetitions. -/
def Message.arguments : List Part → List String
  | [] => []
  | p :: ps => p.arguments ++ Message.arguments ps

/-- Every argument the branches read, in document order and with repetitions. -/
def Branches.arguments : List (String × List Part) → List String
  | [] => []
  | (_, m) :: bs => Message.arguments m ++ Branches.arguments bs

end

namespace Message

/-- The names a message refers to at any depth, ascending and without repetitions. -/
def argumentNames (m : Message) : List String := (arguments m).foldr insertKey []

theorem mem_argumentNames {name : String} {m : Message} :
    name ∈ argumentNames m ↔ name ∈ arguments m := by
  unfold argumentNames
  induction arguments m with
  | nil => rfl
  | cons a rest ih => rw [List.foldr_cons, mem_insertKey, ih, List.mem_cons]

/-! ### Building -/

/-- The message that shows one text, also an empty one. -/
def ofText (value : String) : Message := [.text value]

/-- The message that is one select argument whose only branch is `m`. -/
def underSelect (argument key : String) (m : Message) : Message := [.select argument [(key, m)]]

/-- The message that is one plural argument whose only branch is `m`. -/
def underPlural (argument : String) (ordinal : Bool) (offset : Int64) (key : String)
    (m : Message) : Message := [.plural argument ordinal offset [(key, m)]]

end Message

/-- Put a branch under a key, replacing the one that stands there. Only select and
plural arguments have branches. -/
def Part.withBranch? (key : String) (m : Message) : Part → Option Part
  | .select a bs => some (.select a (insertEntry key m bs))
  | .plural a o n bs => some (.plural a o n (insertEntry key m bs))
  | .text _ | .plain _ | .simple _ _ _ | .marker => none

/-- Put a branch into the last part of a message. -/
def Message.withLastBranch? (key : String) (branch : Message) : Message → Option Message
  | [] => none
  | [p] => (p.withBranch? key branch).map ([·])
  | p :: ps => (withLastBranch? key branch ps).map (p :: ·)

end MessagePattern
