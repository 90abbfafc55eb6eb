import MessagePattern.Plural.Category

/-! Plural rules.

A rule gives a category its condition on a natural number: some conjunction of
relations holds, each of which puts the number, or its rest by a power of ten, inside
or outside some ranges. The first category whose condition holds is the number's, and
`other` if there is none. -/
namespace MessagePattern.Plural

/-- A number is compared by its rest modulo `modulus`; modulus zero takes it whole. -/
structure Operand where
  modulus : Nat
  deriving DecidableEq, Repr

structure Relation where
  operand : Operand
  /-- Whether the operand is to lie inside the ranges. -/
  inside : Bool
  ranges : List (Nat × Nat)
  deriving DecidableEq, Repr

/-- One of the lists of relations holds throughout. -/
abbrev Condition := List (List Relation)

abbrev Rules := List (Category × Condition)

namespace Operand

def value (o : Operand) (n : Nat) : Nat := n % o.modulus

def whole : Operand := ⟨0⟩

def lastDigit : Operand := ⟨10⟩

def lastTwo : Operand := ⟨100⟩

def lastThree : Operand := ⟨1000⟩

def lastSix : Operand := ⟨1000000⟩

def within (o : Operand) (low high : Nat) : Relation := ⟨o, true, [(low, high)]⟩

def outside (o : Operand) (low high : Nat) : Relation := ⟨o, false, [(low, high)]⟩

def among (o : Operand) (values : List Nat) : Relation := ⟨o, true, values.map fun v => (v, v)⟩

def notAmong (o : Operand) (values : List Nat) : Relation :=
  ⟨o, false, values.map fun v => (v, v)⟩

def is (o : Operand) (value : Nat) : Relation := o.among [value]

def isNot (o : Operand) (value : Nat) : Relation := o.notAmong [value]

end Operand

def Relation.holds (r : Relation) (n : Nat) : Bool :=
  (r.ranges.any fun x => x.1 ≤ r.operand.value n && r.operand.value n ≤ x.2) == r.inside

def Condition.holds (c : Condition) (n : Nat) : Bool := c.any (·.all (·.holds n))

/-- The category of the number `n`. -/
def Rules.category (rules : Rules) (n : Nat) : Category :=
  match rules.find? (·.2.holds n) with
  | some (c, _) => c
  | none => .other

end MessagePattern.Plural
