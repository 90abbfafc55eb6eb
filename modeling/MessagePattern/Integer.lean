/-! Signed integers of 64 bits and their decimal literals.

Arithmetic and reading are checked: a result outside the range is refused, never
wrapped. `ofInt?_eq_some_iff` says what fits, `ofLiteral?_decimal` that the text of an
integer reads back as it. -/
namespace MessagePattern.Integer

/-- The 64-bit integer of value `n`, if there is one. -/
def ofInt? (n : Int) : Option Int64 :=
  if -0x8000000000000000 ≤ n ∧ n < 0x8000000000000000 then some (Int64.ofInt n) else none

/-- The difference `a - b`, unless it leaves the range. -/
def sub? (a b : Int64) : Option Int64 := ofInt? (a.toInt - b.toInt)

/-- The value of a run of ASCII digits, which must not be empty. -/
def natOfDigits? (digits : List Char) : Option Nat :=
  if digits = [] then none
  else if digits.all Char.isDigit then some (Nat.ofDigitChars 10 digits 0)
  else none

/-- Digits with at most a minus sign in front. -/
def ofLiteral? (literal : List Char) : Option Int64 :=
  match literal with
  | '-' :: digits => (natOfDigits? digits).bind fun n => ofInt? (-n)
  | digits => (natOfDigits? digits).bind fun n => ofInt? n

/-- Digits with at most one sign in front, of either kind. -/
def ofSigned? (literal : List Char) : Option Int64 :=
  match literal with
  | '+' :: digits => (natOfDigits? digits).bind fun n => ofInt? n
  | literal => ofLiteral? literal

/-- The decimal text of an integer: no padding, a minus sign below zero. -/
def digits (n : Int64) : List Char :=
  match n.toInt with
  | .ofNat m => Nat.toDigits 10 m
  | .negSucc m => '-' :: Nat.toDigits 10 (m + 1)

def decimal (n : Int64) : String := String.ofList (digits n)

/-! ### Laws -/

theorem ofInt?_eq_some_iff {n : Int} {k : Int64} : ofInt? n = some k ↔ k.toInt = n := by
  unfold ofInt?
  split
  next h =>
    have hn := Int64.toInt_ofInt_of_le h.1 h.2
    constructor
    · rintro ⟨⟩
      exact hn
    · intro hk
      rw [← hk, Int64.ofInt_toInt]
  next h =>
    refine ⟨nofun, fun hk => absurd ?_ h⟩
    rw [← hk]
    exact ⟨Int64.le_toInt k, Int64.toInt_lt k⟩

/-- The integer has 64 bits. -/
def Fits (n : Int) : Prop := -0x8000000000000000 ≤ n ∧ n < 0x8000000000000000

instance (n : Int) : Decidable (Fits n) := inferInstanceAs (Decidable (_ ∧ _))

theorem ofInt?_eq_none_iff {n : Int} : ofInt? n = none ↔ ¬ Fits n := by
  unfold ofInt? Fits
  split
  next h => exact iff_of_false nofun (not_not_intro h)
  next h => exact iff_of_true rfl h

theorem sub?_eq_some_iff {a b k : Int64} : sub? a b = some k ↔ k.toInt = a.toInt - b.toInt :=
  ofInt?_eq_some_iff

theorem sub?_eq_none_iff {a b : Int64} : sub? a b = none ↔ ¬ Fits (a.toInt - b.toInt) :=
  ofInt?_eq_none_iff

theorem natOfDigits?_toDigits (m : Nat) : natOfDigits? (Nat.toDigits 10 m) = some m := by
  have hne : Nat.toDigits 10 m ≠ [] := Nat.toDigits_ne_nil
  have hall : (Nat.toDigits 10 m).all Char.isDigit = true :=
    List.all_eq_true.2 fun c hc => Nat.isDigit_of_mem_toDigits (by decide) (by decide) hc
  rw [natOfDigits?, if_neg hne, if_pos hall, Nat.ofDigitChars_toDigits (by decide) (by decide)]

theorem head_toDigits_ne_minus (m : Nat) (rest : List Char) : Nat.toDigits 10 m ≠ '-' :: rest := by
  intro h
  have hmem : '-' ∈ Nat.toDigits 10 m := by rw [h]; exact List.mem_cons_self
  exact absurd (Nat.isDigit_of_mem_toDigits (by decide) (by decide) hmem) (by decide)

theorem ofLiteral?_toDigits (m : Nat) : ofLiteral? (Nat.toDigits 10 m) = ofInt? m := by
  unfold ofLiteral?
  split
  next rest h => exact absurd h (head_toDigits_ne_minus m rest)
  next => rw [natOfDigits?_toDigits, Option.bind_some]

theorem ofLiteral?_minus (m : Nat) : ofLiteral? ('-' :: Nat.toDigits 10 m) = ofInt? (-m) := by
  simp only [ofLiteral?, natOfDigits?_toDigits, Option.bind_some]

theorem decimal_eq_toString (n : Int64) : decimal n = toString n.toInt := by
  unfold decimal digits
  cases n.toInt with
  | ofNat m => rfl
  | negSucc m =>
    show String.ofList ('-' :: Nat.toDigits 10 (m + 1)) = "-" ++ (m + 1).repr
    rw [← String.toList_inj]
    simp [Nat.repr]

/-- The text of an integer reads back as it. -/
theorem ofLiteral?_digits (n : Int64) : ofLiteral? (digits n) = some n := by
  unfold digits
  split
  next m hm => rw [ofLiteral?_toDigits, ofInt?_eq_some_iff, hm, Int.ofNat_eq_natCast]
  next m hm => rw [ofLiteral?_minus, ofInt?_eq_some_iff, hm, Int.negSucc_eq]; simp

end MessagePattern.Integer

namespace MessagePattern

/-- The key of the branch for one integer. -/
def exactKey (n : Int64) : String := String.ofList ('=' :: Integer.digits n)

@[simp] theorem toList_exactKey (n : Int64) : (exactKey n).toList = '=' :: Integer.digits n :=
  String.toList_ofList

end MessagePattern
