/-! The shortest decimal of a binary number.

A positive number `significand · 2 ^ exponent` stands for all reals that round to it.
Its shortest decimal is the one with the fewest digits among those reals, and among
those of equally many digits the nearest, the larger of two equally near ones. On each
decimal grid only the two neighbours of the number can be nearest, so the search looks
at one to seventeen digits and, for each, at two candidates, in exact arithmetic. -/
namespace MessagePattern.Decimal

/-- A positive binary number. -/
structure Binary where
  significand : Nat
  exponent : Int
  /-- Whether the next smaller number is only half as far away as the next larger one. -/
  closeBelow : Bool
  deriving DecidableEq, Repr

/-- The number `digits · 10 ^ exponent`. -/
structure Number where
  digits : Nat
  exponent : Int
  deriving DecidableEq, Repr

/-- The factor `base ^ exponent` of one side of a fraction; a negative exponent counts
for the other side. -/
def power (base : Nat) (exponent : Int) : Nat := base.pow exponent.toNat

/-- How many decimal digits `n` has. -/
def length (n : Nat) : Nat := (Nat.toDigits 10 n).length

/-- The number of digits in front of the point: the least `p` such that `b < 10 ^ p`. -/
def magnitude (b : Binary) : Int :=
  let numerator := b.significand * power 2 b.exponent
  let denominator := power 2 (-b.exponent)
  let p : Int := length numerator - length denominator
  if denominator * power 10 p ≤ numerator * power 10 (-p) then p + 1 else p

/-- The decimal with the unit `10 ^ exponent` that reads back as `b` and lies nearest, if
there is one. A quarter of the binary unit and the decimal unit are brought to one
denominator; the ends of the interval belong to it when the significand is even. -/
def candidate? (b : Binary) (exponent : Int) : Option Nat :=
  let quarter := power 2 (b.exponent - 2) * power 10 (-exponent)
  let unit := power 10 exponent * power 2 (2 - b.exponent)
  let value := 4 * b.significand * quarter
  let low := (4 * b.significand - if b.closeBelow then 1 else 2) * quarter
  let high := (4 * b.significand + 2) * quarter
  let fits (d : Nat) : Bool :=
    if b.significand % 2 = 0 then low ≤ d * unit && d * unit ≤ high
    else low < d * unit && d * unit < high
  let below := value / unit
  if fits below && (!fits (below + 1) || 2 * value < (2 * below + 1) * unit) then some below
  else if fits (below + 1) then some (below + 1)
  else none

/-- Rounding up to a power of ten leaves a zero that counts for nothing. -/
def trim (d : Number) : Number :=
  if d.digits % 10 = 0 then ⟨d.digits / 10, d.exponent + 1⟩ else d

/-- The shortest decimal of `b`. Seventeen digits always suffice for a double. -/
def shortest (b : Binary) : Number :=
  let p := magnitude b
  let found := (List.range' 1 17).findSome? fun (k : Nat) =>
    (candidate? b (p - k)).map fun d => (⟨d, p - k⟩ : Number)
  trim (found.getD ⟨0, 0⟩)

/-! ### Positional text -/

/-- All digits in their places: zeros fill up to the point, and nothing is written
behind it for a whole number. -/
def positional (d : Number) : List Char :=
  let digits := Nat.toDigits 10 d.digits
  if 0 ≤ d.exponent then digits ++ List.replicate d.exponent.toNat '0'
  else
    let places := (-d.exponent).toNat
    if places < digits.length then
      digits.take (digits.length - places) ++ '.' :: digits.drop (digits.length - places)
    else '0' :: '.' :: List.replicate (places - digits.length) '0' ++ digits

/-! ### Doubles -/

/-- What the bits of a double stand for. -/
inductive Double where
  | notANumber
  | infinite (negative : Bool)
  | zero (negative : Bool)
  | finite (negative : Bool) (magnitude : Binary)
  deriving DecidableEq, Repr

/-- Fractions are 52 bits wide. -/
def fractionBound : Nat := 0x10000000000000

/-- Exponents are eleven bits wide. -/
def exponentBound : Nat := 0x800

/-- Read the sign, the exponent and the fraction. A double without exponent is a multiple
of the smallest unit; any other has a leading bit in front of its fraction. -/
def Double.ofBits (bits : Nat) : Double :=
  let negative := bits / (fractionBound * exponentBound) % 2 == 1
  let exponent : Nat := bits / fractionBound % exponentBound
  let fraction : Nat := bits % fractionBound
  if exponent + 1 = exponentBound then
    if fraction = 0 then .infinite negative else .notANumber
  else if exponent = 0 then
    if fraction = 0 then .zero negative else .finite negative ⟨fraction, -1074, false⟩
  else
    .finite negative
      ⟨fractionBound + fraction, (exponent : Int) - 1075, fraction == 0 && 1 < exponent⟩

def sign (negative : Bool) : List Char := if negative then ['-'] else []

/-- The text of a double: a sign also in front of a negative zero, never an exponent. -/
def Double.text : Double → String
  | notANumber => "NaN"
  | infinite negative => String.ofList (sign negative ++ "inf".toList)
  | zero negative => String.ofList (sign negative ++ ['0'])
  | finite negative b => String.ofList (sign negative ++ positional (shortest b))

def ofFloat (x : Float) : String := (Double.ofBits x.toBits.toNat).text

end MessagePattern.Decimal
