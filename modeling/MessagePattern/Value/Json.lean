import MessagePattern.Value.Basic

/-! Reading a value from JSON.

A number written without fraction and exponent is an integer if 64 bits hold it, except
that `-0` is a float, since no integer has that sign. Every other number is a float; one
too large for a float is refused, one too small is zero. A string is a string. Nothing
else is a value. White space may stand on both sides.

A float is read with two roundings. As many digits as 64 bits hold make up a
significand, which is rounded to a float, and that float is multiplied or divided by a
power of ten. So the result may miss the nearest float by its last bit. -/
namespace MessagePattern.Value

/-- The white space of JSON. -/
def isJsonSpace (c : Char) : Bool := c == ' ' || c == '\t' || c == '\n' || c == '\r'

/-! ### Strings -/

def hexDigit? (c : Char) : Option Nat :=
  if c.isDigit then some (c.toNat - '0'.toNat)
  else if 'a' ≤ c && c ≤ 'f' then some (c.toNat - 'a'.toNat + 10)
  else if 'A' ≤ c && c ≤ 'F' then some (c.toNat - 'A'.toNat + 10)
  else none

/-- The number four hexadecimal digits write. -/
def hex? (a b c d : Char) : Option Nat := do
  let a ← hexDigit? a
  let b ← hexDigit? b
  let c ← hexDigit? c
  let d ← hexDigit? d
  return ((a * 16 + b) * 16 + c) * 16 + d

/-- What a single character stands for behind a backslash. -/
def escaped? (c : Char) : Option Char :=
  match c with
  | '"' => some '"'
  | '\\' => some '\\'
  | '/' => some '/'
  | 'b' => some '\x08'
  | 'f' => some '\x0c'
  | 'n' => some '\n'
  | 'r' => some '\r'
  | 't' => some '\t'
  | _ => none

def isHighSurrogate (n : Nat) : Bool := 0xD800 ≤ n && n < 0xDC00

def isLowSurrogate (n : Nat) : Bool := 0xDC00 ≤ n && n < 0xE000

/-- The character of two surrogates. -/
def combine (high low : Nat) : Char :=
  Char.ofNat (0x10000 + (high - 0xD800) * 0x400 + (low - 0xDC00))

/-- The characters of a string up to its closing quote, and what follows it. Control
characters must be escaped, and surrogates must be paired. -/
def stringBody? : List Char → Option (List Char × List Char)
  | [] => none
  | '"' :: rest => some ([], rest)
  | '\\' :: 'u' :: a :: b :: c :: d :: '\\' :: 'u' :: e :: f :: g :: h :: rest =>
    match hex? a b c d with
    | none => none
    | some n =>
      if isHighSurrogate n then
        match hex? e f g h with
        | none => none
        | some m =>
          if isLowSurrogate m then (stringBody? rest).map fun r => (combine n m :: r.1, r.2)
          else none
      else if isLowSurrogate n then none
      else
        (stringBody? ('\\' :: 'u' :: e :: f :: g :: h :: rest)).map fun r =>
          (Char.ofNat n :: r.1, r.2)
  | '\\' :: 'u' :: a :: b :: c :: d :: rest =>
    match hex? a b c d with
    | none => none
    | some n =>
      if isHighSurrogate n || isLowSurrogate n then none
      else (stringBody? rest).map fun r => (Char.ofNat n :: r.1, r.2)
  | '\\' :: c :: rest =>
    match escaped? c with
    | none => none
    | some c => (stringBody? rest).map fun r => (c :: r.1, r.2)
  | c :: rest =>
    if c.toNat < 0x20 || c = '\\' then none
    else (stringBody? rest).map fun r => (c :: r.1, r.2)

/-! ### Numbers -/

/-- A number as it is written. -/
structure Numeral where
  negative : Bool
  whole : List Char
  fraction : Option (List Char)
  exponent : Option Int
  deriving DecidableEq, Repr

/-- The leading digits and the rest; there must be at least one. -/
def digits? (cs : List Char) : Option (List Char × List Char) :=
  if (cs.takeWhile Char.isDigit).isEmpty then none
  else some (cs.takeWhile Char.isDigit, cs.dropWhile Char.isDigit)

/-- The whole part, which has no padding. -/
def whole? (cs : List Char) : Option (List Char × List Char) := do
  let (digits, rest) ← digits? cs
  if digits.length ≠ 1 && digits.head? = some '0' then none else some (digits, rest)

def fraction? : List Char → Option (Option (List Char) × List Char)
  | '.' :: rest => (digits? rest).map fun r => (some r.1, r.2)
  | rest => some (none, rest)

/-- The digits of an exponent and whether they count down. -/
def signedDigits? : List Char → Option (Int × List Char)
  | '-' :: rest => (digits? rest).map fun r => (-(Nat.ofDigitChars 10 r.1 0 : Int), r.2)
  | '+' :: rest => (digits? rest).map fun r => ((Nat.ofDigitChars 10 r.1 0 : Int), r.2)
  | rest => (digits? rest).map fun r => ((Nat.ofDigitChars 10 r.1 0 : Int), r.2)

def exponent? : List Char → Option (Option Int × List Char)
  | 'e' :: rest | 'E' :: rest => (signedDigits? rest).map fun r => (some r.1, r.2)
  | rest => some (none, rest)

def numeral? (cs : List Char) : Option (Numeral × List Char) := do
  let (negative, rest) := if cs.head? = some '-' then (true, cs.tail) else (false, cs)
  let (whole, rest) ← whole? rest
  let (fraction, rest) ← fraction? rest
  let (exponent, rest) ← exponent? rest
  return (⟨negative, whole, fraction, exponent⟩, rest)

namespace Numeral

/-- The integer written, if there is neither fraction nor exponent. -/
def int? (n : Numeral) : Option Int :=
  if n.fraction.isSome || n.exponent.isSome || n.negative && n.whole = ['0'] then none
  else
    let m := Nat.ofDigitChars 10 n.whole 0
    some (if n.negative then -m else m)

/-- What 64 bits no longer hold. -/
def significandBound : Nat := 0x10000000000000000

/-- Append digits to a significand as long as 64 bits hold it, and count those taken. -/
def gather (significand : Nat) : List Char → Nat × Nat
  | [] => (significand, 0)
  | c :: rest =>
    let next := significand * 10 + (c.toNat - '0'.toNat)
    if next < significandBound then
      let (m, taken) := gather next rest
      (m, taken + 1)
    else (significand, 0)

/-- The largest power of ten that a float holds. -/
def maxPower : Nat := 308

def powerOfTen (k : Nat) : Float := Float.ofScientific 1 false k

/-- Divide by a power of ten, in steps where it is larger than any float. -/
def scaleDown (x : Float) (k : Nat) : Float :=
  if k ≤ maxPower then x / powerOfTen k
  else if x == 0 then x
  else scaleDown (x / powerOfTen maxPower) (k - maxPower)
termination_by k
decreasing_by exact Nat.sub_lt (by omega) (by decide)

/-- Multiply by a power of ten, unless the result is infinite. -/
def scaleUp? (x : Float) (k : Nat) : Option Float :=
  if k ≤ maxPower then
    let y := x * powerOfTen k
    if y.isInf then none else some y
  else if x == 0 then some x
  else none

/-- The float a magnitude reads as. Digits of the whole part that were not taken count
as places, those of the fraction are dropped. -/
def float? (n : Numeral) : Option Float :=
  let (m, taken) := gather 0 n.whole
  let (m, places) := gather m (n.fraction.getD [])
  let x := m.toUInt64.toFloat
  match n.exponent.getD 0 + (n.whole.length - taken : Nat) - places with
  | .ofNat k => scaleUp? x k
  | .negSucc k => some (scaleDown x (k + 1))

def value? (n : Numeral) : Option Value :=
  match n.int?.bind Integer.ofInt? with
  | some k => some (integer k)
  | none => n.float?.map fun x => float (if n.negative then -x else x)

end Numeral

/-! ### Values -/

/-- The value at the front of a text, and what follows it. -/
def read? : List Char → Option (Value × List Char)
  | '"' :: rest => (stringBody? rest).map fun r => (string (String.ofList r.1), r.2)
  | rest => do
    let (n, rest) ← numeral? rest
    let v ← n.value?
    return (v, rest)

/-- The value a JSON text holds. -/
def ofJson? (text : String) : Option Value :=
  match read? (text.toList.dropWhile isJsonSpace) with
  | some (v, rest) => if rest.all isJsonSpace then some v else none
  | none => none

end MessagePattern.Value
