/-! Character classes of the pattern language.

White space and punctuation are the two immutable Unicode properties
Pattern_White_Space and Pattern_Syntax; an identifier is a run of characters that
belong to neither. The tables are closed: no version of Unicode changes them.

`not_isIdentifierChar_of_isWhiteSpace`: no white space can be part of a word. -/
namespace MessagePattern.Lexis

/-- Inclusive ranges of code points. -/
abbrev Ranges := List (Nat × Nat)

def Ranges.contains (ranges : Ranges) (code : Nat) : Bool :=
  ranges.any fun r => r.1 ≤ code && code ≤ r.2

/-- Pattern_White_Space. -/
def whiteSpaceRanges : Ranges :=
  [(0x09, 0x0D), (0x20, 0x20), (0x85, 0x85), (0x200E, 0x200F), (0x2028, 0x2029)]

/-- Pattern_Syntax. -/
def punctuationRanges : Ranges :=
  [(0x21, 0x2F), (0x3A, 0x40), (0x5B, 0x5E), (0x60, 0x60), (0x7B, 0x7E),
    (0xA1, 0xA7), (0xA9, 0xA9), (0xAB, 0xAC), (0xAE, 0xAE), (0xB0, 0xB1), (0xB6, 0xB6),
    (0xBB, 0xBB), (0xBF, 0xBF), (0xD7, 0xD7), (0xF7, 0xF7),
    (0x2010, 0x2027), (0x2030, 0x203E), (0x2041, 0x2053), (0x2055, 0x205E),
    (0x2190, 0x245F), (0x2500, 0x2775), (0x2794, 0x2BFF), (0x2E00, 0x2E7F),
    (0x3001, 0x3003), (0x3008, 0x3020), (0x3030, 0x3030),
    (0xFD3E, 0xFD3F), (0xFE45, 0xFE46)]

def isWhiteSpace (c : Char) : Bool := whiteSpaceRanges.contains c.toNat

def isPunctuation (c : Char) : Bool := punctuationRanges.contains c.toNat

/-- Identifiers hold every character that is neither white space nor punctuation,
digits and letters of all scripts alike. -/
def isIdentifierChar (c : Char) : Bool := !isWhiteSpace c && !isPunctuation c

/-- Literal text writes these characters inside a quoted span: the braces, and in a
plural branch also the mark that stands for the operand. -/
def needsQuoting (inPlural : Bool) (c : Char) : Bool :=
  c == '{' || c == '}' || inPlural && c == '#'

/-- An argument is numbered from zero without padding, so `01` names none. -/
def isPaddedNumber (word : String) : Bool :=
  match word.toList with
  | '0' :: c :: rest => (c :: rest).all Char.isDigit
  | _ => false

theorem not_isIdentifierChar_of_isWhiteSpace {c : Char} (h : isWhiteSpace c = true) :
    isIdentifierChar c = false := by
  simp [isIdentifierChar, h]

end MessagePattern.Lexis
