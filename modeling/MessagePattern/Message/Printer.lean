import MessagePattern.Integer
import MessagePattern.Lexis.CharClass
import MessagePattern.Lexis.Keyword
import MessagePattern.Message.Basic

/-! The pattern of a message.

Literal text is quoted so that it reads back as it was: an apostrophe is written
twice, and each run of characters that would end the text stands inside one quoted
span. An apostrophe met while a span is open is doubled without closing it. A message
that no pattern gives (neighbouring texts, a key that is no identifier) is written by
the same rules, and the result may read back differently. -/
namespace MessagePattern

open Lexis

/-! ### Text -/

/-- The quoted form of a text; `quoted` says whether a span is open in front of it. -/
def quote (inPlural : Bool) : (quoted : Bool) → List Char → List Char
  | quoted, [] => if quoted then ['\''] else []
  | quoted, c :: rest =>
    if c = '\'' then '\'' :: '\'' :: quote inPlural quoted rest
    else if needsQuoting inPlural c then
      if quoted then c :: quote inPlural true rest else '\'' :: c :: quote inPlural true rest
    else if quoted then '\'' :: c :: quote inPlural false rest
    else c :: quote inPlural false rest

/-! ### Parts -/

/-- An argument without branches: its name, then the keywords of its type and style.
The default type is not written, nor is a style behind it. -/
def printSimple (argument : String) (type : ArgumentType) (style : ArgumentStyle) : List Char :=
  if type = .default then '{' :: argument.toList ++ ['}']
  else
    '{' :: argument.toList ++ ", ".toList ++ type.keyword.toList ++
      (if style.keyword = "" then [] else ", ".toList ++ style.keyword.toList) ++ ['}']

/-- How an argument with branches begins. -/
def printHead (argument keyword : String) : List Char :=
  '{' :: argument.toList ++ ", ".toList ++ keyword.toList ++ [',']

/-- An offset is written unless it is zero. -/
def printOffset (offset : Int64) : List Char :=
  if offset = 0 then [] else ' ' :: offsetWord.toList ++ ':' :: Integer.digits offset

mutual

def Part.printChars (inPlural : Bool) : Part → List Char
  | .text value => quote inPlural false value.toList
  | .plain a => '{' :: a.toList ++ ['}']
  | .simple a t s => printSimple a t s
  | .select a bs => printHead a selectWord ++ Branches.printChars false bs ++ ['}']
  | .plural a o n bs =>
    printHead a (pluralKeyword o) ++ printOffset n ++ Branches.printChars true bs ++ ['}']
  | .marker => ['#']

/-- The parts one behind the other; `inPlural` says whether they stand directly in a
plural branch. -/
def Message.printChars (inPlural : Bool) : List Part → List Char
  | [] => []
  | p :: ps => p.printChars inPlural ++ Message.printChars inPlural ps

/-- Each branch behind a space: its key, and its message in braces. -/
def Branches.printChars (inPlural : Bool) : List (String × List Part) → List Char
  | [] => []
  | (k, m) :: bs =>
    ' ' :: k.toList ++ '{' :: Message.printChars inPlural m ++ '}' ::
      Branches.printChars inPlural bs

end

/-- The pattern of a message. -/
def Message.print (m : Message) : String := String.ofList (printChars false m)

end MessagePattern
