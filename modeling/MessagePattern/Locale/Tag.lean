import MessagePattern.Ascending
import MessagePattern.Locale.Basic

/-! Reading locale tags.

A tag is a sequence of subtags of ASCII letters and digits separated by hyphens:
language, script, region, variants, then a Unicode extension and a private part, all
but the language optional and in this order. Tags with other extensions are not read.
Case is without meaning. What a subtag is follows from its length and its digits. -/
namespace MessagePattern.Locale

/-- A subtag in lower case. -/
abbrev Subtag := List Char

/-- Cut a tag at its hyphens. -/
def cut : List Char → List Subtag
  | [] => [[]]
  | c :: rest =>
    if c = '-' then [] :: cut rest
    else
      match cut rest with
      | [] => [[c.toLower]]
      | t :: ts => (c.toLower :: t) :: ts

namespace Subtag

def isAlpha (t : Subtag) : Bool := t.all Char.isAlpha

def isAlphanum (t : Subtag) : Bool := t.all Char.isAlphanum

def lengthIn (t : Subtag) (low high : Nat) : Bool := low ≤ t.length && t.length ≤ high

def isLanguage (t : Subtag) : Bool := t.isAlpha && t.lengthIn 2 3

def isScript (t : Subtag) : Bool := t.isAlpha && t.length == 4

def isRegion (t : Subtag) : Bool :=
  t.isAlpha && t.length == 2 || t.all Char.isDigit && t.length == 3

/-- A variant of four characters begins with a digit. -/
def isVariant (t : Subtag) : Bool :=
  t.isAlphanum && (t.lengthIn 5 8 || t.length == 4 && (t.head?.any Char.isDigit))

/-- An attribute of the Unicode extension, or the value of a keyword. -/
def isValue (t : Subtag) : Bool := t.isAlphanum && t.lengthIn 3 8

/-- The key of a keyword ends in a letter. -/
def isKey (t : Subtag) : Bool :=
  t.isAlphanum && t.length == 2 && (t.getLast?.any Char.isAlpha)

def isPrivate (t : Subtag) : Bool := t.isAlphanum && t.lengthIn 1 8

def text (t : Subtag) : String := String.ofList t

def upper (t : Subtag) : String := String.ofList (t.map Char.toUpper)

/-- A script has a capital and then small letters. -/
def title : Subtag → String
  | [] => ""
  | c :: rest => String.ofList (c.toUpper :: rest)

end Subtag

/-- Take the first subtag if it is of a kind. -/
def takeIf (p : Subtag → Bool) : List Subtag → Option Subtag × List Subtag
  | [] => (none, [])
  | t :: rest => if p t then (some t, rest) else (none, t :: rest)

/-- The values in front of the first key, and the keys with the values behind them. -/
def keyed? : List Subtag → Option (List Subtag × List (Subtag × List Subtag))
  | [] => some ([], [])
  | t :: rest =>
    match keyed? rest with
    | none => none
    | some (values, keywords) =>
      if t.isKey then some ([], (t, values) :: keywords)
      else if t.isValue then some (t :: values, keywords)
      else none

/-- The value `true` is implied by its key and not kept. -/
def keptValues (values : List Subtag) : List String :=
  (values.map Subtag.text).filter (· ≠ "true")

/-- The body of a Unicode extension, which must not be empty. Of keywords with one key
the first counts. -/
def extension? (body : List Subtag) : Option (List String × List (String × List String)) :=
  match keyed? body with
  | none | some ([], []) => none
  | some (attributes, keywords) =>
    some ((attributes.map Subtag.text).foldr insertKey [],
      keywords.foldr (fun k rest => insertEntry k.1.text (keptValues k.2) rest) [])

/-- The Unicode extension, if the subtags begin with one; it ends in front of the next
single character. -/
def takeExtension? :
    List Subtag → Option ((List String × List (String × List String)) × List Subtag)
  | ['u'] :: rest =>
    (extension? (rest.takeWhile (·.length ≠ 1))).map fun e =>
      (e, rest.dropWhile (·.length ≠ 1))
  | rest => some (([], []), rest)

/-- The private part, which is all that is left. -/
def privateUse? : List Subtag → Option (List String)
  | [] => some []
  | ['x'] :: t :: rest =>
    if (t :: rest).all Subtag.isPrivate then some ((t :: rest).map Subtag.text) else none
  | _ => none

/-- Variants are a set: none is repeated. -/
def variants? (variants : List Subtag) : Option (List String) :=
  if (variants.map Subtag.text).Nodup then some ((variants.map Subtag.text).foldr insertKey [])
  else none

/-- The locale of a tag. -/
def ofTag? (tag : String) : Option Locale :=
  match cut tag.toList with
  | [] => none
  | language :: rest =>
    if language.isLanguage then
      let (script, rest) := takeIf Subtag.isScript rest
      let (region, rest) := takeIf Subtag.isRegion rest
      match variants? (rest.takeWhile Subtag.isVariant),
        takeExtension? (rest.dropWhile Subtag.isVariant) with
      | some variants, some ((attributes, keywords), rest) =>
        (privateUse? rest).map fun privateUse =>
          ⟨⟨language.text, script.map Subtag.title, region.map Subtag.upper, variants⟩,
            attributes, keywords, [], privateUse⟩
      | _, _ => none
    else none

end MessagePattern.Locale
