import MessagePattern.Integer
import MessagePattern.Message.Basic
import MessagePattern.Json

/-! The stored form of messages.

A message is an object with its parts. A part is an object with one field, named for
the kind of part, and the marker is a bare string. Types and styles are stored by name.
Reading demands every field once with a value of its kind and passes over fields it does not
know; branches are put in order whatever order they are stored in, and of branches under one
key the last is kept. -/
namespace MessagePattern

/-! ### Names of types and styles -/

def ArgumentType.storedNames : List (ArgumentType × String) :=
  [(.default, "Default"), (.date, "Date"), (.duration, "Duration"), (.number, "Number"),
    (.ordinal, "Ordinal"), (.spellout, "Spellout"), (.time, "Time"), (.invalid, "Invalid")]

def ArgumentStyle.storedNames : List (ArgumentStyle × String) :=
  [(.default, "Default"), (.currency, "Currency"), (.full, "Full"), (.integer, "Integer"),
    (.long, "Long"), (.medium, "Medium"), (.percent, "Percent"), (.short, "Short"),
    (.text, "Text"), (.skeleton, "Skeleton"), (.invalid, "Invalid")]

def ArgumentType.storedName (t : ArgumentType) : String := (storedNames.lookup t).getD ""

def ArgumentStyle.storedName (s : ArgumentStyle) : String := (storedNames.lookup s).getD ""

def ArgumentType.ofStoredName? (name : String) : Option ArgumentType :=
  (storedNames.find? (·.2 == name)).map (·.1)

def ArgumentStyle.ofStoredName? (name : String) : Option ArgumentStyle :=
  (storedNames.find? (·.2 == name)).map (·.1)

/-! ### Writing -/

mutual

def Part.toJson : Part → Json
  | .text value => .object [("Text", .string value)]
  | .plain a => .object [("PlainArg", .object [("arg_id", .string a)])]
  | .simple a t s =>
    .object [("SimpleArg", .object [("arg_id", .string a), ("arg_type", .string t.storedName),
      ("arg_style", .string s.storedName)])]
  | .select a bs =>
    .object [("SelectArg", .object [("arg_id", .string a),
      ("categories", .object (Branches.toFields bs))])]
  | .plural a o n bs =>
    .object [("PluralArg", .object [("arg_id", .string a), ("ordinal", .bool o),
      ("offset", .integer n.toInt), ("categories", .object (Branches.toFields bs))])]
  | .marker => .string "PluralValue"

/-- The parts of a message in order. -/
def Message.toItems : List Part → List Json
  | [] => []
  | p :: ps => p.toJson :: Message.toItems ps

/-- One field for each branch, named by its key. -/
def Branches.toFields : List (String × List Part) → List (String × Json)
  | [] => []
  | (k, m) :: bs => (k, .object [("parts", .array (Message.toItems m))]) :: Branches.toFields bs

end

def Message.toJson (m : Message) : Json := .object [("parts", .array (toItems m))]

/-! ### Reading -/

/-- The offset of a plural, an integer of 64 bits. -/
def offset? (j : Json) : Option Int64 := j.integer?.bind Integer.ofInt?

/-- A part without branches, from the name of its kind and its content. -/
def Part.ofLeaf? (kind : String) (content : Json) : Option Part :=
  match kind with
  | "Text" => content.string?.map .text
  | "PlainArg" => ((content.field? "arg_id").bind Json.string?).map .plain
  | "SimpleArg" => do
    let a ← (content.field? "arg_id").bind Json.string?
    let t ← (content.field? "arg_type").bind Json.string?
    let s ← (content.field? "arg_style").bind Json.string?
    return .simple a (← ArgumentType.ofStoredName? t) (← ArgumentStyle.ofStoredName? s)
  | _ => none

/-- A part with branches, from the name of its kind, its content and its branches. -/
def Part.ofBranches? (kind : String) (content : Json) (branches : Branches) : Option Part :=
  match kind with
  | "SelectArg" => do
    let a ← (content.field? "arg_id").bind Json.string?
    return .select a branches
  | "PluralArg" => do
    let a ← (content.field? "arg_id").bind Json.string?
    let o ← (content.field? "ordinal").bind Json.bool?
    let n ← (content.field? "offset").bind offset?
    return .plural a o n branches
  | _ => none

mutual

/-- The message a tree stores. -/
def Message.ofJson? : Json → Option Message
  | .object fields => Message.ofFields? fields
  | _ => none

/-- The message in the field `parts`, which is there once. -/
def Message.ofFields? : List (String × Json) → Option Message
  | [] => none
  | (name, j) :: rest =>
    if name = "parts" then
      if rest.any (·.1 == "parts") then none
      else
        match j with
        | .array items => Message.ofItems? items
        | _ => none
    else Message.ofFields? rest

def Message.ofItems? : List Json → Option Message
  | [] => some []
  | j :: rest =>
    match Part.ofJson? j, Message.ofItems? rest with
    | some p, some ps => some (p :: ps)
    | _, _ => none

/-- The part a tree stores. -/
def Part.ofJson? : Json → Option Part
  | .string s => if s = "PluralValue" then some .marker else none
  | .object [(kind, content)] =>
    match Part.ofLeaf? kind content with
    | some p => some p
    | none =>
      match content with
      | .object fields => (Branches.ofFields? fields).bind (Part.ofBranches? kind content)
      | _ => none
  | _ => none

/-- The branches in the field `categories`, which is there once. -/
def Branches.ofFields? : List (String × Json) → Option Branches
  | [] => none
  | (name, j) :: rest =>
    if name = "categories" then
      if rest.any (·.1 == "categories") then none
      else
        match j with
        | .object fields => Branches.ofCategories? fields
        | _ => none
    else Branches.ofFields? rest

/-- One branch for each key, that of the last field with it. -/
def Branches.ofCategories? : List (String × Json) → Option Branches
  | [] => some []
  | (k, j) :: rest =>
    match Message.ofJson? j, Branches.ofCategories? rest with
    | some m, some bs => some (insertMissing k m bs)
    | _, _ => none

end

end MessagePattern
