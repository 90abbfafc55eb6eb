/-! JSON trees. -/
namespace MessagePattern

inductive Json where
  | null
  | bool (value : Bool)
  /-- A number written without fraction and exponent. -/
  | integer (value : Int)
  /-- Any other number, as it is written. -/
  | number (literal : String)
  | string (value : String)
  | array (items : List Json)
  | object (fields : List (String × Json))
  deriving Inhabited

namespace Json

/-- The content of a string. -/
def string? : Json → Option String
  | string s => some s
  | _ => none

def bool? : Json → Option Bool
  | bool b => some b
  | _ => none

def integer? : Json → Option Int
  | integer n => some n
  | _ => none

/-- The value under a name that is given once. -/
def only? (name : String) : List (String × Json) → Option Json
  | [] => none
  | (n, j) :: rest =>
    if n = name then
      if rest.any (·.1 == name) then none else some j
    else only? name rest

/-- A field of an object. -/
def field? (name : String) : Json → Option Json
  | object fields => only? name fields
  | _ => none

end Json

end MessagePattern
