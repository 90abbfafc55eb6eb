import MessagePattern.Decimal.Shortest
import MessagePattern.Integer

/-! Values of arguments. -/
namespace MessagePattern

inductive ValueKind where
  | integer
  | float
  | string
  deriving DecidableEq, Repr

inductive Value where
  | integer (n : Int64)
  | float (x : Float)
  | string (s : String)

/-- How reports call a kind. -/
def ValueKind.name : ValueKind → String
  | integer => "integer"
  | float => "float"
  | string => "string"

namespace Value

def kind : Value → ValueKind
  | integer _ => .integer
  | float _ => .float
  | string _ => .string

def integer? : Value → Option Int64
  | integer n => some n
  | float _ | string _ => none

def string? : Value → Option String
  | string s => some s
  | integer _ | float _ => none

/-- The text of a value as it stands. -/
def text : Value → String
  | integer n => Integer.decimal n
  | float x => Decimal.ofFloat x
  | string s => s

/-- A float of 32 bits is widened, which is exact. -/
def ofFloat32 (x : Float32) : Value := float x.toFloat

instance : Coe Int64 Value := ⟨integer⟩
instance : Coe Float Value := ⟨float⟩
instance : Coe String Value := ⟨string⟩

end Value

end MessagePattern
