import MessagePattern.Position
import MessagePattern.Suggestion

/-! Why a pattern is refused. -/
namespace MessagePattern

inductive ParseError where
  /-- A token that does not fit where it stands. -/
  | unexpectedToken (found : String) (position : Position) (suggestions : List String)
  /-- The pattern ends inside an argument or a branch. -/
  | unexpectedEnd (position : Position)
  /-- The brace at `position` opens a branch below the deepest level allowed. -/
  | tooDeep (limit : Nat) (position : Position)
  /-- The pattern has more bytes than allowed. -/
  | tooLong (length limit : Nat)
  deriving DecidableEq, Repr

namespace ParseError

/-- Where the pattern is at fault, unless it is as a whole. -/
def position? : ParseError → Option Position
  | unexpectedToken _ p _ => some p
  | unexpectedEnd p => some p
  | tooDeep _ p => some p
  | tooLong _ _ => none

def message : ParseError → String
  | unexpectedToken found p suggestions =>
    s!"unexpected token '{found}' at {p.describe}" ++ Suggestion.didYouMean suggestions
  | unexpectedEnd p => s!"unexpected end of input at {p.describe}"
  | tooDeep limit p => s!"nesting deeper than {limit} levels at {p.describe}"
  | tooLong length limit => s!"pattern is {length} bytes, limit is {limit}"

/-- The character `c` fits nowhere at `p`. -/
def unexpectedChar (c : Char) (p : Position) : ParseError := unexpectedToken c.toString p []

end ParseError

end MessagePattern
