import MessagePattern.Suggestion
import MessagePattern.Value.Basic

/-! Why a compiled message cannot be formatted. -/
namespace MessagePattern

inductive FormatError where
  | missingArgument (name : String)
  | mismatch (name : String) (expected actual : ValueKind)
  /-- A select has no branch for the value of its argument. -/
  | unmatched (name value : String) (suggestions : List String)
  /-- An operand minus its offset is no integer of 64 bits. -/
  | overflow (name : String)
  deriving DecidableEq, Repr

def FormatError.message : FormatError → String
  | missingArgument name => s!"missing argument '{name}'"
  | mismatch name expected actual =>
    s!"argument '{name}' must be {expected.name}, got {actual.name}"
  | unmatched name value suggestions =>
    s!"select argument '{name}' has no branch for '{value}'" ++ Suggestion.didYouMean suggestions
  | overflow name => s!"plural operand of argument '{name}' overflows after applying the offset"

end MessagePattern
