import MessagePattern.Suggestion

/-! Why a message cannot be compiled. -/
namespace MessagePattern

inductive CompileError where
  | invalidLocale (tag : String)
  /-- A plural has no branch for all the numbers its other branches leave. -/
  | missingOther (argument : String)
  /-- The marker stands where no plural gives it an operand. -/
  | strayMarker
  /-- A typed argument whose type or style is none. -/
  | invalidShape (argument : String)
  /-- A key of a plural is neither a category nor an equals sign and an integer. -/
  | invalidKey (argument key : String) (suggestions : List String)
  | tooDeep (limit : Nat)
  deriving DecidableEq, Repr

def CompileError.message : CompileError → String
  | invalidLocale tag => s!"invalid locale '{tag}'"
  | missingOther a => s!"plural argument '{a}' is missing the required 'other' category"
  | strayMarker => "'#' is only allowed inside a plural branch"
  | invalidShape a => s!"argument '{a}' has an invalid type or style"
  | invalidKey a key suggestions =>
    s!"plural argument '{a}' has invalid category key '{key}'" ++ Suggestion.didYouMean suggestions
  | tooDeep limit => s!"nesting deeper than {limit} levels"

end MessagePattern
