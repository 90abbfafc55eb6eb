import MessagePattern.Format.Error
import MessagePattern.Locale.Basic
import MessagePattern.Message.Argument

/-! Showing typed arguments.

How a typed argument looks is left to a formatter, which is handed the text written so far
and gives the text as it goes on; nothing keeps it to writing behind. The plain one knows no
locale: it writes integers for every type, floats where a number is asked for, and strings
only where nothing is. It takes no notice of styles. -/
namespace MessagePattern

/-- An argument about to be shown. -/
structure TypedArgument where
  locale : Locale
  name : String
  type : ArgumentType
  style : ArgumentStyle
  value : Value

/-- From the text before an argument to the text after it. -/
abbrev Formatter := TypedArgument → String → Except FormatError String

/-- The values the plain formatter takes for a type. -/
def ArgumentType.accepts (type : ArgumentType) : Value → Bool
  | .integer _ => true
  | .float _ => type = .default || type = .number || type = .duration
  | .string _ => type = .default

/-- The formatter that knows no locale. -/
def Formatter.plain : Formatter := fun a out =>
  if a.type.accepts a.value then .ok (out ++ a.value.text)
  else .error (.mismatch a.name .integer a.value.kind)

end MessagePattern
