import MessagePattern.Compiled.Compile
import MessagePattern.Format.Evaluate
import MessagePattern.Pattern.Parse

/-! From a pattern to its text.

How locale tags are read and where plural rules come from are parameters;
`MessagePattern.Standard` gives both. -/
namespace MessagePattern

/-- The error of whichever stage failed. -/
inductive Error where
  | parse (e : ParseError)
  | compile (e : CompileError)
  | format (e : FormatError)
  deriving DecidableEq, Repr

def Error.message : Error → String
  | parse e => e.message
  | compile e => e.message
  | format e => e.message

/-- Parse and compile a pattern under the standard limits. The pattern is at fault
before the locale. -/
def CompiledMessage.ofPattern (reader : Locale.Reader) (tag pattern : String) :
    Except Error CompiledMessage :=
  match Pattern.parse .standard pattern with
  | .error e => .error (.parse e)
  | .ok m => (m.compile reader .standard tag).mapError .compile

/-- Format a pattern once, with the rules of a source. -/
def format {ρ : Type} (reader : Locale.Reader) (source : Plural.Source ρ) (tag pattern : String)
    (args : Arguments) (memory : Plural.Source.Memory ρ) :
    Except Error String × Plural.Source.Memory ρ :=
  match CompiledMessage.ofPattern reader tag pattern with
  | .error e => (.error e, memory)
  | .ok m => ((m.format source args memory).1.mapError .format, (m.format source args memory).2)

end MessagePattern
