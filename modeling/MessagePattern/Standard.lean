import MessagePattern.Format.OfPattern
import MessagePattern.Locale.Tag
import MessagePattern.Plural.Cldr

/-! The library as it is run.

Reading locale tags and the plural rules of languages are parameters everywhere else. Here
tags are read by `Locale.ofTag?`, and rules come from the tables of the CLDR. -/
namespace MessagePattern.Standard

open Plural (Category Question)

def compile (limits : Limits) (tag : String) (m : Message) :
    Except CompileError CompiledMessage :=
  m.compile Locale.ofTag? limits tag

def ofPattern (tag pattern : String) : Except Error CompiledMessage :=
  CompiledMessage.ofPattern Locale.ofTag? tag pattern

/-- Format a pattern once, with nothing remembered. -/
def format (tag pattern : String) (args : Arguments) : Except Error String :=
  (MessagePattern.format Locale.ofTag? .cldr tag pattern args []).1

/-- The category the tables give. -/
def category (q : Question) : Category := Plural.Source.cldr.fresh q

end MessagePattern.Standard
