import MessagePattern.Message.Argument

/-! The words that may follow the name of an argument. -/
namespace MessagePattern.Lexis

def selectWord : String := "select"

def pluralWord : String := "plural"

def ordinalWord : String := "selectordinal"

/-- The word that a plural offset follows. -/
def offsetWord : String := "offset"

/-- The word that introduces a plural argument. -/
def pluralKeyword (ordinal : Bool) : String := if ordinal then ordinalWord else pluralWord

/-- Every word accepted behind an argument's name, in the order of suggestions. -/
def argumentKeywords : List String :=
  [selectWord, pluralWord, ordinalWord] ++ ArgumentType.keywords

end MessagePattern.Lexis
