import MessagePattern.Locale.Script
import MessagePattern.Plural.Resolver
import MessagePattern.Plural.Tables

/-! The rules of the CLDR as a source.

The rules of a language identifier are looked up by language. A language written in
another script than it usually is has no rules, be the script named or implied by the
region; only Hindi in Latin script follows English. The two written forms of Norwegian
follow its common rules, and some regions of Portuguese follow the rules of Portugal. -/
namespace MessagePattern.Plural

/-- Languages that follow the rules of a broader one. -/
def followed : List (String × String) := [("nb", "no"), ("nn", "no")]

/-- The regions whose Portuguese follows that of Portugal. -/
def europeanPortuguese : List String :=
  ["PT", "AO", "MZ", "CH", "CV", "FR", "GQ", "GW", "LU", "MO", "ST", "TL"]

/-- The name under which the tables list the rules to follow. -/
def tableName? (id : LanguageId) : Option String :=
  if id.writtenScript? = id.usualScript? then
    if id.language = "pt" && id.region.any europeanPortuguese.contains then some "pt-PT"
    else some ((followed.lookup id.language).getD id.language)
  else if id.language = "hi" && id.writtenScript? = some "Latn" then some "en"
  else none

/-- The rules of a language identifier, if there are any. -/
def rules? (id : LanguageId) (ordinal : Bool) : Option Rules :=
  (tableName? id).bind fun name =>
    ((if ordinal then ordinalTable else cardinalTable).find? (·.1.contains name)).map (·.2)

/-- Numbers are counted without their sign. -/
def magnitude (n : Int64) : Nat := n.toInt.natAbs

/-- The rules of the tables. -/
def Source.cldr : Source Rules := ⟨rules?, fun rules n => rules.category (magnitude n)⟩

end MessagePattern.Plural
