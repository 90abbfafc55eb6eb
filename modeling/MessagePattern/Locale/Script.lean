import MessagePattern.Locale.Basic

/-! The scripts that tags leave out.

A language is usually written in one script, though in some regions in another. A tag
that names no script means the usual one of its region. Languages that no table lists
count as written in Latin script everywhere, except that no usual script is on record
for Bokmål, so that naming even the Latin one sets a tag apart. -/
namespace MessagePattern

/-- Languages not usually written in Latin script. -/
def usualScripts : List (List String × String) := [
  (["be", "bg", "kk", "mk", "ru", "sr", "uk"], "Cyrl"),
  (["ar", "fa"], "Arab"),
  (["hi", "mr", "ne"], "Deva"),
  (["am"], "Ethi"), (["bn"], "Beng"), (["el"], "Grek"), (["gu"], "Gujr"), (["he"], "Hebr"),
  (["hy"], "Armn"), (["ja"], "Jpan"), (["ka"], "Geor"), (["kn"], "Knda"), (["ko"], "Kore"),
  (["my"], "Mymr"), (["or"], "Orya"), (["pa"], "Guru"), (["si"], "Sinh"), (["ta"], "Taml"),
  (["te"], "Telu"), (["th"], "Thai"), (["zh"], "Hans")]

/-- Regions where a language is written in another script than it usually is. -/
def regionalScripts : List ((String × List String) × String) := [
  (("az", ["IQ", "IR"]), "Arab"), (("az", ["RU"]), "Cyrl"),
  (("kk", ["AF", "CN", "IR", "MN"]), "Arab"),
  (("ms", ["CC"]), "Arab"),
  (("pa", ["PK"]), "Arab"),
  (("sr", ["ME", "RO", "TR"]), "Latn"),
  (("zh", ["AU", "BN", "GB", "GF", "HK", "ID", "MO", "PA", "PF", "PH", "SR", "TH", "TW", "US",
    "VN"]), "Hant")]

namespace LanguageId

/-- The script the language is usually written in, if one is on record. -/
def usualScript? (l : LanguageId) : Option String :=
  match usualScripts.find? (·.1.contains l.language) with
  | some (_, script) => some script
  | none => if l.language = "nb" then none else some "Latn"

/-- The script the language is written in where the region has one of its own for it. -/
def regionalScript? (l : LanguageId) : Option String :=
  (regionalScripts.find? fun e => e.1.1 == l.language && l.region.any e.1.2.contains).map (·.2)

/-- The script meant: the one named, or else the usual one of the region. -/
def writtenScript? (l : LanguageId) : Option String :=
  l.script <|> l.regionalScript? <|> l.usualScript?

end LanguageId

end MessagePattern
