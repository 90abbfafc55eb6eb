/-! Locales.

A language identifier names a language and may narrow it by script, region and
variants. A locale adds the attributes and keywords of a Unicode extension, other
extensions and a private part, none of which bears on plural rules. Every subtag is kept
in its canonical case, lists whose order carries no meaning are kept ascending, and
`Locale.tag` writes the subtags one behind the other. -/
namespace MessagePattern

structure LanguageId where
  language : String
  script : Option String
  region : Option String
  variants : List String
  deriving DecidableEq, Repr

structure Locale where
  id : LanguageId
  attributes : List String
  /-- Keys with their value subtags. -/
  keywords : List (String × List String)
  /-- The other extensions, each with its subtags under its singleton. -/
  others : List (String × List String)
  privateUse : List String
  deriving DecidableEq, Repr

namespace LanguageId

def subtags (l : LanguageId) : List String :=
  l.language :: l.script.toList ++ l.region.toList ++ l.variants

end LanguageId

namespace Locale

/-- Each name with what belongs to it behind. -/
def entries (named : List (String × List String)) : List String :=
  named.flatMap fun e => e.1 :: e.2

/-- A singleton is written only in front of subtags. -/
def introduced (singleton : String) : List String → List String
  | [] => []
  | rest => singleton :: rest

/-- Extensions are written in the order of their singletons, the private part last. -/
def subtags (l : Locale) : List String :=
  l.id.subtags ++ entries (l.others.filter (·.1 < "u")) ++
    introduced "u" (l.attributes ++ entries l.keywords) ++
    entries (l.others.filter ("u" < ·.1)) ++ introduced "x" l.privateUse

/-- The canonical tag. -/
def tag (l : Locale) : String := "-".intercalate l.subtags

/-- How tags are read: the locale of a tag, if it is one. -/
abbrev Reader := String → Option Locale

end Locale

end MessagePattern
