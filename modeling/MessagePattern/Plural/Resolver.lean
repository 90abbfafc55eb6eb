import MessagePattern.Locale.Basic
import MessagePattern.Plural.Category

/-! Choosing a plural category for a locale.

Where the rules of a language come from is a parameter, a `Source`: it builds rules for a
language identifier and for cardinal or ordinal use, where it has any, and tells the category
of a number under them. Where it has none every number is `other`.

Rules that were built are remembered with what they were built for, and looked up before any
are built again. -/
namespace MessagePattern.Plural

/-- What formatting asks a resolver: the category of an operand, for ordinal or for
cardinal use. -/
structure Question where
  locale : Locale
  operand : Int64
  ordinal : Bool
  deriving DecidableEq, Repr

/-- Where rules come from. -/
structure Source (ρ : Type) where
  /-- The rules of a language identifier, for ordinal use or not. -/
  build : LanguageId → Bool → Option ρ
  category : ρ → Int64 → Category

namespace Source

/-- Rules built before, with what they were built for. -/
abbrev Memory (ρ : Type) := List ((LanguageId × Bool) × ρ)

variable {ρ : Type} (source : Source ρ)

/-- The answer of rules built for the question. -/
def fresh (q : Question) : Category :=
  match source.build q.locale.id q.ordinal with
  | some rules => source.category rules q.operand
  | none => .other

/-- Answer from the memory, or build the rules and remember them. -/
def resolve (memory : Memory ρ) (q : Question) : Category × Memory ρ :=
  match memory.lookup (q.locale.id, q.ordinal) with
  | some rules => (source.category rules q.operand, memory)
  | none =>
    match source.build q.locale.id q.ordinal with
    | some rules =>
      (source.category rules q.operand, memory ++ [((q.locale.id, q.ordinal), rules)])
    | none => (.other, memory)

end Source

end MessagePattern.Plural
