/-! The six plural categories and their keywords.

Reading a keyword, writing it and suggesting it agree: `ofKeyword?_eq_some_iff` and
`mem_keywords_iff`. -/
namespace MessagePattern.Plural

inductive Category where
  | zero
  | one
  | two
  | few
  | many
  | other
  deriving DecidableEq, Repr

namespace Category

def keyword : Category → String
  | zero => "zero"
  | one => "one"
  | two => "two"
  | few => "few"
  | many => "many"
  | other => "other"

/-- The words that spell a category, in the order in which they are suggested. -/
def keywords : List String := ["zero", "one", "two", "few", "many", "other"]

/-- The category a word spells. -/
def ofKeyword? (word : String) : Option Category :=
  match word with
  | "zero" => some zero
  | "one" => some one
  | "two" => some two
  | "few" => some few
  | "many" => some many
  | "other" => some other
  | _ => none

theorem ofKeyword?_keyword (c : Category) : ofKeyword? c.keyword = some c := by cases c <;> rfl

theorem ofKeyword?_eq_some_iff {word : String} {c : Category} :
    ofKeyword? word = some c ↔ word = c.keyword := by
  apply Iff.intro
  · intro h
    unfold ofKeyword? at h
    split at h
    all_goals first | cases h; rfl | cases h
  · rintro rfl
    exact ofKeyword?_keyword c

theorem mem_keywords_iff {word : String} : word ∈ keywords ↔ ∃ c : Category, c.keyword = word := by
  apply Iff.intro
  · intro h
    have hspells : ∀ w ∈ keywords, (ofKeyword? w).isSome = true := by decide
    obtain ⟨c, hc⟩ := Option.isSome_iff_exists.1 (hspells word h)
    exact ⟨c, (ofKeyword?_eq_some_iff.1 hc).symm⟩
  · rintro ⟨c, rfl⟩
    cases c <;> decide

end Category

end MessagePattern.Plural
