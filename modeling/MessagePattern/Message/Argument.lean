/-! How the value of a typed argument is to be shown.

A type or style written in a pattern is one of a closed set of keywords; the
remaining constructors are met only in messages built without a pattern. Reading a
keyword, writing it and suggesting it each have a list of their own. That the three agree
is `ofKeyword_keyword`, `ofKeyword_spelled` and `ofKeyword_eq_invalid_iff`, for types and
for styles. -/
namespace MessagePattern

inductive ArgumentType where
  /-- No type was asked for. -/
  | default
  | date
  | duration
  | number
  | ordinal
  | spellout
  | time
  /-- Stands for a word that is no type. -/
  | invalid
  deriving DecidableEq, Repr

inductive ArgumentStyle where
  /-- No style was asked for. -/
  | default
  | currency
  | full
  | integer
  | long
  | medium
  | percent
  | short
  /-- A style given as free text. -/
  | text
  /-- A style given as a number or date skeleton. -/
  | skeleton
  /-- Stands for a word that is no style. -/
  | invalid
  deriving DecidableEq, Repr

namespace ArgumentType

/-- The types that have a keyword. -/
def spelled : List ArgumentType := [date, duration, number, ordinal, spellout, time]

/-- The keyword of a type, empty for a type without one. -/
def keyword : ArgumentType → String
  | date => "date"
  | duration => "duration"
  | number => "number"
  | ordinal => "ordinal"
  | spellout => "spellout"
  | time => "time"
  | default | invalid => ""

/-- The type a word spells, `invalid` if it spells none. -/
def ofKeyword (word : String) : ArgumentType :=
  match word with
  | "date" => date
  | "duration" => duration
  | "number" => number
  | "ordinal" => ordinal
  | "spellout" => spellout
  | "time" => time
  | _ => invalid

/-- The words that spell a type, in the order in which they are suggested. -/
def keywords : List String := ["date", "duration", "number", "ordinal", "spellout", "time"]

theorem keywords_eq : keywords = spelled.map keyword := rfl

theorem ofKeyword_keyword {t : ArgumentType} (h : t ∈ spelled) : ofKeyword t.keyword = t := by
  cases t <;> first | rfl | simp [spelled] at h

/-- A word that spells a type is the keyword of that type. -/
theorem ofKeyword_spelled {word : String} (h : ofKeyword word ≠ invalid) :
    ofKeyword word ∈ spelled ∧ (ofKeyword word).keyword = word := by
  unfold ofKeyword at *
  split at h
  all_goals first
    | exact absurd rfl h
    | exact ⟨by decide, rfl⟩

theorem ofKeyword_eq_invalid_iff {word : String} : ofKeyword word = invalid ↔ word ∉ keywords := by
  rw [keywords_eq, List.mem_map]
  apply Iff.intro
  · rintro h ⟨t, ht, rfl⟩
    rw [ofKeyword_keyword ht] at h
    exact absurd (h ▸ ht) (by decide)
  · exact fun h => Decidable.not_not.1 fun hvalid => h ⟨_, ofKeyword_spelled hvalid⟩

end ArgumentType

namespace ArgumentStyle

/-- The styles that have a keyword. -/
def spelled : List ArgumentStyle := [currency, full, integer, long, medium, percent, short]

/-- The keyword of a style, empty for a style without one. -/
def keyword : ArgumentStyle → String
  | currency => "currency"
  | full => "full"
  | integer => "integer"
  | long => "long"
  | medium => "medium"
  | percent => "percent"
  | short => "short"
  | default | text | skeleton | invalid => ""

/-- The style a word spells, `invalid` if it spells none. -/
def ofKeyword (word : String) : ArgumentStyle :=
  match word with
  | "currency" => currency
  | "full" => full
  | "integer" => integer
  | "long" => long
  | "medium" => medium
  | "percent" => percent
  | "short" => short
  | _ => invalid

/-- The words that spell a style, in the order in which they are suggested. -/
def keywords : List String :=
  ["currency", "full", "integer", "long", "medium", "percent", "short"]

theorem keywords_eq : keywords = spelled.map keyword := rfl

theorem ofKeyword_keyword {s : ArgumentStyle} (h : s ∈ spelled) : ofKeyword s.keyword = s := by
  cases s <;> first | rfl | simp [spelled] at h

/-- A word that spells a style is the keyword of that style. -/
theorem ofKeyword_spelled {word : String} (h : ofKeyword word ≠ invalid) :
    ofKeyword word ∈ spelled ∧ (ofKeyword word).keyword = word := by
  unfold ofKeyword at *
  split at h
  all_goals first
    | exact absurd rfl h
    | exact ⟨by decide, rfl⟩

theorem ofKeyword_eq_invalid_iff {word : String} : ofKeyword word = invalid ↔ word ∉ keywords := by
  rw [keywords_eq, List.mem_map]
  apply Iff.intro
  · rintro h ⟨s, hs, rfl⟩
    rw [ofKeyword_keyword hs] at h
    exact absurd (h ▸ hs) (by decide)
  · exact fun h => Decidable.not_not.1 fun hvalid => h ⟨_, ofKeyword_spelled hvalid⟩

end ArgumentStyle

end MessagePattern
