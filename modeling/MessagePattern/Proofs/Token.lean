import Mathlib.Data.List.Induction
import MessagePattern.Integer
import MessagePattern.Lexis.CharClass
import MessagePattern.Lexis.Keyword

/-! Tokens between braces.

Inside its braces an argument is made of words, integers and marks, with white space
between them. This file says what a word and an integer literal look like, without
saying how they are read.

`isLiteral_iff`: the literals of an integer are what is read as it. `isDecimal_iff`: of
these, one has neither padding nor a sign on zero, and it is the one that is printed. -/
namespace MessagePattern.Lexis

/-! ### White space and words -/

/-- White space, possibly none. -/
def IsBlank (cs : List Char) : Prop := ∀ c ∈ cs, isWhiteSpace c = true

/-- Identifier characters, at least one. -/
structure IsWord (cs : List Char) : Prop where
  ne_nil : cs ≠ []
  identifier : ∀ c ∈ cs, isIdentifierChar c = true

/-- A word in front of `rest` is not continued there. -/
def EndsWord (rest : List Char) : Prop := ∀ c ∈ rest.head?, isIdentifierChar c = false

/-- Two digits or more, of which the first is a zero. -/
structure IsPadded (cs : List Char) : Prop where
  long : 1 < cs.length
  zero : cs.head? = some '0'
  digits : ∀ c ∈ cs, c.isDigit = true

/-- What may name an argument: any word but a padded number. -/
structure IsArgumentName (cs : List Char) : Prop where
  word : IsWord cs
  unpadded : ¬ IsPadded cs

instance (cs : List Char) : Decidable (IsWord cs) :=
  decidable_of_iff (cs ≠ [] ∧ cs.all isIdentifierChar = true)
    ⟨fun h => ⟨h.1, List.all_eq_true.1 h.2⟩, fun h => ⟨h.1, List.all_eq_true.2 h.2⟩⟩

instance (cs : List Char) : Decidable (IsPadded cs) :=
  decidable_of_iff (1 < cs.length ∧ cs.head? = some '0' ∧ cs.all Char.isDigit = true)
    ⟨fun h => ⟨h.1, h.2.1, List.all_eq_true.1 h.2.2⟩,
      fun h => ⟨h.1, h.2, List.all_eq_true.2 h.3⟩⟩

instance (cs : List Char) : Decidable (IsArgumentName cs) :=
  decidable_of_iff (IsWord cs ∧ ¬ IsPadded cs) ⟨fun h => ⟨h.1, h.2⟩, fun h => ⟨h.1, h.2⟩⟩

theorem IsBlank.nil : IsBlank [] := fun _ h => nomatch h

theorem isBlank_space : IsBlank [' '] := by
  intro c hc
  rw [List.mem_singleton.1 hc]
  decide

theorem EndsWord.nil : EndsWord [] := fun _ h => nomatch h

theorem endsWord_cons {c : Char} {rest : List Char} (h : isIdentifierChar c = false) :
    EndsWord (c :: rest) := by
  intro d hd
  rw [← Option.some.inj hd]
  exact h

theorem isIdentifierChar_eq_false_of_isBlank {w : List Char} (hw : IsBlank w) {c : Char}
    (hc : c ∈ w) : isIdentifierChar c = false :=
  not_isIdentifierChar_of_isWhiteSpace (hw c hc)

/-- A word ends in front of white space and in front of what no word begins with. -/
theorem endsWord_append {w rest : List Char} (hw : IsBlank w) (hr : EndsWord rest) :
    EndsWord (w ++ rest) := by
  cases w with
  | nil => exact hr
  | cons c w => exact endsWord_cons (isIdentifierChar_eq_false_of_isBlank hw List.mem_cons_self)

/-- Any text is a run of one class of characters and a rest that does not go on with it. -/
theorem exists_run_append (p : Char → Bool) (cs : List Char) : ∃ w rest, cs = w ++ rest ∧
    (∀ c ∈ w, p c = true) ∧ ∀ c ∈ rest.head?, p c = false := by
  refine ⟨cs.takeWhile p, cs.dropWhile p, List.takeWhile_append_dropWhile.symm,
    List.all_eq_true.1 List.all_takeWhile, fun c hc => ?_⟩
  have := List.head?_dropWhile_not p cs
  rw [Option.mem_def.1 hc] at this
  simpa using this

/-- An identifier character begins a word. -/
theorem exists_isWord_append {c : Char} (hc : isIdentifierChar c = true) (cs : List Char) :
    ∃ w rest, c :: cs = w ++ rest ∧ IsWord w ∧ EndsWord rest := by
  obtain ⟨w, rest, heq, hw, he⟩ := exists_run_append isIdentifierChar (c :: cs)
  refine ⟨w, rest, heq, ⟨?_, hw⟩, he⟩
  intro h
  subst h
  have := he c (by rw [← List.nil_append rest, ← heq]; rfl)
  rw [hc] at this
  cases this

/-! ### Padded numbers and keywords -/

theorem isPaddedNumber_eq_true_iff {word : String} :
    isPaddedNumber word = true ↔ IsPadded word.toList := by
  unfold isPaddedNumber
  split
  next c rest h =>
    rw [h]
    apply Iff.intro
    · intro hd
      refine ⟨by simp, rfl, fun x hx => ?_⟩
      rcases List.mem_cons.1 hx with rfl | hx
      · decide
      · exact List.all_eq_true.1 hd x hx
    · intro h
      obtain ⟨-, -, hd⟩ := h
      exact List.all_eq_true.2 fun x hx => hd x (List.mem_cons_of_mem _ hx)
  next hne =>
    refine ⟨nofun, fun ⟨hl, hz, _⟩ => ?_⟩
    match hw : word.toList with
    | [] => rw [hw] at hl; exact absurd hl (by simp)
    | [c] => rw [hw] at hl; exact absurd hl (by simp)
    | c :: d :: rest =>
      rw [hw] at hz
      obtain rfl : c = '0' := Option.some.inj hz
      exact absurd hw (hne d rest)

theorem isWord_selectWord : IsWord selectWord.toList := by decide

theorem isWord_offsetWord : IsWord offsetWord.toList := by decide

theorem isWord_pluralKeyword (ordinal : Bool) : IsWord (pluralKeyword ordinal).toList := by
  cases ordinal <;> decide

theorem isWord_type {t : ArgumentType} (h : t ∈ ArgumentType.spelled) :
    IsWord t.keyword.toList := by
  cases t <;> first | decide | simp [ArgumentType.spelled] at h

theorem isWord_style {s : ArgumentStyle} (h : s ∈ ArgumentStyle.spelled) :
    IsWord s.keyword.toList := by
  cases s <;> first | decide | simp [ArgumentStyle.spelled] at h

theorem isWord_of_mem_argumentKeywords {word : String} (h : word ∈ argumentKeywords) :
    IsWord word.toList := by
  rcases List.mem_append.1 h with h | h
  · simp only [List.mem_cons, List.not_mem_nil, or_false] at h
    rcases h with rfl | rfl | rfl
    · exact isWord_selectWord
    · exact isWord_pluralKeyword false
    · exact isWord_pluralKeyword true
  · rw [ArgumentType.keywords_eq] at h
    obtain ⟨t, ht, rfl⟩ := List.mem_map.1 h
    exact isWord_type ht

theorem isWord_of_mem_styles {word : String} (h : word ∈ ArgumentStyle.keywords) :
    IsWord word.toList := by
  rw [ArgumentStyle.keywords_eq] at h
  obtain ⟨s, hs, rfl⟩ := List.mem_map.1 h
  exact isWord_style hs

end MessagePattern.Lexis

namespace MessagePattern.Integer

open Lexis

/-! ### Integers -/

/-- ASCII digits, at least one, whose value is `m`. -/
structure IsDigits (cs : List Char) (m : Nat) : Prop where
  ne_nil : cs ≠ []
  digits : ∀ c ∈ cs, c.isDigit = true
  value : Nat.ofDigitChars 10 cs 0 = m

/-- A literal of `n`: digits, padded or not, with at most a minus sign in front. -/
inductive IsLiteral (n : Int64) : List Char → Prop where
  | unsigned {ds m} : IsDigits ds m → n.toInt = m → IsLiteral n ds
  | negative {ds m} : IsDigits ds m → n.toInt = -m → IsLiteral n ('-' :: ds)

/-- The literal of `n` without padding, and without a sign on zero. -/
inductive IsDecimal (n : Int64) : List Char → Prop where
  | unsigned {ds m} : IsDigits ds m → ¬ IsPadded ds → n.toInt = m → IsDecimal n ds
  | negative {ds m} : IsDigits ds m → ds.head? ≠ some '0' → n.toInt = -m →
      IsDecimal n ('-' :: ds)

theorem isIdentifierChar_of_isDigit {c : Char} (h : c.isDigit = true) :
    isIdentifierChar c = true := by
  have hc : 48 ≤ c.toNat ∧ c.toNat ≤ 57 := by
    simpa [Char.isDigit, UInt32.le_iff_toNat_le] using h
  simp [isIdentifierChar, isWhiteSpace, isPunctuation, Ranges.contains, whiteSpaceRanges,
    punctuationRanges]
  omega

theorem IsDigits.word {cs : List Char} {m : Nat} (h : IsDigits cs m) : IsWord cs :=
  ⟨h.ne_nil, fun c hc => isIdentifierChar_of_isDigit (h.digits c hc)⟩

theorem IsDigits.head_ne_minus {rest : List Char} {m : Nat} : ¬ IsDigits ('-' :: rest) m :=
  fun h => absurd (h.digits '-' List.mem_cons_self) (by decide)

theorem natOfDigits?_eq_some_iff {cs : List Char} {m : Nat} :
    natOfDigits? cs = some m ↔ IsDigits cs m := by
  unfold natOfDigits?
  apply Iff.intro
  · intro h
    split at h
    · cases h
    · next hne =>
      split at h
      · next hd => exact ⟨hne, List.all_eq_true.1 hd, Option.some.inj h⟩
      · cases h
  · intro h
    obtain ⟨hne, hd, rfl⟩ := h
    rw [if_neg hne, if_pos (List.all_eq_true.2 hd)]

/-- What is read as an integer are its literals. -/
theorem isLiteral_iff {n : Int64} {cs : List Char} : IsLiteral n cs ↔ ofLiteral? cs = some n := by
  apply Iff.intro
  · intro h
    rcases h with ⟨hd, hn⟩ | ⟨hd, hn⟩
    · unfold ofLiteral?
      split
      · exact absurd hd IsDigits.head_ne_minus
      · rw [natOfDigits?_eq_some_iff.2 hd, Option.bind_some, ofInt?_eq_some_iff, hn]
    · rw [ofLiteral?, natOfDigits?_eq_some_iff.2 hd, Option.bind_some, ofInt?_eq_some_iff, hn]
  · intro h
    unfold ofLiteral? at h
    split at h
    · obtain ⟨m, hm, hn⟩ := Option.bind_eq_some_iff.1 h
      exact .negative (natOfDigits?_eq_some_iff.1 hm) (ofInt?_eq_some_iff.1 hn)
    · obtain ⟨m, hm, hn⟩ := Option.bind_eq_some_iff.1 h
      exact .unsigned (natOfDigits?_eq_some_iff.1 hm) (ofInt?_eq_some_iff.1 hn)

/-! ### The decimal of an integer -/

theorem isDigits_toDigits (m : Nat) : IsDigits (Nat.toDigits 10 m) m :=
  natOfDigits?_eq_some_iff.1 (natOfDigits?_toDigits m)

/-- The digits of a number other than zero do not begin with a zero. -/
theorem head_toDigits {m : Nat} (hm : m ≠ 0) : (Nat.toDigits 10 m).head? ≠ some '0' := by
  induction m using Nat.strongRecOn with
  | ind m ih =>
    rw [Nat.toDigits_eq_if (by decide)]
    split
    next hlt =>
      have : ∀ k < 10, k ≠ 0 → [k.digitChar].head? ≠ some '0' := by decide
      exact this m hlt hm
    next hle =>
      have hne : m / 10 ≠ 0 := by omega
      have hdigits : Nat.toDigits 10 (m / 10) ≠ [] := Nat.toDigits_ne_nil
      obtain ⟨c, rest, hc⟩ := List.exists_cons_of_ne_nil hdigits
      have := ih (m / 10) (by omega) hne
      rw [hc] at this ⊢
      exact this

theorem exists_digitChar {c : Char} (h : c.isDigit = true) : ∃ k < 10, c = k.digitChar := by
  have hc : 48 ≤ c.toNat ∧ c.toNat ≤ 57 := by
    simpa [Char.isDigit, UInt32.le_iff_toNat_le] using h
  have hall : ∀ n < 58, 48 ≤ n → Char.ofNat n = (n - 48).digitChar := by decide
  refine ⟨c.toNat - 48, by omega, ?_⟩
  rw [← hall c.toNat (by omega) hc.1, Char.ofNat_toNat]

/-- Digits that do not begin with a zero are those of a number other than zero. -/
theorem toDigits_ofDigitChars {ds : List Char} (hne : ds ≠ []) (hd : ∀ c ∈ ds, c.isDigit = true)
    (hz : ds.head? ≠ some '0') :
    0 < Nat.ofDigitChars 10 ds 0 ∧ Nat.toDigits 10 (Nat.ofDigitChars 10 ds 0) = ds := by
  induction ds using List.reverseRecOn with
  | nil => exact absurd rfl hne
  | append_singleton init c ih =>
    obtain ⟨k, hk, rfl⟩ := exists_digitChar (hd c (by simp))
    rw [Nat.ofDigitChars_append, Nat.ofDigitChars_cons_digitChar_of_lt_ten hk, Nat.ofDigitChars_nil]
    cases init with
    | nil =>
      have hpos : k ≠ 0 := by
        intro h
        subst h
        exact hz rfl
      rw [Nat.ofDigitChars_nil, Nat.mul_zero, Nat.zero_add, Nat.toDigits_of_lt_base hk]
      exact ⟨Nat.pos_of_ne_zero hpos, rfl⟩
    | cons d init =>
      obtain ⟨hpos, heq⟩ := ih (List.cons_ne_nil _ _)
        (fun x hx => hd x (List.mem_append_left _ hx)) hz
      refine ⟨by omega, ?_⟩
      rw [← Nat.toDigits_append_toDigits (by decide) hpos hk, heq, Nat.toDigits_of_lt_base hk]

/-- Unpadded digits are those that are printed. -/
theorem IsDigits.eq_toDigits {ds : List Char} {m : Nat} (h : IsDigits ds m) (hp : ¬ IsPadded ds) :
    ds = Nat.toDigits 10 m := by
  rw [← h.value]
  by_cases hz : ds.head? = some '0'
  · obtain ⟨rest, rfl⟩ : ∃ rest, ds = '0' :: rest := List.head?_eq_some_iff.1 hz
    cases rest with
    | nil => rfl
    | cons d rest => exact absurd ⟨by simp, rfl, h.digits⟩ hp
  · exact (toDigits_ofDigitChars h.ne_nil h.digits hz).2.symm

theorem not_isPadded_toDigits (m : Nat) : ¬ IsPadded (Nat.toDigits 10 m) := by
  intro h
  obtain ⟨hl, hz, -⟩ := h
  by_cases hm : m = 0
  · subst hm
    exact absurd hl (by decide)
  · exact head_toDigits hm hz

/-- What is printed for an integer is its one literal without padding. -/
theorem isDecimal_iff {n : Int64} {cs : List Char} : IsDecimal n cs ↔ cs = digits n := by
  unfold digits
  apply Iff.intro
  · intro h
    rcases h with ⟨hd, hp, hn⟩ | @⟨ds, m, hd, hz, hn⟩
    · rw [hn]
      exact hd.eq_toDigits hp
    · obtain ⟨hpos, heq⟩ := toDigits_ofDigitChars hd.ne_nil hd.digits hz
      rw [hd.value] at hpos heq
      obtain ⟨k, rfl⟩ := Nat.exists_eq_add_one_of_ne_zero (Nat.pos_iff_ne_zero.1 hpos)
      rw [hn, show (-((k + 1 : Nat) : Int)) = Int.negSucc k from (Int.negSucc_eq k).symm]
      exact congrArg ('-' :: ·) heq.symm
  · intro h
    split at h
    next m hm =>
      rw [h]
      exact .unsigned (isDigits_toDigits m) (not_isPadded_toDigits m) hm
    next m hm =>
      rw [h]
      refine .negative (isDigits_toDigits (m + 1)) (head_toDigits (Nat.succ_ne_zero m)) ?_
      rw [hm, Int.negSucc_eq]
      simp

theorem IsDecimal.literal {n : Int64} {cs : List Char} (h : IsDecimal n cs) : IsLiteral n cs := by
  rcases h with ⟨hd, -, hn⟩ | ⟨hd, -, hn⟩
  · exact .unsigned hd hn
  · exact .negative hd hn

end MessagePattern.Integer
