import MessagePattern.Proofs.Canonical
import MessagePattern.Proofs.Entries

/-! The grammar of patterns.

Each relation says that the characters in its first list begin with a phrase of one
kind, which stands for the value in the middle, and that the second list is what
follows. What follows is at hand because some phrases depend on it: an apostrophe stands
for itself or opens a span by the character behind it, and a text goes on as far as it
can. Nothing here says how a pattern is read.

`ReadsMessage.canonical`: whatever the grammar derives is canonical. -/
namespace MessagePattern.Pattern

open Lexis Integer

/-! ### Text -/

/-- The characters that end a text outside quoted spans: what opens an argument, closes
the branch or stands for the operand. -/
def endsText (nested inPlural : Bool) (c : Char) : Bool :=
  c == '{' || nested && c == '}' || inPlural && c == '#'

/-- No text goes on in `rest`. -/
def StopsText (nested inPlural : Bool) (rest : List Char) : Prop :=
  ∀ c ∈ rest.head?, endsText nested inPlural c = true

/-- A quoted span behind its opening apostrophe. -/
inductive ReadsSpan : List Char → List Char → List Char → Prop where
  /-- The end of the pattern closes a span. -/
  | unclosed : ReadsSpan [] [] []
  | close {rest} : rest.head? ≠ some '\'' → ReadsSpan ('\'' :: rest) [] rest
  | doubled {cs t rest} : ReadsSpan cs t rest → ReadsSpan ('\'' :: '\'' :: cs) ('\'' :: t) rest
  | char {c cs t rest} : c ≠ '\'' → ReadsSpan cs t rest → ReadsSpan (c :: cs) (c :: t) rest

/-- A text up to where it stops. -/
inductive ReadsText (nested inPlural : Bool) : List Char → List Char → List Char → Prop where
  | stop {rest} : StopsText nested inPlural rest → ReadsText nested inPlural rest [] rest
  | char {c cs t rest} : c ≠ '\'' → endsText nested inPlural c = false →
      ReadsText nested inPlural cs t rest → ReadsText nested inPlural (c :: cs) (c :: t) rest
  | doubled {cs t rest} : ReadsText nested inPlural cs t rest →
      ReadsText nested inPlural ('\'' :: '\'' :: cs) ('\'' :: t) rest
  /-- An apostrophe that stands for itself. -/
  | lone {cs t rest} : (∀ c ∈ cs.head?, c ≠ '\'' ∧ needsQuoting inPlural c = false) →
      ReadsText nested inPlural cs t rest → ReadsText nested inPlural ('\'' :: cs) ('\'' :: t) rest
  | quoted {cs s cs' t rest} : (∃ c ∈ cs.head?, needsQuoting inPlural c = true) →
      ReadsSpan cs s cs' → ReadsText nested inPlural cs' t rest →
      ReadsText nested inPlural ('\'' :: cs) (s ++ t) rest

/-! ### Arguments and messages -/

/-- A token with white space around it. -/
inductive ReadsSpaced (token : List Char) : List Char → List Char → Prop where
  | mk {w w' rest} : IsBlank w → IsBlank w' → ReadsSpaced token (w ++ (token ++ (w' ++ rest))) rest

/-- The end of a typed argument behind its type. -/
inductive ReadsStyle : List Char → ArgumentStyle → List Char → Prop where
  | default {rest} : ReadsStyle ('}' :: rest) .default rest
  | keyword {s cs rest} : s ∈ ArgumentStyle.spelled →
      ReadsSpaced s.keyword.toList cs ('}' :: rest) → ReadsStyle (',' :: cs) s rest

/-- The offset of a plural, zero where none is written. -/
inductive ReadsOffset : List Char → Int64 → List Char → Prop where
  | absent {cs} : ReadsOffset cs 0 cs
  | written {w w' cs n rest} : IsBlank w → IsBlank w' → IsLiteral n cs → EndsWord rest →
      ReadsOffset (w ++ (offsetWord.toList ++ ':' :: (w' ++ (cs ++ rest)))) n rest

/-- The key of a branch as it is written and as it is kept: an integer loses padding and
the sign on zero. -/
inductive ReadsKey : (inPlural : Bool) → List Char → String → Prop where
  | word {inPlural cs} : IsWord cs → ReadsKey inPlural cs (String.ofList cs)
  | exact {n cs} : IsLiteral n cs →
      ReadsKey true ('=' :: cs) (exactKey n)

mutual

/-- Parts one behind the other: texts, arguments and, directly in a plural branch, the
marker. As a text goes on as far as it can, no two of them touch. -/
inductive ReadsMessage : (nested inPlural : Bool) → List Char → List Part → List Char → Prop where
  | nil {nested inPlural cs} : ReadsMessage nested inPlural cs [] cs
  | text {nested inPlural cs t cs' m rest} : ReadsText nested inPlural cs t cs' → t ≠ [] →
      ReadsMessage nested inPlural cs' m rest →
      ReadsMessage nested inPlural cs (.text (String.ofList t) :: m) rest
  | argument {nested inPlural cs part cs' m rest} : ReadsArgument cs part cs' →
      ReadsMessage nested inPlural cs' m rest → ReadsMessage nested inPlural cs (part :: m) rest
  | marker {nested cs m rest} : ReadsMessage nested true cs m rest →
      ReadsMessage nested true ('#' :: cs) (.marker :: m) rest

/-- An argument in its braces. Its branches are given in any order, at least one and no
key twice, and kept in that of their keys. -/
inductive ReadsArgument : List Char → Part → List Char → Prop where
  | plain {a cs rest} : IsArgumentName a.toList → ReadsSpaced a.toList cs ('}' :: rest) →
      ReadsArgument ('{' :: cs) (.plain a) rest
  | simple {a t s cs cs₁ cs₂ rest} : IsArgumentName a.toList → t ∈ ArgumentType.spelled →
      ReadsSpaced a.toList cs (',' :: cs₁) → ReadsSpaced t.keyword.toList cs₁ cs₂ →
      ReadsStyle cs₂ s rest → ReadsArgument ('{' :: cs) (.simple a t s) rest
  | select {a given bs cs cs₁ cs₂ rest} : IsArgumentName a.toList →
      ReadsSpaced a.toList cs (',' :: cs₁) → ReadsSpaced selectWord.toList cs₁ (',' :: cs₂) →
      ReadsBranches false cs₂ given rest → given ≠ [] → Ascending bs → bs.Perm given →
      ReadsArgument ('{' :: cs) (.select a bs) rest
  | plural {a o n given bs cs cs₁ cs₂ cs₃ rest} : IsArgumentName a.toList →
      ReadsSpaced a.toList cs (',' :: cs₁) →
      ReadsSpaced (pluralKeyword o).toList cs₁ (',' :: cs₂) → ReadsOffset cs₂ n cs₃ →
      ReadsBranches true cs₃ given rest → given ≠ [] → Ascending bs → bs.Perm given →
      ReadsArgument ('{' :: cs) (.plural a o n bs) rest

/-- Branches and the brace that closes their argument. -/
inductive ReadsBranches : (inPlural : Bool) → List Char → List (String × List Part) →
    List Char → Prop where
  | close {inPlural w rest} : IsBlank w → ReadsBranches inPlural (w ++ '}' :: rest) [] rest
  | branch {inPlural key k cs cs₁ m cs₂ bs rest} : ReadsKey inPlural key k →
      ReadsSpaced key cs ('{' :: cs₁) → ReadsMessage true inPlural cs₁ m ('}' :: cs₂) →
      ReadsBranches inPlural cs₂ bs rest → ReadsBranches inPlural cs ((k, m) :: bs) rest

end

/-! ### How texts end -/

theorem ReadsText.stops {nested inPlural : Bool} {cs t rest : List Char}
    (h : ReadsText nested inPlural cs t rest) : StopsText nested inPlural rest := by
  induction h with
  | stop h => exact h
  | char _ _ _ ih => exact ih
  | doubled _ ih => exact ih
  | lone _ _ ih => exact ih
  | quoted _ _ _ ih => exact ih

theorem ne_apostrophe_of_needsQuoting {inPlural : Bool} {c : Char}
    (h : needsQuoting inPlural c = true) : c ≠ '\'' := by
  intro hc
  subst hc
  cases inPlural <;> exact absurd h (by decide)

theorem endsText_apostrophe (nested inPlural : Bool) : endsText nested inPlural '\'' = false := by
  cases nested <;> cases inPlural <;> rfl

/-- Where a text stops no other begins. -/
theorem ReadsText.eq_nil {nested inPlural : Bool} {cs t rest : List Char}
    (h : ReadsText nested inPlural cs t rest) (hs : StopsText nested inPlural cs) : t = [] := by
  have hno : ∀ {c : Char} {ds}, endsText nested inPlural c = false →
      ¬ StopsText nested inPlural (c :: ds) := by
    intro c ds hc hs
    exact absurd (hs c rfl) (by rw [hc]; decide)
  cases h with
  | stop => rfl
  | char _ hc => exact absurd hs (hno hc)
  | doubled => exact absurd hs (hno (endsText_apostrophe _ _))
  | lone => exact absurd hs (hno (endsText_apostrophe _ _))
  | quoted => exact absurd hs (hno (endsText_apostrophe _ _))

/-- What stands behind a message: the brace that closes the branch, or nothing. -/
def EndsMessage (nested : Bool) (rest : List Char) : Prop :=
  rest.head? = if nested then some '}' else none

theorem EndsMessage.stops {nested : Bool} {rest : List Char} (h : EndsMessage nested rest)
    (inPlural : Bool) : StopsText nested inPlural rest := by
  intro c hc
  unfold EndsMessage at h
  rw [Option.mem_def.1 hc] at h
  cases nested with
  | false => cases h
  | true =>
    obtain rfl := Option.some.inj h
    rfl

/-- A message behind a text does not begin with one. -/
theorem ReadsMessage.head_isText {nested inPlural : Bool} {cs rest : List Char} {m : Message}
    (h : ReadsMessage nested inPlural cs m rest) (hs : StopsText nested inPlural cs) :
    ∀ q ∈ m.head?, q.isText = false := by
  intro q hq
  cases h with
  | nil => cases hq
  | text ht hne => exact absurd (ht.eq_nil hs) hne
  | argument ha =>
    obtain rfl := Option.some.inj hq
    cases ha <;> rfl
  | marker =>
    obtain rfl := Option.some.inj hq
    rfl

theorem ReadsArgument.isText {cs rest : List Char} {p : Part} (h : ReadsArgument cs p rest) :
    p.isText = false := by
  cases h <;> rfl

/-! ### How much of the characters is left -/

theorem ReadsSpan.length_le {cs t rest : List Char} (h : ReadsSpan cs t rest) :
    t.length + rest.length ≤ cs.length := by
  induction h with
  | unclosed => exact Nat.le_refl _
  | close => simp
  | doubled _ ih => simp only [List.length_cons]; omega
  | char _ _ ih => simp only [List.length_cons]; omega

theorem ReadsText.length_le {nested inPlural : Bool} {cs t rest : List Char}
    (h : ReadsText nested inPlural cs t rest) : t.length + rest.length ≤ cs.length := by
  induction h with
  | stop => simp
  | char _ _ _ ih => simp only [List.length_cons]; omega
  | doubled _ ih => simp only [List.length_cons]; omega
  | lone _ _ ih => simp only [List.length_cons]; omega
  | quoted _ hs _ ih =>
    have := hs.length_le
    simp only [List.length_cons, List.length_append]
    omega

theorem ReadsSpaced.length_lt {token cs rest : List Char} (h : ReadsSpaced token cs rest)
    (ht : token ≠ []) : rest.length < cs.length := by
  obtain ⟨-, -⟩ := h
  have := List.length_pos_iff.2 ht
  simp only [List.length_append]
  omega

theorem ReadsStyle.length_lt {cs rest : List Char} {s : ArgumentStyle}
    (h : ReadsStyle cs s rest) : rest.length < cs.length := by
  rcases h with _ | ⟨hs, h⟩
  · simp
  · have := h.length_lt (isWord_style hs).ne_nil
    simp only [List.length_cons] at *
    omega

theorem ReadsOffset.length_le {cs rest : List Char} {n : Int64} (h : ReadsOffset cs n rest) :
    rest.length ≤ cs.length := by
  cases h with
  | absent => exact Nat.le_refl _
  | written =>
    simp only [List.length_append, List.length_cons]
    omega

theorem ReadsKey.ne_nil {inPlural : Bool} {key : List Char} {k : String}
    (h : ReadsKey inPlural key k) : key ≠ [] := by
  rcases h with hw | -
  · exact hw.ne_nil
  · exact List.cons_ne_nil _ _

/-- Each part of a message takes at least one character. -/
theorem ReadsMessage.length_le {nested inPlural : Bool} {cs rest : List Char} {m : Message}
    (h : ReadsMessage nested inPlural cs m rest) : m.length + rest.length ≤ cs.length := by
  induction h using ReadsMessage.rec
    (motive_2 := fun cs _ rest _ => rest.length < cs.length)
    (motive_3 := fun _ cs _ rest _ => rest.length < cs.length) with
  | nil => simp
  | text ht hne _ ih =>
    have := ht.length_le
    have := List.length_pos_iff.2 hne
    simp only [List.length_cons]
    omega
  | argument _ _ iha ih => simp only [List.length_cons]; omega
  | marker _ ih => simp only [List.length_cons]; omega
  | plain ha hs =>
    have := hs.length_lt ha.word.ne_nil
    simp only [List.length_cons] at *
    omega
  | simple ha ht hs hs' hstyle =>
    have := hs.length_lt ha.word.ne_nil
    have := hs'.length_lt (isWord_type ht).ne_nil
    have := hstyle.length_lt
    simp only [List.length_cons] at *
    omega
  | select ha hs hs' _ _ _ _ ih =>
    have := hs.length_lt ha.word.ne_nil
    have := hs'.length_lt isWord_selectWord.ne_nil
    simp only [List.length_cons] at *
    omega
  | @plural a o _ _ _ _ _ _ _ _ ha hs hs' ho _ _ _ _ ih =>
    have := hs.length_lt ha.word.ne_nil
    have := hs'.length_lt (isWord_pluralKeyword o).ne_nil
    have := ho.length_le
    simp only [List.length_cons] at *
    omega
  | close => simp only [List.length_append, List.length_cons]; omega
  | branch hk hs _ _ ihm ih =>
    have := hs.length_lt hk.ne_nil
    simp only [List.length_cons] at *
    omega

theorem ReadsArgument.length_lt {cs rest : List Char} {p : Part} (h : ReadsArgument cs p rest) :
    rest.length < cs.length := by
  have hm : ReadsMessage false false cs [p] rest := .argument h .nil
  have := hm.length_le
  simp only [List.length_singleton] at this
  omega

/-! ### Texts can be read anywhere -/

/-- Every text reads as a span, which is closed at the end if nowhere else. -/
theorem exists_readsSpan (cs : List Char) : ∃ t rest, ReadsSpan cs t rest := by
  match cs with
  | [] => exact ⟨[], [], .unclosed⟩
  | c :: cs =>
    by_cases hc : c = '\''
    · subst hc
      by_cases hd : cs.head? = some '\''
      · obtain ⟨cs, rfl⟩ := List.head?_eq_some_iff.1 hd
        obtain ⟨t, rest, h⟩ := exists_readsSpan cs
        exact ⟨'\'' :: t, rest, .doubled h⟩
      · exact ⟨[], cs, .close hd⟩
    · obtain ⟨t, rest, h⟩ := exists_readsSpan cs
      exact ⟨c :: t, rest, .char hc h⟩
termination_by cs.length

/-- In front of any characters stands a text, possibly empty. -/
theorem exists_readsText (nested inPlural : Bool) (cs : List Char) :
    ∃ t rest, ReadsText nested inPlural cs t rest := by
  match cs with
  | [] => exact ⟨[], [], .stop fun _ h => nomatch h⟩
  | c :: cs =>
    by_cases hc : c = '\''
    · subst hc
      match cs with
      | [] => exact ⟨['\''], [], .lone (fun _ h => nomatch h) (.stop fun _ h => nomatch h)⟩
      | d :: cs =>
        by_cases hd : d = '\''
        · subst hd
          obtain ⟨t, rest, h⟩ := exists_readsText nested inPlural cs
          exact ⟨'\'' :: t, rest, .doubled h⟩
        by_cases hq : needsQuoting inPlural d = true
        · obtain ⟨s, cs', hs⟩ := exists_readsSpan (d :: cs)
          have := hs.length_le
          obtain ⟨t, rest, h⟩ := exists_readsText nested inPlural cs'
          exact ⟨s ++ t, rest, .quoted ⟨d, rfl, hq⟩ hs h⟩
        · obtain ⟨t, rest, h⟩ := exists_readsText nested inPlural (d :: cs)
          refine ⟨'\'' :: t, rest, .lone ?_ h⟩
          intro x hx
          obtain rfl := Option.some.inj hx
          exact ⟨hd, by simpa using hq⟩
    · by_cases he : endsText nested inPlural c = true
      · refine ⟨[], c :: cs, .stop fun x hx => ?_⟩
        obtain rfl := Option.some.inj hx
        exact he
      · obtain ⟨t, rest, h⟩ := exists_readsText nested inPlural cs
        exact ⟨c :: t, rest, .char hc (by simpa using he) h⟩
termination_by cs.length
decreasing_by all_goals simp only [List.length_cons] at *; omega

/-- Where a text does not stop it is not empty. -/
theorem ReadsText.ne_nil {nested inPlural : Bool} {cs t rest : List Char}
    (h : ReadsText nested inPlural cs t rest) (hs : ¬ StopsText nested inPlural cs) : t ≠ [] := by
  cases h with
  | stop h => exact absurd h hs
  | char => exact List.cons_ne_nil _ _
  | doubled => exact List.cons_ne_nil _ _
  | lone => exact List.cons_ne_nil _ _
  | quoted hq hspan =>
    obtain ⟨c, hc, hq⟩ := hq
    cases hspan with
    | unclosed => cases hc
    | close =>
      obtain rfl := Option.some.inj hc
      cases inPlural <;> exact absurd hq (by decide)
    | doubled => exact List.cons_ne_nil _ _
    | char => exact List.cons_ne_nil _ _

/-! ### What the grammar derives is canonical -/

theorem ReadsKey.isKey {inPlural : Bool} {key : List Char} {k : String}
    (h : ReadsKey inPlural key k) : IsKey inPlural k.toList := by
  rcases h with hw | hl
  · rw [String.toList_ofList]
    exact .word hw
  · rw [toList_exactKey]
    exact .exact (isDecimal_iff.2 rfl)

theorem ReadsStyle.spelled {cs rest : List Char} {s : ArgumentStyle} (h : ReadsStyle cs s rest) :
    s = .default ∨ s ∈ ArgumentStyle.spelled := by
  rcases h with _ | ⟨hs, -⟩
  · exact .inl rfl
  · exact .inr hs

/-- **What the grammar derives is canonical.** -/
theorem ReadsMessage.canonical {nested inPlural : Bool} {cs rest : List Char} {m : Message}
    (h : ReadsMessage nested inPlural cs m rest) : Message.Canonical inPlural m := by
  induction h using ReadsMessage.rec
    (motive_2 := fun _ p _ _ => ∀ inPlural, p.Canonical inPlural)
    (motive_3 := fun inPlural _ bs _ _ => Branches.Canonical inPlural bs) with
  | nil => trivial
  | text ht hne hm ih =>
    refine ⟨?_, fun q hq _ => hm.head_isText ht.stops q hq, ih⟩
    exact fun h => hne (String.ofList_eq_empty_iff.1 h)
  | argument ha hm iha ih =>
    refine ⟨iha _, fun q _ ht => ?_, ih⟩
    rw [ha.isText] at ht
    cases ht
  | marker hm ih => exact ⟨rfl, fun _ _ ht => (nomatch ht), ih⟩
  | plain ha => exact ha
  | simple ha ht _ _ hs => exact ⟨ha, ht, hs.spelled⟩
  | select ha _ _ _ hne hasc hperm ih =>
    refine ⟨ha, ?_, hasc, .of_perm hperm ih⟩
    intro h
    subst h
    exact hne hperm.nil_eq.symm
  | plural ha _ _ _ _ hne hasc hperm ih =>
    refine ⟨ha, ?_, hasc, .of_perm hperm ih⟩
    intro h
    subst h
    exact hne hperm.nil_eq.symm
  | close _ => trivial
  | branch hk _ _ _ ihm ih => exact ⟨hk.isKey, ihm, ih⟩

end MessagePattern.Pattern
