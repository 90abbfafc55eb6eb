import MessagePattern.Proofs.Following

/-! Integer literals.

An offset or an exact key is written as a minus sign, possibly, and a word. What stands in
front of a reader is taken apart into the two (`literalSign`, `literalWord`) and has a value
(`literalValue`), whether or not it is a literal. `ReadsInteger` says what becomes of it: a
literal of 64 bits is its value, and anything else is refused, never wrapped or cut to fit.

`integer_reads`: both ways of reading do what `ReadsInteger` says, the text of an integer
reads back as it, and exact keys are kept as the same text if their values are the same. -/
namespace MessagePattern.Pattern

open Lexis Integer Descent

/-! ### The parts of a literal -/

/-- The minus sign in front of `cs`, if there is one. -/
def literalSign (cs : List Char) : List Char := if cs.head? = some '-' then ['-'] else []

/-- The identifier characters behind it, as many as there are. -/
def literalWord (cs : List Char) : List Char :=
  (cs.drop (literalSign cs).length).takeWhile isIdentifierChar

def literalText (cs : List Char) : List Char := literalSign cs ++ literalWord cs

/-- The value of the word as decimal digits, with the sign. -/
def literalValue (cs : List Char) : Int :=
  if cs.head? = some '-' then -(Nat.ofDigitChars 10 (literalWord cs) 0 : Int)
  else Nat.ofDigitChars 10 (literalWord cs) 0

/-- The word is ASCII digits, padded or not, and the value has 64 bits. -/
structure FitsLiteral (cs : List Char) : Prop where
  ne_nil : literalWord cs ≠ []
  digits : ∀ c ∈ literalWord cs, c.isDigit = true
  fits : Fits (literalValue cs)

section
variable {cs : List Char}

theorem literalSign_cases (cs : List Char) : literalSign cs = [] ∧ cs.head? ≠ some '-' ∨
    literalSign cs = ['-'] ∧ cs.head? = some '-' := by
  unfold literalSign
  split
  next h => exact .inr ⟨rfl, h⟩
  next h => exact .inl ⟨rfl, h⟩

theorem isIdentifierChar_of_mem_literalWord {c : Char} (hc : c ∈ literalWord cs) :
    isIdentifierChar c = true :=
  List.all_eq_true.1 List.all_takeWhile c hc

/-- Only a minus sign is taken for a sign. -/
theorem head?_literalText_ne_plus (cs : List Char) : (literalText cs).head? ≠ some '+' := by
  rcases literalSign_cases cs with ⟨hsign, -⟩ | ⟨hsign, -⟩
  · rw [literalText, hsign, List.nil_append]
    intro h
    have hplus := isIdentifierChar_of_mem_literalWord (List.mem_of_mem_head? h)
    exact absurd hplus (by decide)
  · rw [literalText, hsign]
    nofun

/-- Sign and word are a literal of `n` if the word is digits and the value is `n`. -/
theorem ofLiteral?_literalText_iff {n : Int64} :
    ofLiteral? (literalText cs) = some n ↔
      literalWord cs ≠ [] ∧ (∀ c ∈ literalWord cs, c.isDigit = true) ∧
        n.toInt = literalValue cs := by
  rw [← isLiteral_iff, literalValue, literalText]
  rcases literalSign_cases cs with ⟨hsign, hhead⟩ | ⟨hsign, hhead⟩
  · rw [hsign, List.nil_append, if_neg hhead]
    apply Iff.intro
    · intro h
      generalize hword : literalWord cs = word at h
      cases h with
      | unsigned hd hn => exact ⟨hd.ne_nil, hd.digits, by rw [hn, hd.value]⟩
      | negative hd hn =>
        -- The sign has been taken off, and is no part of a word.
        have hmem : '-' ∈ literalWord cs := by
          rw [hword]
          exact List.mem_cons_self
        exact absurd (isIdentifierChar_of_mem_literalWord hmem) (by decide)
    · rintro ⟨hne, hd, hn⟩
      exact .unsigned ⟨hne, hd, rfl⟩ hn
  · rw [hsign, List.singleton_append, if_pos hhead]
    apply Iff.intro
    · intro h
      generalize hcs : '-' :: literalWord cs = ds at h
      cases h with
      | unsigned hd =>
        subst hcs
        exact absurd hd IsDigits.head_ne_minus
      | negative hd hn =>
        cases hcs
        exact ⟨hd.ne_nil, hd.digits, by rw [hn, hd.value]⟩
    · rintro ⟨hne, hd, hn⟩
      exact .negative ⟨hne, hd, rfl⟩ hn

/-- There is an integer of the value if and only if it has 64 bits. -/
theorem fitsLiteral_iff : FitsLiteral cs ↔ ∃ n, ofLiteral? (literalText cs) = some n := by
  apply Iff.intro
  · rintro ⟨hne, hd, hfits⟩
    obtain ⟨n, hn⟩ := Option.ne_none_iff_exists'.1 (mt ofInt?_eq_none_iff.1 (not_not_intro hfits))
    exact ⟨n, ofLiteral?_literalText_iff.2 ⟨hne, hd, ofInt?_eq_some_iff.1 hn⟩⟩
  · rintro ⟨n, hn⟩
    obtain ⟨hne, hd, hvalue⟩ := ofLiteral?_literalText_iff.1 hn
    refine ⟨hne, hd, ?_⟩
    rw [← hvalue]
    exact ⟨Int64.le_toInt n, Int64.toInt_lt n⟩

example : ofLiteral? (literalText "-09223372036854775808\x7d".toList) = some Int64.minValue := by
  decide

example : ofLiteral? (literalText "9223372036854775808\x7d".toList) = none := by decide

/-- A literal with nothing of a word behind it is all that is taken. -/
theorem literalText_append {n : Int64} {lit rest : List Char} (h : IsLiteral n lit)
    (he : EndsWord rest) : literalText (lit ++ rest) = lit := by
  have hword : ∀ {ds m}, IsDigits ds m → (ds ++ rest).takeWhile isIdentifierChar = ds := by
    intro ds m hd
    rw [List.takeWhile_append_of_pos hd.word.identifier]
    have hnil : rest.takeWhile isIdentifierChar = [] := by
      cases rest with
      | nil => rfl
      | cons c rest => exact List.takeWhile_cons_of_neg (by rw [he c rfl]; decide)
    rw [hnil, List.append_nil]
  cases h with
  | unsigned hd hn =>
    have hhead : (lit ++ rest).head? ≠ some '-' := by
      obtain ⟨c, ds, rfl⟩ := List.exists_cons_of_ne_nil hd.ne_nil
      intro hc
      rw [Option.some.inj hc] at hd
      exact IsDigits.head_ne_minus hd
    rw [literalText, literalWord, literalSign, if_neg hhead]
    exact hword hd
  | negative hd hn =>
    show '-' :: literalWord ('-' :: _ ++ rest) = _
    exact congrArg ('-' :: ·) (hword hd)

theorem ofLiteral?_literalText_append {n : Int64} {lit rest : List Char} (h : IsLiteral n lit)
    (he : EndsWord rest) : ofLiteral? (literalText (lit ++ rest)) = some n := by
  rw [literalText_append h he]
  exact isLiteral_iff.1 h

end

/-! ### What becomes of a literal -/

/-- What is read of the literal in front of `t`, and where reading stops. -/
inductive ReadsInteger (t : Trail) : Except ParseError Int64 → Trail → Prop where
  | fits {n} : FitsLiteral t.unread → n.toInt = literalValue t.unread →
      ReadsInteger t (.ok n) (t.skip (literalText t.unread).length)
  /-- No word follows the sign: what does is at fault. -/
  | missing : literalWord t.unread = [] →
      ReadsInteger t (.error (t.skip (literalSign t.unread).length).fault)
        (t.skip (literalSign t.unread).length)
  /-- The whole literal is at fault, from its sign on. -/
  | unfit : literalWord t.unread ≠ [] → ¬ FitsLiteral t.unread →
      ReadsInteger t
        (.error (.unexpectedToken (String.ofList (literalText t.unread)) t.position []))
        (t.skip (literalText t.unread).length)

namespace Descent

variable {t u : Trail} {e : Except ParseError Int64}

theorem ends_sign (t : Trail) : Ends sign t
    (fun sign u => sign = String.ofList (literalSign t.unread) ∧
      u = t.skip (literalSign t.unread).length) fun _ _ => False := by
  refine .peek_bind ?_
  rw [Trail.peek_eq, literalSign]
  split
  next => exact .decode_bind (.pure ⟨rfl, rfl⟩)
  next => exact .pure ⟨rfl, rfl⟩

/-- The sign and the word are looked for separately and judged as one literal. -/
theorem ends_integer (t : Trail) : Ends integer t (fun n u => ReadsInteger t (.ok n) u)
    fun e u => ∃ e', e = .refused e' ∧ ReadsInteger t (.error e') u := by
  have hword : (t.skip (literalSign t.unread).length).unread.takeWhile isIdentifierChar =
      literalWord t.unread := by rw [Trail.unread_skip, literalWord]
  refine .bind (x := sign) (Ends.mono (ends_sign t) ?_ nofun)
  rintro _ _ ⟨rfl, rfl⟩
  have hpass : (t.skip (literalSign t.unread).length).pass isIdentifierChar =
      t.skip (literalText t.unread).length := by
    rw [Trail.pass, hword, literalText, List.length_append, Trail.skip, Trail.skip, Trail.skip,
      Cursor.skip_add]
  have hends := ends_requiredIdentifier (t.skip (literalSign t.unread).length)
  rw [hword, hpass] at hends
  refine .bind (hends.mono ?_ ?_)
  · rintro _ _ ⟨hne, rfl, rfl⟩
    have htext : String.ofList (literalSign t.unread) ++ String.ofList (literalWord t.unread) =
        String.ofList (literalText t.unread) := by
      rw [literalText, String.ofList_append]
    rw [htext, String.toList_ofList, ofSigned?_eq_ofLiteral? (head?_literalText_ne_plus _)]
    cases hn : ofLiteral? (literalText t.unread) with
    | some n =>
      have hfits := fitsLiteral_iff.2 ⟨n, hn⟩
      exact .pure (.fits hfits (ofLiteral?_literalText_iff.1 hn).2.2)
    | none =>
      have hunfit : ¬ FitsLiteral t.unread := by
        intro h
        obtain ⟨n, hsome⟩ := fitsLiteral_iff.1 h
        rw [hn] at hsome
        cases hsome
      exact ⟨_, rfl, .unfit hne hunfit⟩
  · rintro _ _ ⟨hnil, rfl, rfl⟩
    exact ⟨_, rfl, .missing hnil⟩

theorem readsInteger_of_integer_eq (h : integer t = outcome e u) : ReadsInteger t e u := by
  obtain ⟨hok, herror⟩ := (ends_integer t).of_eq_outcome h
  cases e with
  | ok n => exact hok n rfl
  | error e =>
    obtain ⟨e', he, hreads⟩ := herror e rfl
    cases he
    exact hreads

theorem exists_integer_eq (t : Trail) : ∃ e u, integer t = outcome e u :=
  (ends_integer t).exists_outcome fun _ ⟨_, he, _⟩ => by cases he

end Descent

namespace ReadsInteger

variable {t u u' : Trail} {e e' : Except ParseError Int64}

theorem unique (h : ReadsInteger t e u) (h' : ReadsInteger t e' u') : e = e' ∧ u = u' := by
  cases h with
  | fits hfits hn =>
    cases h' with
    | fits _ hn' => exact ⟨congrArg _ (Int64.toInt_inj.1 (hn.trans hn'.symm)), rfl⟩
    | missing hnil => exact absurd hnil hfits.ne_nil
    | unfit _ hunfit => exact absurd hfits hunfit
  | missing hnil =>
    cases h' with
    | fits hfits => exact absurd hnil hfits.ne_nil
    | missing => exact ⟨rfl, rfl⟩
    | unfit hne => exact absurd hnil hne
  | unfit hne hunfit =>
    cases h' with
    | fits hfits => exact absurd hfits hunfit
    | missing hnil => exact absurd hnil hne
    | unfit => exact ⟨rfl, rfl⟩

theorem integer_eq (h : ReadsInteger t e u) : integer t = outcome e u := by
  obtain ⟨e', u', heq⟩ := exists_integer_eq t
  obtain ⟨rfl, rfl⟩ := h.unique (readsInteger_of_integer_eq heq)
  exact heq

/-- The reader that looks at single characters comes to the same. -/
theorem resume_eq (h : ReadsInteger t e u) {use : Use} {choice : Choice}
    (ht : Settled (use.place choice) t) (limit : Nat) (s : State) :
    resume limit (.ok (s.become (.between (use.place choice)))) t =
      resume limit (e.map fun n => s.become (.between (use.target choice n))) u := by
  have hfollows : Follows limit (.ok (s.become (.between (use.place choice)))) integer t
      (fun n => .ok (s.become (.between (use.target choice n)))) fun _ _ => True :=
    follows_integer ht
  obtain ⟨hok, herror⟩ := Ends.of_eq_outcome hfollows h.integer_eq
  cases e with
  | ok n => exact (hok n rfl).1
  | error e => exact herror e rfl e rfl

end ReadsInteger

/-! ### Texts of integers, and keys -/

theorem digits_inj {n k : Int64} : digits n = digits k ↔ n = k := by
  refine ⟨fun h => ?_, congrArg digits⟩
  have hn := ofLiteral?_digits n
  rw [h, ofLiteral?_digits] at hn
  exact (Option.some.inj hn).symm

theorem Use.target_key (choice : Choice) (start : Position) (n : Int64) :
    (Use.key start).target choice n = .branch choice (exactKey n) start := rfl

/-- Equal keys are kept of literals of the same value, and of no others. -/
theorem exactKey_eq_iff {cs cs' : List Char} {n n' : Int64} (h : n.toInt = literalValue cs)
    (h' : n'.toInt = literalValue cs') :
    exactKey n = exactKey n' ↔ literalValue cs = literalValue cs' := by
  rw [← h, ← h', Int64.toInt_inj, ← digits_inj (n := n)]
  refine ⟨fun hkey => ?_, fun hdigits => by rw [exactKey, hdigits, exactKey]⟩
  exact List.tail_eq_of_cons_eq (String.ofList_injective hkey)

/-- An exact key is kept as that of the value of what follows its equals sign. -/
theorem ReadsKey.exists_value {inPlural : Bool} {lit : List Char} {key : String}
    (h : ReadsKey inPlural ('=' :: lit) key) :
    ∃ n, key = exactKey n ∧ n.toInt = literalValue lit := by
  cases h with
  | word hw => exact absurd (hw.identifier '=' List.mem_cons_self) (by decide)
  | @exact n _ hl =>
    have hlit := ofLiteral?_literalText_append hl .nil
    rw [List.append_nil] at hlit
    exact ⟨n, rfl, (ofLiteral?_literalText_iff.1 hlit).2.2⟩

/-- The text of an integer is read as it, up to what follows. -/
theorem readsInteger_digits {t : Trail} {k : Int64} {rest : List Char}
    (ht : t.unread = digits k ++ rest) (he : EndsWord rest) :
    ∃ u, ReadsInteger t (.ok k) u ∧ u.unread = rest := by
  have hk : IsLiteral k (digits k) := isLiteral_iff.2 (ofLiteral?_digits k)
  have hlit := ofLiteral?_literalText_append hk he
  have htext := literalText_append hk he
  rw [← ht] at hlit htext
  refine ⟨_, .fits (fitsLiteral_iff.2 ⟨k, hlit⟩) (ofLiteral?_literalText_iff.1 hlit).2.2, ?_⟩
  rw [Trail.unread_skip, htext, ht, List.drop_left]

/-! ### Reading integers -/

/-- **An integer literal is read exactly or refused.** Wherever the descent looks for one, what
becomes of it is told by the characters in front, and it is an integer just when these are a
sign, possibly, and digits whose value has 64 bits; the other reader does the same in front of
a key and of an offset. The text of every integer is such a literal, of that integer. Two exact
keys, read in any two places or written in a pattern in any two ways, are kept as the same text
if and only if their values are the same. -/
theorem integer_reads :
    (∀ t, (∃ e u, integer t = outcome e u) ∧
      ((∃ n u, integer t = outcome (.ok n) u) ↔ FitsLiteral t.unread) ∧
      ∀ e u, integer t = outcome e u ↔ ReadsInteger t e u) ∧
    (∀ limit (s : State) (use : Use) choice t, Settled (use.place choice) t →
      ∀ e u, ReadsInteger t e u →
        resume limit (.ok (s.become (.between (use.place choice)))) t =
          resume limit (e.map fun n => s.become (.between (use.target choice n))) u) ∧
    (∀ k t rest, t.unread = digits k ++ rest → EndsWord rest →
      ∃ u, integer t = outcome (.ok k) u ∧ u.unread = rest) ∧
    (∀ choice start n, (Use.key start).target choice n = .branch choice (exactKey n) start) ∧
    (∀ t t' n n' u u', integer t = outcome (.ok n) u → integer t' = outcome (.ok n') u' →
      (exactKey n = exactKey n' ↔ literalValue t.unread = literalValue t'.unread)) ∧
    ∀ lit lit' key key', ReadsKey true ('=' :: lit) key → ReadsKey true ('=' :: lit') key' →
      (key = key' ↔ literalValue lit = literalValue lit') := by
  refine ⟨fun t => ⟨exists_integer_eq t, ?_, fun e u => ?_⟩, ?_, ?_, Use.target_key, ?_, ?_⟩
  · apply Iff.intro
    · rintro ⟨n, u, h⟩
      cases readsInteger_of_integer_eq h with
      | fits hfits => exact hfits
    · intro hfits
      obtain ⟨n, hn⟩ := fitsLiteral_iff.1 hfits
      exact ⟨n, _, (ReadsInteger.fits hfits (ofLiteral?_literalText_iff.1 hn).2.2).integer_eq⟩
  · exact ⟨readsInteger_of_integer_eq, ReadsInteger.integer_eq⟩
  · intro limit s use choice t ht e u h
    exact h.resume_eq ht limit s
  · intro k t rest ht he
    obtain ⟨u, hreads, hu⟩ := readsInteger_digits ht he
    exact ⟨u, hreads.integer_eq, hu⟩
  · intro t t' n n' u u' h h'
    cases readsInteger_of_integer_eq h with
    | fits _ hn =>
      cases readsInteger_of_integer_eq h' with
      | fits _ hn' => exact exactKey_eq_iff hn hn'
  · intro lit lit' key key' h h'
    obtain ⟨n, rfl, hn⟩ := h.exists_value
    obtain ⟨n', rfl, hn'⟩ := h'.exists_value
    exact exactKey_eq_iff hn hn'

end MessagePattern.Pattern
