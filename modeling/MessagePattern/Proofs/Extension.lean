import MessagePattern.Proofs.Transition

/-! Errors that nothing written behind them can change.

A pattern is refused by a character or by its end. A character that is refused stays so
whatever follows, since reading never looks ahead (`run_append`). The end refuses a pattern
for being unfinished or for the word it cuts off, and there is such a word only behind an
identifier character (`not_inWord_of_run`). So behind any other character the error of a
pattern is that of all its continuations (`parse_append_of_error`), unless it is that the
pattern has come to an end. -/
namespace MessagePattern.Pattern

open Lexis

variable {limit : Nat} {p : Position} {s t : State}

/-- The reader is inside a word. -/
def State.InWord (s : State) : Prop := ∃ word start role, s.mode = .word word start role

theorem State.not_inWord_initial : ¬ State.initial.InWord := by
  rintro ⟨_, _, _, hmode⟩
  cases hmode

/-- A character that belongs to no word leaves the reader outside of one. -/
theorem State.Steps.not_inWord {c : Char} (hc : isIdentifierChar c = false)
    (h : s.Steps limit p c (.ok t)) : ¬ t.InWord := by
  rintro ⟨word, start, role, hmode⟩
  cases h with
  | text => cases hmode
  | opened => cases hmode
  | marker => cases hmode
  | closed => cases hmode
  | continued _ hi =>
    rw [hc] at hi
    cases hi
  | offset => cases hmode
  | begun _ hi =>
    rw [hc] at hi
    cases hi
  | skipped => cases hmode
  | moved => cases hmode
  | ended => cases hmode
  | entered => cases hmode

/-- Behind a run that ends with such a character, or is empty, no word is open. -/
theorem not_inWord_of_run {cs : List Char} (hlast : ∀ c ∈ cs.getLast?, isIdentifierChar c = false)
    (hs : ¬ s.InWord) (h : run limit p s cs = .ok t) : ¬ t.InWord := by
  rcases cs.eq_nil_or_concat with rfl | ⟨init, c, rfl⟩
  · cases h
    exact hs
  rw [List.concat_eq_append] at h hlast
  obtain ⟨u, -, hstep⟩ := exists_step_of_run h
  have hsteps := u.steps limit (p.after init) c
  rw [hstep] at hsteps
  exact hsteps.not_inWord (hlast c (by simp))

/-- Outside of words the end of a pattern comes too early, or not at all. -/
theorem State.finish_of_not_inWord {e : ParseError} (hs : ¬ s.InWord) (h : s.finish p = .error e) :
    e = .unexpectedEnd p := by
  unfold State.finish at h
  split at h
  next =>
    split at h
    next => cases h
    next =>
      cases h
      rfl
  next word start role hmode => exact absurd ⟨word, start, role, hmode⟩ hs
  next =>
    cases h
    rfl

/-- **An error is decided by what has been read.** Where a pattern does not end with an
identifier character and is refused for a token or for its depth, whatever continues it is
refused with the same error. -/
theorem parse_append_of_error {d : Nat} {pattern : String} {e : ParseError}
    (hlast : ∀ c ∈ pattern.toList.getLast?, isIdentifierChar c = false)
    (h : parse ⟨d, none⟩ pattern = .error e)
    (he : (∃ found q suggestions, e = .unexpectedToken found q suggestions) ∨
      ∃ limit q, e = .tooDeep limit q) (rest : String) :
    parse ⟨d, none⟩ (pattern ++ rest) = .error e := by
  have hend : ∀ q, e ≠ .unexpectedEnd q := by
    rintro q rfl
    rcases he with ⟨_, _, _, he⟩ | ⟨_, _, he⟩ <;> cases he
  have hread : read d .start .initial pattern.toList = .error e := h
  show read d .start .initial (pattern ++ rest).toList = .error e
  unfold read at hread
  rw [String.toList_append, read, run_append]
  cases hrun : run d .start .initial pattern.toList with
  | error e' =>
    rw [hrun] at hread
    cases hread
    rfl
  | ok t =>
    rw [hrun] at hread
    have hword := not_inWord_of_run hlast State.not_inWord_initial hrun
    exact absurd (State.finish_of_not_inWord hword hread) (hend _)

theorem parse_append_of_error_keyword :
    parse ⟨64, none⟩ ("\x7bn, selct " ++ ", a \x7bb\x7d\x7d") =
      .error (.unexpectedToken "selct" ⟨1, 5, 5⟩ ["select"]) := by
  have h : parse ⟨64, none⟩ "\x7bn, selct " =
      .error (.unexpectedToken "selct" ⟨1, 5, 5⟩ ["select"]) := rfl
  refine parse_append_of_error (fun c hc => ?_) h (.inl ⟨_, _, _, rfl⟩) _
  obtain rfl : ' ' = c := Option.some.inj hc
  rfl

end MessagePattern.Pattern
