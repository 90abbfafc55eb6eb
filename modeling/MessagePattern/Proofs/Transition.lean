import MessagePattern.Proofs.Reading

/-! What one character can do.

`State.step` looks at the mode, at the place and at the character, in this order, and where
a word ends at the word before. Here the outcomes are listed, of a word (`Role.Completes`)
and of a character (`State.Steps`), each with what must hold for it, and the lists are
complete (`Role.completes`, `State.steps`). An invariant of reading is proved by cases on
the lists, so it does not depend on how the reader goes about finding its outcome. -/
namespace MessagePattern.Pattern

open Lexis Integer

/-! ### Words -/

section

/-- What can become of a word that ends. -/
inductive Role.Completes (word : String) (start : Position) :
    Role → Except ParseError Place → Prop where
  | argument : isPaddedNumber word = false →
      Role.Completes word start .argument (.ok (.afterArgument word))
  | padded : isPaddedNumber word = true →
      Role.Completes word start .argument (.error (.unexpectedToken word start []))
  | selector {a selector} : Selector.ofKeyword? word = some selector →
      Role.Completes word start (.keyword a) (.ok (.afterSelector a selector))
  | type {a} : Selector.ofKeyword? word = none → ArgumentType.ofKeyword word ≠ .invalid →
      Role.Completes word start (.keyword a) (.ok (.afterType a (.ofKeyword word)))
  | noKeyword {a} : Selector.ofKeyword? word = none → ArgumentType.ofKeyword word = .invalid →
      Role.Completes word start (.keyword a)
        (.error (.unexpectedToken word start (Suggestion.suggest word argumentKeywords)))
  | style {a t} : ArgumentStyle.ofKeyword word ≠ .invalid →
      Role.Completes word start (.style a t) (.ok (.afterStyle a t (.ofKeyword word)))
  | noStyle {a t} : ArgumentStyle.ofKeyword word = .invalid →
      Role.Completes word start (.style a t)
        (.error (.unexpectedToken word start (Suggestion.suggest word ArgumentStyle.keywords)))
  | key {choice} : Role.Completes word start (.key choice) (.ok (.branch choice word start))
  | integer {choice use n} : IsLiteral n word.toList →
      Role.Completes word start (.integer choice use) (.ok (use.target choice n))
  | noInteger {choice use} : (∀ n, ¬ IsLiteral n word.toList) →
      Role.Completes word start (.integer choice use) (.error (.unexpectedToken word start []))

variable {word : String} {start : Position} {role : Role}

/-- The list is complete: whatever becomes of a word is one of its outcomes. -/
theorem Role.completes {outcome : Except ParseError Place}
    (h : role.complete word start = outcome) : role.Completes word start outcome := by
  subst h
  cases role with
  | argument =>
    rw [Role.complete]
    split
    next hp => exact .padded hp
    next hp => exact .argument (by simpa using hp)
  | keyword a =>
    rw [Role.complete]
    split
    next hselector => exact .selector hselector
    next hnone =>
      dsimp only
      split
      next htype => exact .noKeyword hnone htype
      next htype => exact .type hnone htype
  | style a t =>
    rw [Role.complete]
    split
    next hstyle => exact .noStyle hstyle
    next hstyle => exact .style hstyle
  | key choice => exact .key
  | integer choice use =>
    cases hn : ofLiteral? word.toList with
    | none =>
      have hcomplete : (Role.integer choice use).complete word start =
          .error (.unexpectedToken word start []) := by simp only [Role.complete, hn]
      rw [hcomplete]
      refine .noInteger fun n h => ?_
      rw [isLiteral_iff.1 h] at hn
      cases hn
    | some n =>
      have hl : IsLiteral n word.toList := isLiteral_iff.2 hn
      have hcomplete := complete_integer hl choice use start
      rw [String.ofList_toList] at hcomplete
      rw [hcomplete]
      exact .integer hl

/-- A word that is refused is the one that has been read. -/
theorem Role.complete_eq_error {e : ParseError} (h : role.complete word start = .error e) :
    ∃ suggestions, e = .unexpectedToken word start suggestions := by
  cases Role.completes h <;> exact ⟨_, rfl⟩

/-- Behind a word that may stand where it does there may be white space. -/
theorem Role.skipsWhiteSpace_of_complete {place : Place}
    (h : role.complete word start = .ok place) : place.skipsWhiteSpace = true := by
  cases Role.completes h with
  | @integer _ use => cases use <;> rfl
  | _ => rfl

end

/-! ### Places -/

/-- The place from which `c` is looked at: the one between two tokens, or the one behind
the word that `c` ends. -/
inductive State.LooksFrom (s : State) (c : Char) : Place → Prop where
  | between {place} : s.mode = .between place → s.LooksFrom c place
  | word {word start role place} : s.mode = .word word start role → isIdentifierChar c = false →
      role.complete word start = .ok place → s.LooksFrom c place

/-- The mark `c` at `p` moves from one place of an argument to another. -/
inductive Place.Mark (p : Position) : (c : Char) → Place → Place → Prop where
  | keyword {a} : Place.Mark p ',' (.afterArgument a) (.keyword a)
  | style {a type} : Place.Mark p ',' (.afterType a type) (.style a type)
  | branches {a selector} : Place.Mark p ',' (.afterSelector a selector) (.key ⟨a, selector, []⟩)
  | exact {choice} : choice.selector.isPlural = true →
      Place.Mark p '=' (.key choice) (.exact choice p)
  | minus {choice use} : Place.Mark p '-' (use.place choice) (.minus choice use p)

/-- The argument that a closing brace ends in a place. -/
def Place.part? : Place → Option Part
  | .afterArgument a => some (.plain a)
  | .afterType a t => some (.simple a t .default)
  | .afterStyle a t s => some (.simple a t s)
  | .key choice => if choice.branches.isEmpty then none else some choice.part
  | .opened | .keyword _ | .style _ _ | .afterSelector _ _ | .branch _ _ _ | .exact _ _
  | .offset _ | .minus _ _ _ => none

/-! ### Outcomes -/

/-- What the character `c` at `p` can do to the reader in `s`. -/
inductive State.Steps (limit : Nat) (p : Position) (c : Char) (s : State) :
    Except ParseError State → Prop where
  /-- The text goes on. -/
  | text {buffer quoting} (buffer' quoting') : s.mode = .text buffer quoting →
      s.Steps limit p c (.ok (s.become (.text buffer' quoting')))
  | opened {buffer quoting} : s.mode = .text buffer quoting → c = '{' →
      s.Steps limit p c
        (.ok ((s.withText (finalText buffer quoting)).become (.between .opened)))
  | marker {buffer quoting} : s.mode = .text buffer quoting → c = '#' → s.inPlural = true →
      s.Steps limit p c (.ok ((s.withText (finalText buffer quoting)).withPart .marker))
  | closed {buffer quoting f outer} : s.mode = .text buffer quoting → c = '}' →
      s.frames = f :: outer → f.choice.branches.lookup f.key = none →
      s.Steps limit p c (.ok ⟨outer, f.before, .between (.key
        { f.choice with
          branches := insertEntry f.key (s.withText (finalText buffer quoting)).message
            f.choice.branches })⟩)
  /-- The branch that ends has a key that was given before. -/
  | repeated {buffer quoting f outer} : s.mode = .text buffer quoting → c = '}' →
      s.frames = f :: outer → (f.choice.branches.lookup f.key).isSome = true →
      s.Steps limit p c (.error (.unexpectedToken f.key f.start []))
  /-- The word goes on. -/
  | continued {word start role} : s.mode = .word word start role → isIdentifierChar c = true →
      s.Steps limit p c (.ok (s.become (.word (word.push c) start role)))
  /-- The word that ends cannot stand where it began. -/
  | refused {word start role e} : s.mode = .word word start role → isIdentifierChar c = false →
      role.complete word start = .error e → s.Steps limit p c (.error e)
  | offset {start choice} : s.mode = .word offsetWord start (.key choice) → c = ':' →
      choice.takesOffset = true → s.Steps limit p c (.ok (s.become (.between (.offset choice))))
  | begun {place mode} : s.mode = .between place → isIdentifierChar c = true →
      place.wordMode? c p = some mode → s.Steps limit p c (.ok (s.become mode))
  | skipped {place} : s.LooksFrom c place → isWhiteSpace c = true →
      place.skipsWhiteSpace = true → s.Steps limit p c (.ok (s.become (.between place)))
  | moved {place place'} : s.LooksFrom c place → place.Mark p c place' →
      s.Steps limit p c (.ok (s.become (.between place')))
  | ended {place part} : s.LooksFrom c place → c = '}' → place.part? = some part →
      s.Steps limit p c (.ok (s.withPart part))
  | entered {choice key start} : s.LooksFrom c (.branch choice key start) → c = '{' →
      s.depth < limit → s.Steps limit p c (.ok (s.entered choice key start))
  | tooDeep {choice key start} : s.LooksFrom c (.branch choice key start) → c = '{' →
      limit ≤ s.depth → s.Steps limit p c (.error (.tooDeep limit p))
  | unexpected {place} : s.LooksFrom c place → s.Steps limit p c (.error (.unexpectedChar c p))

namespace State

variable {limit : Nat} {p : Position} {c : Char} {s : State}

theorem steps_mark {place : Place} (h : s.LooksFrom c place) :
    s.Steps limit p c (s.mark limit p c place) := by
  have hfault : s.Steps limit p c (.error (.unexpectedChar c p)) := .unexpected h
  cases place with
  | opened => exact hfault
  | keyword a => exact hfault
  | style a type => exact hfault
  | minus choice use sign => exact hfault
  | afterArgument a =>
    rw [mark]
    split
    next hc => exact .ended h hc rfl
    next =>
      split
      next hc =>
        subst hc
        exact .moved h .keyword
      next => exact hfault
  | afterType a type =>
    rw [mark]
    split
    next hc => exact .ended h hc rfl
    next =>
      split
      next hc =>
        subst hc
        exact .moved h .style
      next => exact hfault
  | afterStyle a type style =>
    rw [mark]
    split
    next hc => exact .ended h hc rfl
    next => exact hfault
  | afterSelector a selector =>
    rw [mark]
    split
    next hc =>
      subst hc
      exact .moved h .branches
    next => exact hfault
  | key choice =>
    rw [mark]
    split
    next hclose =>
      simp only [Bool.and_eq_true, decide_eq_true_eq, Bool.not_eq_true'] at hclose
      exact .ended h hclose.1 (by rw [Place.part?, hclose.2]; rfl)
    next =>
      split
      next hexact =>
        simp only [Bool.and_eq_true, decide_eq_true_eq] at hexact
        obtain ⟨rfl, hplural⟩ := hexact
        exact .moved h (.exact hplural)
      next => exact hfault
  | branch choice key start =>
    rw [mark]
    split
    next hc =>
      rw [openBranch]
      split
      next hd => exact .tooDeep h hc hd
      next hd => exact .entered h hc (Nat.lt_of_not_le hd)
    next => exact hfault
  | exact choice start =>
    rw [mark]
    split
    next hc =>
      subst hc
      have hminus : Place.Mark p '-' ((Use.key start).place choice) _ := .minus
      exact .moved h hminus
    next => exact hfault
  | offset choice =>
    rw [mark]
    split
    next hc =>
      subst hc
      have hminus : Place.Mark p '-' (Use.offset.place choice) _ := .minus
      exact .moved h hminus
    next => exact hfault

/-- What is not part of a word is skipped, or does what a mark does. -/
theorem steps_readBetween {place : Place} (h : s.LooksFrom c place)
    (hi : isIdentifierChar c = false) : s.Steps limit p c (s.readBetween limit p c place) := by
  rw [readBetween, if_neg (by rw [hi]; decide)]
  split
  next hw =>
    obtain ⟨hw, hp⟩ := Bool.and_eq_true_iff.1 hw
    exact .skipped h hw hp
  next => exact steps_mark h

theorem steps_between {place : Place} (h : s.mode = .between place) :
    s.Steps limit p c (s.readBetween limit p c place) := by
  by_cases hi : isIdentifierChar c = true
  · rw [readBetween, if_pos hi]
    split
    next mode hmode => exact .begun h hi hmode
    next => exact .unexpected (.between h)
  · exact steps_readBetween (.between h) (by simpa using hi)

theorem steps_word {word : String} {start : Position} {role : Role}
    (h : s.mode = .word word start role) :
    s.Steps limit p c (s.readWord limit p c word start role) := by
  by_cases hi : isIdentifierChar c = true
  · rw [readWord, if_pos hi]
    exact .continued h hi
  have hi : isIdentifierChar c = false := by simpa using hi
  rw [readWord, if_neg (by rw [hi]; decide)]
  split
  next e he => exact .refused h hi he
  next place hplace =>
    have hbetween : s.Steps limit p c (s.readBetween limit p c place) :=
      steps_readBetween (.word h hi hplace) hi
    split
    next choice =>
      split
      next hoffset =>
        simp only [Bool.and_eq_true, decide_eq_true_eq] at hoffset
        obtain ⟨⟨hc, rfl⟩, ho⟩ := hoffset
        exact .offset h hc ho
      next => exact hbetween
    next => exact hbetween

/-- Outside quoted spans the characters that end a text are looked for. -/
theorem steps_readPlain {buffer : String} {quoting : Quoting}
    (h : s.mode = .text buffer quoting) :
    s.Steps limit p c (s.readPlain c (finalText buffer quoting)) := by
  unfold readPlain
  split
  next hc => exact .opened h hc
  next =>
    split
    next hmark =>
      simp only [Bool.and_eq_true, decide_eq_true_eq] at hmark
      exact .marker h hmark.1 hmark.2
    next =>
      split
      next => exact .text _ _ h
      next =>
        split
        next => exact .text _ _ h
        next f outer hf =>
          split
          next hc =>
            rw [closeBranch]
            split
            next hkey => exact .repeated h hc hf hkey
            next hkey => exact .closed h hc hf (Option.not_isSome_iff_eq_none.1 hkey)
          next => exact .text _ _ h

theorem steps_text {buffer : String} {quoting : Quoting} (h : s.mode = .text buffer quoting) :
    s.Steps limit p c (s.readText c buffer quoting) := by
  have hplain := @steps_readPlain limit p c s buffer quoting h
  cases quoting with
  | plain => exact hplain
  | pending =>
    rw [readText]
    split
    next => exact .text _ _ h
    next =>
      split
      next => exact .text _ _ h
      next => exact hplain
  | quoted =>
    rw [readText]
    split
    next => exact .text _ _ h
    next => exact .text _ _ h
  | closing =>
    rw [readText]
    split
    next => exact .text _ _ h
    next => exact hplain

/-- **The list is complete**: whatever a character does is one of its outcomes. -/
theorem steps (limit : Nat) (p : Position) (c : Char) (s : State) :
    s.Steps limit p c (s.step limit p c) := by
  unfold step
  split
  next h => exact steps_text h
  next h => exact steps_word h
  next h => exact steps_between h

end State

/-! ### Runs -/

/-- What every character keeps up, of the reader and what was read, a run keeps up. -/
theorem run_induction {limit : Nat} {motive : List Char → State → Prop}
    (hinitial : motive [] .initial)
    (hstep : ∀ {pre s c t}, motive pre s → s.Steps limit (Position.start.after pre) c (.ok t) →
      motive (pre ++ [c]) t)
    {cs : List Char} {t : State} (h : run limit .start .initial cs = .ok t) : motive cs t := by
  have hrun : ∀ (cs pre : List Char) (s : State), motive pre s →
      run limit (Position.start.after pre) s cs = .ok t → motive (pre ++ cs) t := by
    intro cs
    induction cs with
    | nil =>
      intro pre s hs h
      cases h
      rwa [List.append_nil]
    | cons c cs ih =>
      intro pre s hs h
      rw [run] at h
      split at h
      next => cases h
      next u hu =>
        have hsteps := s.steps limit (Position.start.after pre) c
        rw [hu] at hsteps
        have hrest : run limit (Position.start.after (pre ++ [c])) u cs = .ok t := by
          rw [Position.after_append]
          exact h
        have hkept := ih (pre ++ [c]) u (hstep hs hsteps) hrest
        rwa [List.append_assoc] at hkept
  exact hrun cs [] .initial hinitial h

end MessagePattern.Pattern
