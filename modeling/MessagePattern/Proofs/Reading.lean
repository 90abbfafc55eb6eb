import MessagePattern.Pattern.Parse
import MessagePattern.Proofs.Grammar

/-! Reading token by token.

A pattern is read character by character. Here the steps of each token are put together:
white space (`read_blank`), a word up to its end (`read_word`, `read_word_end`), an
integer (`literal_leads`), a mark (`read_mark`) and a text up to where it stops
(`ReadsText.leads`). All are equations between reading the token with what follows it and
reading what follows from the state behind the token. -/
namespace MessagePattern.Pattern

open Lexis Integer

variable {limit : Nat} {s : State}

namespace State

@[simp] theorem withPart_become (s : State) (m : Mode) (p : Part) :
    (s.become m).withPart p = s.withPart p := rfl

theorem become_of_mode {s : State} {m : Mode} (h : s.mode = m) : s.become m = s := by
  subst h
  rfl

@[simp] theorem withText_empty (s : State) : s.withText "" = s := rfl

theorem withText_of_ne {buffer : String} (h : buffer ≠ "") (s : State) :
    s.withText buffer = { s with parts := .text buffer :: s.parts } := by
  have : buffer.isEmpty = false := by simpa using h
  rw [withText, this]
  rfl

@[simp] theorem withText_become (s : State) (m : Mode) (buffer : String) :
    (s.become m).withText buffer = (s.withText buffer).become m := by
  unfold withText
  split <;> rfl

@[simp] theorem frames_withText (s : State) (buffer : String) :
    (s.withText buffer).frames = s.frames := by
  unfold withText
  split <;> rfl

@[simp] theorem inPlural_withText (s : State) (buffer : String) :
    (s.withText buffer).inPlural = s.inPlural := by
  unfold inPlural
  rw [frames_withText]

theorem finish_word (p : Position) (s : State) (word : String) (start : Position) (role : Role) :
    (s.become (.word word start role)).finish p =
      (role.complete word start).bind fun _ => .error (.unexpectedEnd p) := by
  unfold finish become
  dsimp only
  cases role.complete word start <;> rfl

theorem finish_text (p : Position) (s : State) (buffer : String) (quoting : Quoting) :
    (s.become (.text buffer quoting)).finish p =
      match s.frames with
      | [] => .ok (s.withText (finalText buffer quoting)).message
      | _ :: _ => .error (.unexpectedEnd p) := by
  show (match s.frames with
    | [] => Except.ok
        ((s.become (.text buffer quoting)).withText (finalText buffer quoting)).message
    | _ :: _ => .error (ParseError.unexpectedEnd p)) = _
  rw [withText_become]
  rfl

/-- The state behind the brace that opens a branch. -/
def entered (s : State) (choice : Choice) (key : String) (start : Position) : State :=
  ⟨⟨s.parts, choice, key, start⟩ :: s.frames, [], .text "" .plain⟩

@[simp] theorem depth_entered (s : State) (choice : Choice) (key : String) (start : Position) :
    (s.entered choice key start).depth = s.depth + 1 := rfl

/-- End parts, in reading order; what follows is text again. -/
def withParts (s : State) (m : Message) : State :=
  { s with parts := m.reverse ++ s.parts, mode := .text "" .plain }

theorem withParts_withPart (s : State) (p : Part) (m : Message) :
    (s.withPart p).withParts m = s.withParts (p :: m) := by
  simp [withParts, withPart]

/-- A brace behind the message of a branch closes the branch, unless its key is not new. -/
theorem step_close (limit : Nat) (p : Position) (s : State) (choice : Choice) (key : String)
    (start : Position) (m : Message) :
    ((s.entered choice key start).withParts m).step limit p '}' =
      if (choice.branches.lookup key).isSome then .error (.unexpectedToken key start [])
      else .ok (s.become (.between (.key
        { choice with branches := insertEntry key m choice.branches }))) := by
  show State.closeBranch ((s.entered choice key start).withParts m) _ _ = _
  have hmessage : ((s.entered choice key start).withParts m).message = m := by
    simp [message, withParts, entered]
  rw [closeBranch, hmessage]
  rfl

@[simp] theorem openBranch_become (limit : Nat) (p : Position) (s : State) (m : Mode)
    (choice : Choice) (key : String) (start : Position) :
    (s.become m).openBranch limit p choice key start = s.openBranch limit p choice key start := rfl

end State

/-! ### Characters -/

/-- What is reached through two readings is reached through the first. -/
theorem exists_of_bind_eq_ok {α β : Type} {x : Except ParseError α} {f : α → Except ParseError β}
    {b : β} (h : x.bind f = .ok b) : ∃ a, x = .ok a ∧ f a = .ok b := by
  cases x with
  | error e => cases h
  | ok a => exact ⟨a, rfl, h⟩

theorem read_nil (limit : Nat) (p : Position) (s : State) : read limit p s [] = s.finish p := rfl

theorem read_cons (limit : Nat) (p : Position) (s : State) (c : Char) (cs : List Char) :
    read limit p s (c :: cs) = (s.step limit p c).bind fun t => read limit (p.advance c) t cs := by
  rw [read, run]
  cases s.step limit p c with
  | error e => rfl
  | ok t =>
    simp only [read, Position.after_cons]
    rfl

theorem read_append (limit : Nat) (p : Position) (s : State) (a b : List Char) :
    read limit p s (a ++ b) = (run limit p s a).bind fun t => read limit (p.after a) t b := by
  rw [read, run_append]
  cases run limit p s a with
  | error e => rfl
  | ok t =>
    rw [Position.after_append]
    rfl

theorem exists_step_of_run {p : Position} {cs : List Char} {c : Char} {t : State}
    (h : run limit p s (cs ++ [c]) = .ok t) :
    ∃ u, run limit p s cs = .ok u ∧ u.step limit (p.after cs) c = .ok t := by
  rw [run_append] at h
  obtain ⟨u, hu, hlast⟩ := exists_of_bind_eq_ok h
  refine ⟨u, hu, ?_⟩
  rw [run] at hlast
  split at hlast
  next => cases hlast
  next v hv =>
    cases hlast
    exact hv

theorem read_cons_of_step {p : Position} {c : Char} {t : State} (h : s.step limit p c = .ok t)
    (cs : List Char) : read limit p s (c :: cs) = read limit (p.advance c) t cs := by
  rw [read_cons, h]
  rfl

/-- Reading `cs` from `s` comes to reading `rest` from `t`, wherever it begins, behind the
characters that are in front of `rest`. -/
def Leads (limit : Nat) (s : State) (cs : List Char) (t : State) (rest : List Char) : Prop :=
  ∀ p, ∃ pre, cs = pre ++ rest ∧ read limit p s cs = read limit (p.after pre) t rest

theorem Leads.refl (s : State) (cs : List Char) : Leads limit s cs s cs :=
  fun _ => ⟨[], rfl, rfl⟩

theorem Leads.trans {s t u : State} {as bs cs : List Char} (h : Leads limit s as t bs)
    (h' : Leads limit t bs u cs) : Leads limit s as u cs := by
  intro p
  obtain ⟨pre, rfl, hp⟩ := h p
  obtain ⟨pre', rfl, hp'⟩ := h' (p.after pre)
  refine ⟨pre ++ pre', (List.append_assoc pre pre' cs).symm, ?_⟩
  rw [hp, hp', Position.after_append]

theorem leads_cons {c : Char} {t : State} (h : ∀ p, s.step limit p c = .ok t) (cs : List Char) :
    Leads limit s (c :: cs) t cs :=
  fun p => ⟨[c], rfl, read_cons_of_step (h p) cs⟩

/-! ### White space, words and marks -/

theorem read_blank {place : Place} (hp : place.skipsWhiteSpace = true) {b : List Char}
    (hb : IsBlank b) (p : Position) (rest : List Char) :
    read limit p (s.become (.between place)) (b ++ rest) =
      read limit (p.after b) (s.become (.between place)) rest := by
  induction b generalizing p with
  | nil => rfl
  | cons c b ih =>
    have hc := hb c List.mem_cons_self
    have hstep : (s.become (.between place)).step limit p c = .ok (s.become (.between place)) := by
      rw [State.step_between, State.readBetween, not_isIdentifierChar_of_isWhiteSpace hc, hc, hp]
      rfl
    rw [List.cons_append, read_cons_of_step hstep]
    exact ih (fun d hd => hb d (List.mem_cons_of_mem _ hd)) _

theorem push_append_ofList (buffer : String) (c : Char) (t : List Char) :
    buffer.push c ++ String.ofList t = buffer ++ String.ofList (c :: t) := by
  rw [← String.toList_inj]
  simp

/-- Identifier characters go on with a word. -/
theorem read_word_append {w : List Char} (hw : ∀ c ∈ w, isIdentifierChar c = true)
    (word : String) (start : Position) (role : Role) (p : Position) (rest : List Char) :
    read limit p (s.become (.word word start role)) (w ++ rest) =
      read limit (p.after w) (s.become (.word (word ++ String.ofList w) start role)) rest := by
  induction w generalizing word p with
  | nil => simp
  | cons c w ih =>
    have hstep : (s.become (.word word start role)).step limit p c =
        .ok (s.become (.word (word.push c) start role)) := by
      rw [State.step_word, State.readWord, if_pos (hw c List.mem_cons_self)]
      rfl
    rw [List.cons_append, read_cons_of_step hstep,
      ih (fun d hd => hw d (List.mem_cons_of_mem _ hd)), push_append_ofList]
    rfl

/-- Where a word may begin, all of it is read. -/
theorem read_word {place : Place} {role : Role} {w : List Char} (hw : IsWord w) {p : Position}
    {pre : String} {start : Position}
    (hm : ∀ c, place.wordMode? c p = some (.word (pre ++ c.toString) start role))
    (rest : List Char) :
    read limit p (s.become (.between place)) (w ++ rest) =
      read limit (p.after w) (s.become (.word (pre ++ String.ofList w) start role)) rest := by
  obtain ⟨c, w, rfl⟩ := List.exists_cons_of_ne_nil hw.ne_nil
  have hstep : (s.become (.between place)).step limit p c =
      .ok (s.become (.word (pre ++ c.toString) start role)) := by
    rw [State.step_between, State.readBetween, if_pos (hw.identifier c List.mem_cons_self), hm]
    rfl
  have hpush : pre ++ c.toString ++ String.ofList w = pre ++ String.ofList (c :: w) := by
    rw [← String.toList_inj]
    simp [Char.toString]
  rw [List.cons_append, read_cons_of_step hstep,
    read_word_append (fun d hd => hw.identifier d (List.mem_cons_of_mem _ hd)), hpush]
  rfl

/-- A colon behind the word of an offset is not the end of a key. -/
def Role.EndsAt (word : String) (rest : List Char) : Role → Prop
  | .key choice => ¬ (rest.head? = some ':' ∧ word = offsetWord ∧ choice.takesOffset = true)
  | .argument | .keyword _ | .style _ _ | .integer _ _ => True

/-- A character behind a word is looked at from the place behind it. -/
theorem step_word_end {c : Char} (hc : isIdentifierChar c = false) {word : String} {role : Role}
    {rest : List Char} (hr : role.EndsAt word (c :: rest)) (p start : Position) :
    (s.become (.word word start role)).step limit p c =
      (role.complete word start).bind fun place =>
        (s.become (.between place)).step limit p c := by
  rw [State.step_word, State.readWord, if_neg (by rw [hc]; decide)]
  cases role with
  | key choice =>
    have hoffset : (c = ':' && word = offsetWord && choice.takesOffset) = false := by
      simpa [Role.EndsAt] using hr
    simp only [hoffset]
    cases Role.complete word start (.key choice) <;> rfl
  | argument => cases Role.complete word start .argument <;> rfl
  | keyword a => cases Role.complete word start (.keyword a) <;> rfl
  | style a type => cases Role.complete word start (.style a type) <;> rfl
  | integer choice use => cases Role.complete word start (.integer choice use) <;> rfl

/-- Where a word ends it is judged, and what follows is read from the place behind it. -/
theorem read_word_end {rest : List Char} (he : EndsWord rest) {word : String} {role : Role}
    (hr : role.EndsAt word rest) (p start : Position) :
    read limit p (s.become (.word word start role)) rest =
      (role.complete word start).bind fun place =>
        read limit p (s.become (.between place)) rest := by
  cases rest with
  | nil =>
    rw [read_nil, State.finish_word]
    cases role.complete word start <;> rfl
  | cons c rest =>
    rw [read_cons, step_word_end (he c rfl) hr]
    cases role.complete word start with
    | error e => rfl
    | ok place =>
      show _ = read limit p (s.become (.between place)) (c :: rest)
      rw [read_cons]
      rfl

/-- What neither is skipped nor belongs to a word does what it does in its place. -/
theorem read_unskipped {c : Char} {place : Place} (hi : isIdentifierChar c = false)
    (hw : (isWhiteSpace c && place.skipsWhiteSpace) = false) (p : Position) (rest : List Char) :
    read limit p (s.become (.between place)) (c :: rest) =
      ((s.become (.between place)).mark limit p c place).bind fun t =>
        read limit (p.advance c) t rest := by
  rw [read_cons, State.step_between, State.readBetween, if_neg (by rw [hi]; decide),
    if_neg (by rw [hw]; decide)]

/-- No mark is white space or part of a word. -/
theorem read_mark {c : Char} (hi : isIdentifierChar c = false) (hw : isWhiteSpace c = false)
    (p : Position) (place : Place) (rest : List Char) :
    read limit p (s.become (.between place)) (c :: rest) =
      ((s.become (.between place)).mark limit p c place).bind fun t =>
        read limit (p.advance c) t rest :=
  read_unskipped hi (by rw [hw]; rfl) p rest

/-! ### Integers -/

/-- Where an integer may begin. -/
def Use.place (choice : Choice) : Use → Place
  | .key start => .exact choice start
  | .offset => .offset choice

/-- The place behind the integer `n`. -/
def Use.target (choice : Choice) (n : Int64) : Use → Place
  | .key start => .branch choice (exactKey n) start
  | .offset => .key (choice.withOffset n)

theorem complete_integer {n : Int64} {cs : List Char} (h : IsLiteral n cs) (choice : Choice)
    (use : Use) (start : Position) :
    (Role.integer choice use).complete (String.ofList cs) start = .ok (use.target choice n) := by
  unfold Role.complete
  rw [String.toList_ofList, isLiteral_iff.1 h]
  cases use <;> rfl

/-- A word that may have a minus sign in front is judged as an integer. -/
theorem read_integer (limit : Nat) (s : State) {sign w rest : List Char}
    (hsign : sign = [] ∨ sign = ['-']) (hw : IsWord w) (he : EndsWord rest) (choice : Choice)
    (use : Use) (p : Position) :
    ∃ start, read limit p (s.become (.between (use.place choice))) (sign ++ (w ++ rest)) =
      ((Role.integer choice use).complete (String.ofList (sign ++ w)) start).bind fun place =>
        read limit (p.after (sign ++ w)) (s.become (.between place)) rest := by
  have hend : ∀ {word}, (Role.integer choice use).EndsAt word rest := trivial
  rcases hsign with rfl | rfl
  · have hm : ∀ c, (use.place choice).wordMode? c p =
        some (.word ("" ++ c.toString) p (.integer choice use)) := by
      intro c
      cases use <;> simp [Use.place, Place.wordMode?]
    refine ⟨p, ?_⟩
    rw [List.nil_append, List.nil_append, read_word hw hm, String.empty_append,
      read_word_end he hend]
  · have hmark : read limit p (s.become (.between (use.place choice))) ('-' :: (w ++ rest)) =
        read limit (p.advance '-') (s.become (.between (.minus choice use p))) (w ++ rest) := by
      cases use <;> exact read_mark (by decide) (by decide) p _ _
    have hm : ∀ c, (Place.minus choice use p).wordMode? c (p.advance '-') =
        some (.word ("-" ++ c.toString) p (.integer choice use)) := fun _ => rfl
    have hword : "-" ++ String.ofList w = String.ofList (['-'] ++ w) := by
      rw [← String.toList_inj]
      simp
    refine ⟨p, ?_⟩
    rw [List.singleton_append, hmark, read_word hw hm, hword, read_word_end he hend]
    rfl

theorem IsLiteral.split {n : Int64} {cs : List Char} (h : IsLiteral n cs) :
    ∃ sign w, cs = sign ++ w ∧ (sign = [] ∨ sign = ['-']) ∧ IsWord w := by
  rcases h with ⟨hd, -⟩ | ⟨hd, -⟩
  · exact ⟨[], _, rfl, .inl rfl, hd.word⟩
  · exact ⟨['-'], _, rfl, .inr rfl, hd.word⟩

theorem literal_leads {n : Int64} {cs rest : List Char} (h : IsLiteral n cs) (he : EndsWord rest)
    (choice : Choice) (use : Use) :
    Leads limit (s.become (.between (use.place choice))) (cs ++ rest)
      (s.become (.between (use.target choice n))) rest := by
  intro p
  obtain ⟨sign, w, rfl, hsign, hw⟩ := IsLiteral.split h
  obtain ⟨start, hp⟩ := read_integer limit s hsign hw he choice use p
  rw [complete_integer h] at hp
  exact ⟨sign ++ w, rfl, by rw [List.append_assoc]; exact hp⟩

/-! ### Text -/

namespace State

@[simp] theorem readPlain_become (c : Char) (s : State) (m : Mode) (buffer : String) :
    (s.become m).readPlain c buffer = s.readPlain c buffer := by
  unfold readPlain
  simp only [withText_become, become_become, inPlural_become, frames_become, withPart_become]
  rfl

/-- A character that does not end the text belongs to it. -/
theorem readPlain_char {c : Char} (hq : c ≠ '\'') (he : endsText s.isNested s.inPlural c = false)
    (buffer : String) : s.readPlain c buffer = .ok (s.become (.text (buffer.push c) .plain)) := by
  simp only [endsText, Bool.or_eq_false_iff, beq_eq_false_iff_ne] at he
  obtain ⟨⟨hopen, hclose⟩, hmark⟩ := he
  unfold readPlain
  rw [if_neg hopen, if_neg (by rw [Bool.and_comm]; simpa using hmark), if_neg hq]
  cases hf : s.frames with
  | nil => rfl
  | cons f outer =>
    have hnested : s.isNested = true := by simp [isNested, hf]
    rw [hnested, Bool.true_and] at hclose
    exact if_neg (by simpa using hclose)

/-- Where a text stops it becomes a part, and the next begins. -/
theorem readPlain_stop {c : Char} (he : endsText s.isNested s.inPlural c = true)
    (buffer : String) :
    s.readPlain c buffer = (s.withText buffer).readPlain c "" := by
  unfold readPlain
  rw [withText_empty, inPlural_withText, frames_withText]
  cases hf : s.frames with
  | nil =>
    have hn : s.isNested = false := by simp [isNested, hf]
    have hp : s.inPlural = false := by simp [inPlural, hf]
    have hc : c = '{' := by simpa [endsText, hn, hp] using he
    rw [if_pos hc, if_pos hc]
  | cons f outer =>
    have hn : s.isNested = true := by simp [isNested, hf]
    simp only [endsText, hn, Bool.true_and, Bool.or_eq_true, beq_iff_eq] at he
    rcases he with (rfl | rfl) | hmark
    · rfl
    · rfl
    · have hmark' : (decide (c = '#') && s.inPlural) = true := by
        rw [Bool.and_comm]
        simpa using hmark
      rw [if_pos hmark', if_pos hmark']

theorem step_plain (limit : Nat) (p : Position) (c : Char) (s : State) (buffer : String) :
    (s.become (.text buffer .plain)).step limit p c = s.readPlain c buffer := by
  rw [step_text, readText, readPlain_become]

theorem step_pending {c : Char} (hc : c ≠ '\'') (hq : needsQuoting s.inPlural c = false)
    (p : Position) (buffer : String) :
    (s.become (.text buffer .pending)).step limit p c = s.readPlain c (buffer.push '\'') := by
  rw [step_text, readText, if_neg hc, inPlural_become, hq, readPlain_become]
  rfl

theorem step_quoted {c : Char} (hc : c ≠ '\'') (p : Position) (buffer : String) :
    (s.become (.text buffer .quoted)).step limit p c =
      .ok (s.become (.text (buffer.push c) .quoted)) := by
  rw [step_text, readText, if_neg hc]
  rfl

theorem step_closing {c : Char} (hc : c ≠ '\'') (p : Position) (buffer : String) :
    (s.become (.text buffer .closing)).step limit p c = s.readPlain c buffer := by
  rw [step_text, readText, if_neg hc, readPlain_become]

end State

theorem read_closing {rest : List Char} (h : rest.head? ≠ some '\'') (p : Position)
    (buffer : String) :
    read limit p (s.become (.text buffer .closing)) rest =
      read limit p (s.become (.text buffer .plain)) rest := by
  cases rest with
  | nil => rw [read_nil, read_nil, State.finish_text, State.finish_text]; rfl
  | cons c rest =>
    have hc : c ≠ '\'' := fun hc => h (congrArg some hc)
    rw [read_cons, read_cons, State.step_closing hc, State.step_plain]

theorem read_pending {rest : List Char}
    (h : ∀ c ∈ rest.head?, c ≠ '\'' ∧ needsQuoting s.inPlural c = false) (p : Position)
    (buffer : String) :
    read limit p (s.become (.text buffer .pending)) rest =
      read limit p (s.become (.text (buffer.push '\'') .plain)) rest := by
  cases rest with
  | nil => rw [read_nil, read_nil, State.finish_text, State.finish_text]; rfl
  | cons c rest =>
    obtain ⟨hc, hq⟩ := h c rfl
    rw [read_cons, read_cons, State.step_pending hc hq, State.step_plain]

theorem read_pending_quoted {rest : List Char}
    (h : ∃ c ∈ rest.head?, needsQuoting s.inPlural c = true) (p : Position) (buffer : String) :
    read limit p (s.become (.text buffer .pending)) rest =
      read limit p (s.become (.text buffer .quoted)) rest := by
  obtain ⟨c, hc, hq⟩ := h
  obtain ⟨rest, rfl⟩ := List.head?_eq_some_iff.1 (Option.mem_def.1 hc)
  have hne := ne_apostrophe_of_needsQuoting hq
  have hstep : (s.become (.text buffer .pending)).step limit p c =
      .ok (s.become (.text (buffer.push c) .quoted)) := by
    rw [State.step_text, State.readText, if_neg hne, State.inPlural_become, if_pos hq]
    rfl
  rw [read_cons, read_cons, hstep, State.step_quoted hne]

theorem ReadsSpan.leads {cs t rest : List Char} (h : ReadsSpan cs t rest) (buffer : String) :
    Leads limit (s.become (.text buffer .quoted)) cs
      (s.become (.text (buffer ++ String.ofList t) .plain)) rest := by
  induction h generalizing buffer with
  | unclosed =>
    intro p
    refine ⟨[], rfl, ?_⟩
    rw [read_nil, read_nil, State.finish_text, State.finish_text, String.ofList_nil,
      String.append_empty]
    rfl
  | close h =>
    intro p
    refine ⟨['\''], rfl, ?_⟩
    rw [String.ofList_nil, String.append_empty, ← read_closing h]
    exact read_cons_of_step rfl _
  | @doubled cs t rest _ ih =>
    rw [← push_append_ofList]
    have hopen : Leads limit (s.become (.text buffer .quoted)) ('\'' :: '\'' :: cs)
        (s.become (.text buffer .closing)) ('\'' :: cs) := leads_cons (fun _ => rfl) _
    exact (hopen.trans (leads_cons (fun _ => rfl) _)).trans (ih _)
  | @char c cs t rest hc _ ih =>
    rw [← push_append_ofList]
    exact (leads_cons (fun p => State.step_quoted hc p buffer) _).trans (ih _)

/-- A text is read up to where it stops. -/
theorem ReadsText.leads {cs t rest : List Char} (h : ReadsText s.isNested s.inPlural cs t rest)
    (buffer : String) :
    Leads limit (s.become (.text buffer .plain)) cs
      (s.become (.text (buffer ++ String.ofList t) .plain)) rest := by
  have hopen : ∀ (buffer : String) (cs : List Char), Leads limit (s.become (.text buffer .plain))
      ('\'' :: cs) (s.become (.text buffer .pending)) cs := by
    intro buffer cs
    refine leads_cons (fun p => ?_) cs
    rw [State.step_plain]
    simp [State.readPlain]
  induction h generalizing buffer with
  | stop _ =>
    rw [String.ofList_nil, String.append_empty]
    exact .refl _ _
  | @char c cs t rest hc he _ ih =>
    rw [← push_append_ofList]
    have hstep : ∀ p, (s.become (.text buffer .plain)).step limit p c =
        .ok (s.become (.text (buffer.push c) .plain)) := by
      intro p
      rw [State.step_plain, State.readPlain_char hc he]
    exact (leads_cons hstep _).trans (ih _)
  | @doubled cs t rest _ ih =>
    rw [← push_append_ofList]
    exact ((hopen buffer _).trans (leads_cons (fun _ => rfl) _)).trans (ih _)
  | @lone cs t rest hlone _ ih =>
    rw [← push_append_ofList]
    exact ((hopen buffer _).trans fun p => ⟨[], rfl, read_pending hlone p buffer⟩).trans (ih _)
  | @quoted cs u cs' t rest hq hs _ ih =>
    have happend : buffer ++ String.ofList (u ++ t) =
        buffer ++ String.ofList u ++ String.ofList t := by
      rw [← String.toList_inj]
      simp
    rw [happend]
    exact (((hopen buffer _).trans fun p => ⟨[], rfl, read_pending_quoted hq p buffer⟩).trans
      (hs.leads buffer)).trans (ih _)

/-- Where a text has stopped it is a part, unless it is empty. -/
theorem stop_leads {rest : List Char} (h : StopsText s.isNested s.inPlural rest)
    (buffer : String) :
    Leads limit (s.become (.text buffer .plain)) rest
      ((s.withText buffer).become (.text "" .plain)) rest := by
  intro p
  refine ⟨[], rfl, ?_⟩
  rw [Position.after_nil]
  cases rest with
  | nil =>
    rw [read_nil, read_nil, State.finish_text, State.finish_text, State.frames_withText]
    rfl
  | cons c rest =>
    rw [read_cons, read_cons, State.step_plain, State.step_plain, State.readPlain_stop (h c rfl)]

end MessagePattern.Pattern
