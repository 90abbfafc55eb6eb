import MessagePattern.Proofs.Reading

/-! Reading a pattern inside a longer one.

A reader keeps positions for its errors and the parts of the outermost message for the end.
It computes with neither: a position is only copied, and parts are only put in front of
others. So it does the same when its positions are moved and other parts lie below its own
(`State.step_relocate`), and what it comes to differs by just that (`read_relocate`).

`Position.shift` is the move that a text in front of the pattern makes. -/
namespace MessagePattern

namespace Position

/-- The position that `p` becomes when the pattern begins at `origin`: only the first line
has anything in front of it. -/
def shift (origin p : Position) : Position :=
  if p.line = 1 then
    ⟨origin.line, origin.byteColumn + p.byteColumn - 1, origin.charColumn + p.charColumn - 1⟩
  else ⟨origin.line + p.line - 1, p.byteColumn, p.charColumn⟩

/-- Lines and columns count from one. -/
structure Counts (p : Position) : Prop where
  line : 0 < p.line
  byteColumn : 0 < p.byteColumn
  charColumn : 0 < p.charColumn

theorem counts_start : start.Counts := ⟨Nat.one_pos, Nat.one_pos, Nat.one_pos⟩

theorem Counts.advance {p : Position} (h : p.Counts) (c : Char) : (p.advance c).Counts := by
  unfold Position.advance
  split
  next => exact ⟨Nat.succ_pos _, Nat.one_pos, Nat.one_pos⟩
  next => exact ⟨h.line, Nat.add_pos_left h.byteColumn _, Nat.succ_pos _⟩

theorem shift_advance {p : Position} (h : p.Counts) (origin : Position) (c : Char) :
    origin.shift (p.advance c) = (origin.shift p).advance c := by
  obtain ⟨hline, hbyte, hchar⟩ := h
  by_cases hc : c = '\n'
  · subst hc
    by_cases hp : p.line = 1
    · simp [shift, advance, hp]
    · have : p.line + 1 ≠ 1 := by omega
      simp only [shift, advance, if_true, if_neg this, if_neg hp, mk.injEq, and_true]
      omega
  · by_cases hp : p.line = 1
    · simp only [shift, advance, if_neg hc, hp, if_true, mk.injEq, true_and]
      omega
    · simp only [shift, advance, if_neg hc, if_neg hp]

theorem shift_after {p : Position} (h : p.Counts) (origin : Position) (cs : List Char) :
    origin.shift (p.after cs) = (origin.shift p).after cs := by
  induction cs generalizing p with
  | nil => rfl
  | cons c cs ih => rw [after_cons, after_cons, ih (h.advance c), shift_advance h]

end Position

/-- The error with its position moved. -/
def ParseError.relocate (f : Position → Position) : ParseError → ParseError
  | unexpectedToken found p suggestions => unexpectedToken found (f p) suggestions
  | unexpectedEnd p => unexpectedEnd (f p)
  | tooDeep limit p => tooDeep limit (f p)
  | tooLong length limit => tooLong length limit

theorem ParseError.relocate_id (e : ParseError) : e.relocate id = e := by
  cases e <;> rfl

theorem ParseError.position?_relocate (e : ParseError) (f : Position → Position) :
    (e.relocate f).position? = e.position?.map f := by
  cases e <;> rfl

/-- Only the position of the error matters. -/
theorem ParseError.relocate_congr {e : ParseError} {p : Position} {f g : Position → Position}
    (hp : e.position? = some p) (h : f p = g p) : e.relocate f = e.relocate g := by
  cases e with
  | tooLong length limit => cases hp
  | unexpectedToken found q suggestions =>
    obtain rfl := Option.some.inj hp
    exact congrArg (unexpectedToken found · suggestions) h
  | unexpectedEnd q =>
    obtain rfl := Option.some.inj hp
    exact congrArg unexpectedEnd h
  | tooDeep limit q =>
    obtain rfl := Option.some.inj hp
    exact congrArg (tooDeep limit) h

namespace Pattern

open Lexis

variable (f : Position → Position) (below : List Part)

/-! ### The reader moved -/

def Use.relocate : Use → Use
  | .key start => .key (f start)
  | .offset => .offset

def Role.relocate : Role → Role
  | .argument => .argument
  | .keyword a => .keyword a
  | .style a type => .style a type
  | .key choice => .key choice
  | .integer choice use => .integer choice (use.relocate f)

def Place.relocate : Place → Place
  | .opened => .opened
  | .afterArgument a => .afterArgument a
  | .keyword a => .keyword a
  | .afterType a type => .afterType a type
  | .style a type => .style a type
  | .afterStyle a type s => .afterStyle a type s
  | .afterSelector a s => .afterSelector a s
  | .key choice => .key choice
  | .branch choice k p => .branch choice k (f p)
  | .exact choice p => .exact choice (f p)
  | .offset choice => .offset choice
  | .minus choice use sign => .minus choice (use.relocate f) (f sign)

def Mode.relocate : Mode → Mode
  | .text buffer quoting => .text buffer quoting
  | .word w start role => .word w (f start) (role.relocate f)
  | .between place => .between (place.relocate f)

/-- Only the outermost message, which no branch is open around, has parts below its own. -/
def onto (frames : List Frame) (parts : List Part) : List Part :=
  if frames.isEmpty then parts ++ below else parts

def relocateFrames : List Frame → List Frame
  | [] => []
  | g :: outer =>
    ⟨onto below outer g.before, g.choice, g.key, f g.start⟩ :: relocateFrames outer

/-- The reader with its positions moved and other parts below its own. -/
def State.relocate (s : State) : State :=
  ⟨relocateFrames f below s.frames, onto below s.frames s.parts, s.mode.relocate f⟩

/-- A result, or an error with its position moved. -/
def relocateError {α β : Type} (g : α → β) : Except ParseError α → Except ParseError β
  | .ok a => .ok (g a)
  | .error e => .error (e.relocate f)

variable {f below}

/-! ### What does not change -/

theorem onto_cons (frames : List Frame) (p : Part) (parts : List Part) :
    onto below frames (p :: parts) = p :: onto below frames parts := by
  unfold onto
  split <;> rfl

namespace State

variable (s : State)

theorem depth_relocate : (s.relocate f below).depth = s.depth := by
  show (relocateFrames f below s.frames).length = s.frames.length
  induction s.frames with
  | nil => rfl
  | cons g outer ih => exact congrArg Nat.succ ih

theorem inPlural_relocate : (s.relocate f below).inPlural = s.inPlural := by
  unfold inPlural
  cases h : s.frames with
  | nil => simp [relocate, h, relocateFrames]
  | cons g outer => simp [relocate, h, relocateFrames]

theorem mode_relocate : (s.relocate f below).mode = s.mode.relocate f := rfl

theorem frames_relocate : (s.relocate f below).frames = relocateFrames f below s.frames := rfl

theorem relocate_withText (buffer : String) :
    (s.withText buffer).relocate f below = (s.relocate f below).withText buffer := by
  unfold withText
  split
  next => rfl
  next => simp [relocate, onto_cons]

theorem relocate_withPart (p : Part) :
    (s.withPart p).relocate f below = (s.relocate f below).withPart p := by
  simp [relocate, withPart, onto_cons, Mode.relocate]

end State

/-! ### Words and places -/

theorem Role.complete_relocate (word : String) (start : Position) (role : Role) :
    (role.relocate f).complete word (f start) =
      relocateError f (Place.relocate f) (role.complete word start) := by
  cases role with
  | argument =>
    simp only [Role.relocate, Role.complete]
    split <;> rfl
  | keyword a =>
    simp only [Role.relocate, Role.complete]
    split
    next => rfl
    next => split <;> rfl
  | style a type =>
    simp only [Role.relocate, Role.complete]
    split <;> rfl
  | key choice => rfl
  | integer choice use =>
    simp only [Role.relocate, Role.complete]
    split
    next => rfl
    next => cases use <;> rfl

theorem Place.skipsWhiteSpace_relocate (place : Place) :
    (place.relocate f).skipsWhiteSpace = place.skipsWhiteSpace := by
  cases place <;> rfl

theorem Place.wordMode?_relocate (c : Char) (p : Position) (place : Place) :
    (place.relocate f).wordMode? c (f p) = (place.wordMode? c p).map (Mode.relocate f) := by
  cases place <;> rfl

/-! ### Steps -/

namespace State

variable (limit : Nat) (p : Position) (c : Char) (s : State)

theorem openBranch_relocate (choice : Choice) (key : String) (start : Position) :
    (s.relocate f below).openBranch limit (f p) choice key (f start) =
      relocateError f (relocate f below) (s.openBranch limit p choice key start) := by
  unfold openBranch
  rw [depth_relocate]
  split <;> rfl

/-- The message of a branch is its own. -/
theorem message_relocate_of_cons {g : Frame} {outer : List Frame} (h : s.frames = g :: outer) :
    (s.relocate f below).message = s.message := by
  unfold message relocate
  rw [h]
  rfl

/-- The outermost message has other parts in front. -/
theorem message_relocate_of_nil (h : s.frames = []) :
    (s.relocate f below).message = below.reverse ++ s.message := by
  unfold message relocate
  rw [h]
  exact List.reverse_append

theorem closeBranch_relocate {g : Frame} {outer : List Frame} (h : s.frames = g :: outer) :
    (s.relocate f below).closeBranch ⟨onto below outer g.before, g.choice, g.key, f g.start⟩
        (relocateFrames f below outer) =
      relocateError f (relocate f below) (s.closeBranch g outer) := by
  unfold closeBranch
  rw [message_relocate_of_cons s h]
  split <;> rfl

theorem mark_relocate (place : Place) :
    (s.relocate f below).mark limit (f p) c (place.relocate f) =
      relocateError f (relocate f below) (s.mark limit p c place) := by
  have hpart : ∀ r, (s.withPart r).relocate f below = (s.relocate f below).withPart r :=
    relocate_withPart s
  cases place with
  | opened => rfl
  | keyword a => rfl
  | style a type => rfl
  | minus choice use sign => rfl
  | afterArgument a =>
    simp only [Place.relocate, mark]
    split
    next => rw [← hpart]; rfl
    next => split <;> rfl
  | afterType a type =>
    simp only [Place.relocate, mark]
    split
    next => rw [← hpart]; rfl
    next => split <;> rfl
  | afterStyle a type style =>
    simp only [Place.relocate, mark]
    split
    next => rw [← hpart]; rfl
    next => rfl
  | afterSelector a selector =>
    simp only [Place.relocate, mark]
    split <;> rfl
  | key choice =>
    simp only [Place.relocate, mark]
    split
    next => rw [← hpart]; rfl
    next => split <;> rfl
  | branch choice key start =>
    simp only [Place.relocate, mark]
    split
    next => exact openBranch_relocate limit p s choice key start
    next => rfl
  | exact choice start =>
    simp only [Place.relocate, mark]
    split <;> rfl
  | offset choice =>
    simp only [Place.relocate, mark]
    split <;> rfl

theorem readBetween_relocate (place : Place) :
    (s.relocate f below).readBetween limit (f p) c (place.relocate f) =
      relocateError f (relocate f below) (s.readBetween limit p c place) := by
  unfold readBetween
  rw [Place.wordMode?_relocate, Place.skipsWhiteSpace_relocate]
  split
  next => cases place.wordMode? c p <;> rfl
  next =>
    split
    next => rfl
    next => exact mark_relocate limit p c s place

theorem readWord_relocate (word : String) (start : Position) (role : Role) :
    (s.relocate f below).readWord limit (f p) c word (f start) (role.relocate f) =
      relocateError f (relocate f below) (s.readWord limit p c word start role) := by
  have hbetween : ∀ place : Place,
      (s.relocate f below).readBetween limit (f p) c (place.relocate f) =
        relocateError f (relocate f below) (s.readBetween limit p c place) :=
    readBetween_relocate limit p c s
  unfold readWord
  rw [Role.complete_relocate]
  split
  next => rfl
  next =>
    cases role.complete word start with
    | error e => rfl
    | ok place =>
      cases role with
      | key choice =>
        simp only [Role.relocate, relocateError]
        split
        next => rfl
        next => exact hbetween place
      | _ => exact hbetween place

theorem readPlain_relocate (buffer : String) :
    (s.relocate f below).readPlain c buffer =
      relocateError f (relocate f below) (s.readPlain c buffer) := by
  unfold readPlain
  rw [inPlural_relocate, ← relocate_withText]
  split
  next => rfl
  next =>
    split
    next => rw [← relocate_withPart]; rfl
    next =>
      split
      next => rfl
      next =>
        rw [frames_relocate]
        cases h : s.frames with
        | nil => rfl
        | cons g outer =>
          rw [relocateFrames]
          dsimp only
          split
          next => exact closeBranch_relocate _ (by rw [frames_withText, h])
          next => rfl

theorem readText_relocate (buffer : String) (quoting : Quoting) :
    (s.relocate f below).readText c buffer quoting =
      relocateError f (relocate f below) (s.readText c buffer quoting) := by
  have hplain : ∀ buffer, (s.relocate f below).readPlain c buffer =
      relocateError f (relocate f below) (s.readPlain c buffer) := readPlain_relocate c s
  cases quoting with
  | plain => exact hplain buffer
  | pending =>
    rw [readText, readText, inPlural_relocate]
    split
    next => rfl
    next =>
      split
      next => rfl
      next => exact hplain _
  | quoted =>
    rw [readText, readText]
    split <;> rfl
  | closing =>
    rw [readText, readText]
    split
    next => rfl
    next => exact hplain buffer

/-- **A character does the same wherever the pattern stands.** -/
theorem step_relocate : (s.relocate f below).step limit (f p) c =
    relocateError f (relocate f below) (s.step limit p c) := by
  unfold step
  rw [mode_relocate]
  cases s.mode with
  | text buffer quoting => exact readText_relocate c s buffer quoting
  | word word start role => exact readWord_relocate limit p c s word start role
  | between place => exact readBetween_relocate limit p c s place

theorem finish_relocate : (s.relocate f below).finish (f p) =
    relocateError f (below.reverse ++ ·) (s.finish p) := by
  unfold finish
  rw [mode_relocate]
  cases s.mode with
  | text buffer quoting =>
    dsimp only [Mode.relocate]
    rw [frames_relocate, ← relocate_withText]
    cases h : s.frames with
    | nil =>
      have hframes : (s.withText (finalText buffer quoting)).frames = [] := by
        rw [frames_withText, h]
      exact congrArg Except.ok (message_relocate_of_nil _ hframes)
    | cons g outer => rfl
  | word word start role =>
    dsimp only [Mode.relocate]
    rw [Role.complete_relocate]
    cases role.complete word start <;> rfl
  | between place => rfl

end State

/-! ### Runs -/

/-- **So does a whole pattern**, if the positions in it move along. -/
theorem read_relocate (limit : Nat) {p : Position} (s : State) {cs : List Char}
    (hf : ∀ pre, f (p.after pre) = (f p).after pre) :
    read limit (f p) (s.relocate f below) cs =
      relocateError f (below.reverse ++ ·) (read limit p s cs) := by
  induction cs generalizing p s with
  | nil => exact s.finish_relocate p
  | cons c cs ih =>
    have hadvance : f (p.advance c) = (f p).advance c := hf [c]
    rw [read_cons, read_cons, State.step_relocate]
    cases s.step limit p c with
    | error e => rfl
    | ok t =>
      show read limit ((f p).advance c) (t.relocate f below) cs = _
      rw [← hadvance]
      refine ih t fun pre => ?_
      rw [hadvance]
      exact hf (c :: pre)

end Pattern

end MessagePattern
