import MessagePattern.Message.Basic
import MessagePattern.Position

/-! What a reader of patterns remembers between two characters.

A pattern is read one character at a time. The reader holds the parts read so far of
the innermost message, the branches open around it, and a mode: inside literal text,
inside a word, or between two tokens of an argument. How deep the branches nest and
whether `#` stands for an operand follow from the open branches. -/
namespace MessagePattern.Pattern

/-- How the apostrophes of a text are being resolved. -/
inductive Quoting where
  /-- Outside quoted spans. -/
  | plain
  /-- Behind an apostrophe whose meaning the next character decides. -/
  | pending
  /-- Inside a quoted span. -/
  | quoted
  /-- Behind an apostrophe inside a span: the end of the span, or half an apostrophe. -/
  | closing
  deriving DecidableEq, Repr

/-- What an argument chooses its branch by. -/
inductive Selector where
  | select
  /-- The offset is `none` until one is written. -/
  | plural (ordinal : Bool) (offset : Option Int64)
  deriving DecidableEq

def Selector.isPlural : Selector → Bool
  | select => false
  | plural _ _ => true

/-- A select or plural argument with the branches read so far. -/
structure Choice where
  argument : String
  selector : Selector
  branches : Branches

namespace Choice

/-- The finished argument; an offset that was not written is zero. -/
def part (c : Choice) : Part :=
  match c.selector with
  | .select => .select c.argument c.branches
  | .plural ordinal offset => .plural c.argument ordinal (offset.getD 0) c.branches

/-- An offset may be written once, in front of all branches of a plural. -/
def takesOffset (c : Choice) : Bool :=
  match c.selector with
  | .select => false
  | .plural _ offset => offset.isNone && c.branches.isEmpty

/-- Keep the offset of a plural. -/
def withOffset (c : Choice) (n : Int64) : Choice :=
  match c.selector with
  | .select => c
  | .plural ordinal _ => { c with selector := .plural ordinal (some n) }

end Choice

/-- An open branch: the parts in front of its argument, newest first, the argument
itself, and the key with its place. -/
structure Frame where
  before : List Part
  choice : Choice
  key : String
  start : Position

/-- What an integer literal is for. -/
inductive Use where
  /-- The key of a branch, whose equals sign stands at `start`. -/
  | key (start : Position)
  | offset
  deriving DecidableEq

/-- What a word is for. -/
inductive Role where
  | argument
  /-- The word that says what kind of argument this is. -/
  | keyword (argument : String)
  | style (argument : String) (type : ArgumentType)
  /-- The key of a branch. -/
  | key (choice : Choice)
  | integer (choice : Choice) (use : Use)

/-- A place between two tokens of an argument. -/
inductive Place where
  /-- Behind the opening brace. -/
  | opened
  | afterArgument (argument : String)
  /-- Behind the first comma. -/
  | keyword (argument : String)
  | afterType (argument : String) (type : ArgumentType)
  /-- Behind the second comma of a typed argument. -/
  | style (argument : String) (type : ArgumentType)
  | afterStyle (argument : String) (type : ArgumentType) (style : ArgumentStyle)
  | afterSelector (argument : String) (selector : Selector)
  /-- In front of a branch or the closing brace. -/
  | key (choice : Choice)
  /-- In front of the brace that opens a branch. -/
  | branch (choice : Choice) (key : String) (start : Position)
  /-- Behind the equals sign of a key. -/
  | exact (choice : Choice) (start : Position)
  /-- Behind the colon of an offset. -/
  | offset (choice : Choice)
  /-- Behind the minus sign at `sign`. -/
  | minus (choice : Choice) (use : Use) (sign : Position)

inductive Mode where
  /-- Inside literal text, of which `buffer` is read. -/
  | text (buffer : String) (quoting : Quoting)
  /-- Inside the word that began at `start`. -/
  | word (word : String) (start : Position) (role : Role)
  | between (place : Place)

structure State where
  /-- The open branches, innermost first. -/
  frames : List Frame
  /-- The parts of the innermost message, newest first. -/
  parts : List Part
  mode : Mode

namespace State

/-- In front of a pattern. -/
def initial : State := ⟨[], [], .text "" .plain⟩

/-- How many branches are open. -/
def depth (s : State) : Nat := s.frames.length

/-- Whether the innermost message is a branch. -/
def isNested (s : State) : Bool := !s.frames.isEmpty

/-- Whether the innermost message is a branch of a plural. -/
def inPlural (s : State) : Bool :=
  match s.frames with
  | [] => false
  | f :: _ => f.choice.selector.isPlural

/-- Go on in another mode. -/
def become (s : State) (mode : Mode) : State := { s with mode }

/-- End a text; an empty one is no part. -/
def withText (s : State) (buffer : String) : State :=
  if buffer.isEmpty then s else { s with parts := .text buffer :: s.parts }

/-- End a part; what follows is text again. -/
def withPart (s : State) (p : Part) : State :=
  { s with parts := p :: s.parts, mode := .text "" .plain }

/-- The parts of the innermost message in reading order. -/
def message (s : State) : Message := s.parts.reverse

@[simp] theorem frames_become (s : State) (m : Mode) : (s.become m).frames = s.frames := rfl

@[simp] theorem parts_become (s : State) (m : Mode) : (s.become m).parts = s.parts := rfl

@[simp] theorem inPlural_become (s : State) (m : Mode) : (s.become m).inPlural = s.inPlural := rfl

@[simp] theorem become_become (s : State) (m n : Mode) : (s.become m).become n = s.become n := rfl

end State

end MessagePattern.Pattern
