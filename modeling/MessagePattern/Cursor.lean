import MessagePattern.Position

/-! A cursor over the characters of a text, with one character of lookahead.

The next character is taken off the others before it is read, and looking at it leaves it
there. A cursor holds no others once there is no next one (`Cursor.ahead`), so that it can be
told by what it has not read (`Cursor.load_rest`).

The cursor is a value: a copy kept aside returns to where it was taken. Reading moves it by
one character and fails only at the end, where it changes nothing. -/
namespace MessagePattern

structure Cursor where
  /-- The characters behind the next one. -/
  chars : List Char
  /-- The character read last. -/
  last : Char
  /-- The character to be read next. -/
  next : Option Char
  /-- The place of the next character. -/
  position : Position
  ahead : next = none → chars = []

namespace Cursor

/-- Take the next character off those that are left. -/
def load (rest : List Char) (last : Char) (position : Position) : Cursor where
  chars := rest.tail
  last := last
  next := rest.head?
  position := position
  ahead h := by rw [List.head?_eq_none_iff.1 h, List.tail_nil]

/-- The replacement character stands for the last character of a fresh cursor. -/
def ofString (text : String) : Cursor := load text.toList '\uFFFD' .start

/-- The characters not yet read. -/
def rest (c : Cursor) : List Char := c.next.toList ++ c.chars

/-- The next character, which stays unread. -/
def peek (c : Cursor) : Option Char := c.next

/-- Read one character. -/
def next? (c : Cursor) : Option Cursor :=
  match c.next with
  | none => none
  | some x => some (load c.chars x (c.position.advance x))

/-! ### Cursors by what is left -/

@[simp] theorem rest_load (rest : List Char) (x : Char) (p : Position) :
    (load rest x p).rest = rest := by
  cases rest <;> rfl

@[simp] theorem rest_ofString (text : String) : (ofString text).rest = text.toList :=
  rest_load _ _ _

theorem load_rest (c : Cursor) : load c.rest c.last c.position = c := by
  obtain ⟨chars, x, next, p, ahead⟩ := c
  cases next with
  | none =>
    obtain rfl := ahead rfl
    rfl
  | some y => rfl

theorem exists_eq_load (c : Cursor) : ∃ rest x p, c = load rest x p :=
  ⟨c.rest, c.last, c.position, c.load_rest.symm⟩

/-- What is looked at is the first of what is left. -/
theorem peek_eq (c : Cursor) : c.peek = c.rest.head? := by
  obtain ⟨rest, x, p, rfl⟩ := c.exists_eq_load
  rw [rest_load]
  rfl

/-- Reading fails exactly where nothing is left to look at. -/
theorem next?_eq_none_iff (c : Cursor) : c.next? = none ↔ c.peek = none := by
  unfold next? peek
  cases c.next <;> simp

end Cursor

end MessagePattern
