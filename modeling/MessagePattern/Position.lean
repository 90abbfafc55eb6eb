/-! Places in a pattern.

A position names the character about to be read. Line and columns count from one;
a line feed, and nothing else, starts a new line. Columns are kept twice, in bytes
of UTF-8 and in code points, so a report can be shown to a reader and to an editor.

`after_append`: moving over a concatenation is moving over its halves in turn. -/
namespace MessagePattern

structure Position where
  line : Nat
  byteColumn : Nat
  charColumn : Nat
  deriving DecidableEq, Repr

namespace Position

/-- Where every pattern starts. -/
def start : Position := ⟨1, 1, 1⟩

/-- The position behind the character `c`. -/
def advance (p : Position) (c : Char) : Position :=
  if c = '\n' then ⟨p.line + 1, 1, 1⟩
  else ⟨p.line, p.byteColumn + c.utf8Size, p.charColumn + 1⟩

/-- The position behind a run of characters. -/
def after (p : Position) (cs : List Char) : Position := cs.foldl advance p

/-- Reports show the line and the code point column. -/
def describe (p : Position) : String := s!"{p.line}:{p.charColumn}"

@[simp] theorem after_nil (p : Position) : p.after [] = p := rfl

@[simp] theorem after_cons (p : Position) (c : Char) (cs : List Char) :
    p.after (c :: cs) = (p.advance c).after cs := rfl

theorem after_append (p : Position) (a b : List Char) : p.after (a ++ b) = (p.after a).after b :=
  List.foldl_append

end Position

end MessagePattern
