import Mathlib.Data.List.DropRight
import Mathlib.Data.List.Induction
import MessagePattern.Position

/-! What a position counts.

A position is moved character by character. Here it is said outright what it has come to
behind the beginning of a pattern (`Position.start_after`): its line counts the line feeds,
its columns the characters and bytes behind the last of them.

Every character moves it on (`Position.before_after`), so a position says at which character
of a pattern it is (`Position.eq_of_after_eq`). -/
namespace MessagePattern

/-! ### What is counted -/

/-- The characters behind the last line feed. -/
def lastLine (cs : List Char) : List Char := cs.rtakeWhile (· ≠ '\n')

theorem lastLine_append_newline (cs : List Char) : lastLine (cs ++ ['\n']) = [] :=
  List.rtakeWhile_concat_neg _ _ _ (by decide)

theorem lastLine_append_singleton {c : Char} (h : c ≠ '\n') (cs : List Char) :
    lastLine (cs ++ [c]) = lastLine cs ++ [c] :=
  List.rtakeWhile_concat_pos _ _ _ (by simpa using h)

/-- **A position counts the lines in front of it**, and the bytes and characters of its own
line. -/
theorem Position.start_after (cs : List Char) :
    start.after cs = ⟨1 + cs.count '\n', 1 + (String.ofList (lastLine cs)).utf8ByteSize,
      1 + (lastLine cs).length⟩ := by
  induction cs using List.reverseRecOn with
  | nil => rfl
  | append_singleton cs c ih =>
    rw [after_append, ih, after_cons, after_nil, advance]
    by_cases hc : c = '\n'
    · subst hc
      rw [if_pos rfl, lastLine_append_newline, List.count_append]
      rfl
    · rw [if_neg hc, lastLine_append_singleton hc, List.count_append,
        List.count_singleton, if_neg (by simpa using hc)]
      simp [Nat.add_assoc]

/-! ### Reading order -/

namespace Position

/-- On a line above, or on the same line to the left. -/
def Before (p q : Position) : Prop :=
  p.line < q.line ∨ p.line = q.line ∧ p.charColumn < q.charColumn

theorem before_advance (p : Position) (c : Char) : p.Before (p.advance c) := by
  unfold advance
  split
  next => exact .inl (Nat.lt_succ_self _)
  next => exact .inr ⟨rfl, Nat.lt_succ_self _⟩

theorem Before.trans {p q r : Position} (h : p.Before q) (h' : q.Before r) : p.Before r := by
  unfold Before at *
  omega

theorem Before.ne {p q : Position} (h : p.Before q) : p ≠ q := by
  rintro rfl
  unfold Before at h
  omega

/-- **Characters move a position on.** -/
theorem before_after {cs : List Char} (h : cs ≠ []) (p : Position) : p.Before (p.after cs) := by
  induction cs generalizing p with
  | nil => exact absurd rfl h
  | cons c cs ih =>
    rw [after_cons]
    by_cases hcs : cs = []
    · subst hcs
      exact before_advance p c
    · exact (before_advance p c).trans (ih hcs _)

/-- A pattern has a position in one place only. -/
theorem eq_of_after_eq {p : Position} {front front' rest rest' : List Char}
    (h : front ++ rest = front' ++ rest') (hp : p.after front = p.after front') :
    front = front' ∧ rest = rest' := by
  rcases List.append_eq_append_iff.1 h with ⟨w, rfl, rfl⟩ | ⟨w, rfl, rfl⟩
  · rw [after_append] at hp
    by_cases hw : w = []
    · subst hw
      exact ⟨(List.append_nil _).symm, rfl⟩
    · exact absurd hp (before_after hw _).ne
  · rw [after_append] at hp
    by_cases hw : w = []
    · subst hw
      exact ⟨List.append_nil _, rfl⟩
    · exact absurd hp.symm (before_after hw _).ne

end Position

end MessagePattern
