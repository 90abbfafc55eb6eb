import MessagePattern.Pattern.Step

/-! Reading a whole pattern.

`run_append`: reading a concatenation is reading its halves in turn. -/
namespace MessagePattern.Pattern

/-- Read the characters `cs`, the first of which stands at `p`. -/
def run (limit : Nat) (p : Position) (s : State) : List Char → Except ParseError State
  | [] => .ok s
  | c :: rest =>
    match s.step limit p c with
    | .error e => .error e
    | .ok t => run limit (p.advance c) t rest

/-- Read `cs` and then the end of the pattern. -/
def read (limit : Nat) (p : Position) (s : State) (cs : List Char) : Except ParseError Message :=
  match run limit p s cs with
  | .error e => .error e
  | .ok t => t.finish (p.after cs)

/-- The message of a pattern, or the first error in it. The length limit is looked at
before anything else. -/
def parse (limits : Limits) (pattern : String) : Except ParseError Message :=
  match limits.maxLength with
  | some limit =>
    if limit < pattern.utf8ByteSize then .error (.tooLong pattern.utf8ByteSize limit)
    else read limits.maxDepth .start .initial pattern.toList
  | none => read limits.maxDepth .start .initial pattern.toList

/-! ### Runs -/

theorem run_append (limit : Nat) (p : Position) (s : State) (a b : List Char) :
    run limit p s (a ++ b) = (run limit p s a).bind fun t => run limit (p.after a) t b := by
  induction a generalizing p s with
  | nil => rfl
  | cons c rest ih =>
    simp only [List.cons_append, run, Position.after_cons]
    cases s.step limit p c with
    | error e => rfl
    | ok t => exact ih _ _

end MessagePattern.Pattern
