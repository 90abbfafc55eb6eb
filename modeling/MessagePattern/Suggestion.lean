/-! Suggestions for a misspelt word.

`editDistance a b` is the least number of insertions, deletions and substitutions of
single characters that turn `a` into `b`. It is the head of a row of distances from
`a` to every suffix of `b`, and a row is computed from the row of the next shorter
`a`.

A candidate is suggested when it is near enough, which for a short word means one edit
and for a longer one two. Nearer candidates come first, equally near ones in their
given order, and three at most are named. -/
namespace MessagePattern.Suggestion

/-! ### Edit distance -/

/-- From the distances of `a` to every suffix of `b`, those of `x :: a`. -/
def extendRow (x : Char) : (b : List Char) → (row : List Nat) → List Nat
  | [], row => [row.headD 0 + 1]
  | y :: b, row =>
    let rest := extendRow x b row.tail
    let substituted := row.tail.headD 0 + if x = y then 0 else 1
    min (min (row.headD 0 + 1) (rest.headD 0 + 1)) substituted :: rest

/-- The distances of the empty word to every suffix of `b`. -/
def emptyRow : (b : List Char) → List Nat
  | [] => [0]
  | y :: b => (y :: b).length :: emptyRow b

/-- The distances of `a` to every suffix of `b`, longest first. -/
def distances (b : List Char) : (a : List Char) → List Nat
  | [] => emptyRow b
  | x :: a => extendRow x b (distances b a)

def editDistance (a b : String) : Nat := (distances b.toList a.toList).headD 0

/-! ### Choosing -/

/-- How many edits may separate a word from what is suggested for it. -/
def tolerance (word : String) : Nat := if word.length ≤ 3 then 1 else 2

/-- How many suggestions are made at most. -/
def atMost : Nat := 3

/-- The candidates that take exactly `d` edits, in their given order. -/
def atDistance (word : String) (candidates : List String) (d : Nat) : List String :=
  candidates.filter fun c => editDistance word c == d

/-- What to suggest for `word`: never the word itself. -/
def suggest (word : String) (candidates : List String) : List String :=
  ((List.range' 1 (tolerance word)).flatMap (atDistance word candidates)).take atMost

/-- The question added to a report, empty without suggestions. -/
def didYouMean : (suggestions : List String) → String
  | [] => ""
  | s :: rest => ", did you mean " ++ " or ".intercalate ((s :: rest).map fun s => s!"'{s}'") ++ "?"

end MessagePattern.Suggestion
