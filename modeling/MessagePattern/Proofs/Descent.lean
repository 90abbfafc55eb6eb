import MessagePattern.Pattern.Parse
import MessagePattern.Proofs.Grammar
import MessagePattern.Proofs.Lookahead

/-! Reading by descent.

The reader of `Pattern.step` looks at one character at a time and keeps what is open in its
state. Here patterns are read the other way, by functions that look at a cursor and call one
another: a message calls for its arguments, an argument for its branches, a branch for the
message inside it. Loops go round as long as a round does not leave them, and a message opens
the next, so nothing in the shape of these functions bounds how long they run. They are given
`fuel`, and running out of it is a failure of its own.

Besides the cursor they keep a record, which nothing reads: of every message begun, where the
messages open at that time had begun.

`Ends.bind` and `Ends.iterate` take statements about a block and about a loop apart into
statements about their steps and rounds. `Ends.exists_outcome` gives a reader that has fuel
enough a result or an error. -/
namespace MessagePattern.Pattern.Descent

open Lexis

/-! ### Readers -/

/-- Why reading stops. -/
inductive Failure where
  /-- The pattern is at fault. -/
  | refused (e : ParseError)
  /-- Reading takes more rounds or calls than it was given. -/
  | exhausted

/-- The cursor, and for every message begun so far where the messages open at that time had
begun, itself first and the outermost last. -/
structure Trail where
  cursor : Cursor
  begun : List (List Cursor)

namespace Trail

def unread (t : Trail) : List Char := t.cursor.rest

def position (t : Trail) : Position := t.cursor.position

def skip (k : Nat) (t : Trail) : Trail := { t with cursor := t.cursor.skip k }

/-- Behind the characters in front that are of the class `p`. -/
def pass (p : Char → Bool) (t : Trail) : Trail := t.skip (t.unread.takeWhile p).length

/-- What to say of the next character where none like it may stand. -/
def fault (t : Trail) : ParseError :=
  match t.cursor.peek with
  | some c => .unexpectedChar c t.position
  | none => .unexpectedEnd t.position

@[simp] theorem unread_skip (k : Nat) (t : Trail) : (t.skip k).unread = t.unread.drop k :=
  Cursor.rest_skip k t.cursor

@[simp] theorem position_skip (k : Nat) (t : Trail) :
    (t.skip k).position = t.position.after (t.unread.take k) := Cursor.position_skip k t.cursor

@[simp] theorem unread_pass (p : Char → Bool) (t : Trail) :
    (t.pass p).unread = t.unread.dropWhile p := by
  have hdrop := @List.drop_left _ (t.unread.takeWhile p) (t.unread.dropWhile p)
  rw [List.takeWhile_append_dropWhile] at hdrop
  exact (unread_skip _ t).trans hdrop

@[simp] theorem position_pass (p : Char → Bool) (t : Trail) :
    (t.pass p).position = t.position.after (t.unread.takeWhile p) := by
  have htake := @List.take_left _ (t.unread.takeWhile p) (t.unread.dropWhile p)
  rw [List.takeWhile_append_dropWhile] at htake
  rw [pass, position_skip, htake]

theorem peek_eq (t : Trail) : t.cursor.peek = t.unread.head? := t.cursor.peek_eq

end Trail

/-- Nothing is left where there is no next character. -/
theorem unread_of_peek_none {t : Trail} (h : t.cursor.peek = none) : t.unread = [] := by
  rw [Trail.peek_eq] at h
  exact List.head?_eq_none_iff.1 h

theorem unread_of_peek_some {t : Trail} {c : Char} (h : t.cursor.peek = some c) :
    t.unread = c :: (t.skip 1).unread := by
  rw [Trail.peek_eq] at h
  obtain ⟨rest, hrest⟩ := List.head?_eq_some_iff.1 h
  rw [Trail.unread_skip, hrest]
  rfl

abbrev Reader : Type → Type := EStateM Failure Trail

variable {α β σ : Type}

/-! ### Tokens -/

def peek : Reader (Option Char) := fun t => .ok t.cursor.peek t

def position : Reader Position := fun t => .ok t.position t

def decode : Reader Unit := fun t => .ok () (t.skip 1)

def refuse (e : ParseError) : Reader α := fun t => .error (.refused e) t

def unexpected : Reader α := fun t => .error (.refused t.fault) t

def expect (c : Char) : Reader Unit := do
  let next ← peek
  if next = some c then decode else unexpected

def skipWhiteSpace : Reader Unit := fun t => .ok () (t.pass isWhiteSpace)

/-- The longest run of identifier characters, possibly none. -/
def identifier : Reader String := fun t =>
  .ok (String.ofList (t.unread.takeWhile isIdentifierChar)) (t.pass isIdentifierChar)

def requiredIdentifier : Reader String := do
  let word ← identifier
  if word.isEmpty then unexpected else return word

/-- A minus sign, where there is one. -/
def sign : Reader String := do
  let next ← peek
  if next = some '-' then
    decode
    return "-"
  else return ""

/-- An integer literal. Its sign and its digits are read apart and judged together. -/
def integer : Reader Int64 := do
  let start ← position
  let sign ← sign
  let word ← requiredIdentifier
  match Integer.ofSigned? (sign ++ word).toList with
  | some n => return n
  | none => refuse (.unexpectedToken (sign ++ word) start [])

/-! ### Loops -/

/-- Go on with `round` until it leaves the loop, for at most `fuel` rounds. -/
def iterate (round : σ → Reader (Option σ)) : Nat → σ → Reader σ
  | 0, _ => fun t => .error .exhausted t
  | fuel + 1, x => do
    match ← round x with
    | some y => iterate round fuel y
    | none => return x

/-! ### Text -/

/-- One round of a text, given what is read of it and whether a quoted span is open. -/
def textRound (nested inPlural : Bool) :
    String × Bool → Reader (Option (String × Bool))
  | (text, true) => do
    match ← peek with
    | none => return none
    | some c =>
      decode
      if c = '\'' then
        let next ← peek
        if next = some '\'' then
          decode
          return some (text.push '\'', true)
        else return some (text, false)
      else return some (text.push c, true)
  | (text, false) => do
    match ← peek with
    | none => return none
    | some c =>
      if endsText nested inPlural c then return none
      else if c = '\'' then
        decode
        match ← peek with
        | none => return some (text.push '\'', false)
        | some d =>
          if d = '\'' then
            decode
            return some (text.push '\'', false)
          else if needsQuoting inPlural d then return some (text, true)
          else return some (text.push '\'', false)
      else
        decode
        return some (text.push c, false)

def text (fuel : Nat) (nested inPlural : Bool) : Reader String := do
  let (text, _) ← iterate (textRound nested inPlural) fuel ("", false)
  return text

/-! ### Arguments -/

/-- The style behind a type, up to the closing brace. -/
def style : Reader ArgumentStyle := do
  let next ← peek
  if next = some '}' then return .default
  else if next = some ',' then
    decode
    skipWhiteSpace
    let start ← position
    let word ← requiredIdentifier
    if ArgumentStyle.ofKeyword word = .invalid then
      refuse (.unexpectedToken word start (Suggestion.suggest word ArgumentStyle.keywords))
    else
      skipWhiteSpace
      return .ofKeyword word
  else unexpected

/-- The rest of a typed argument behind `keyword`, which stood at `start`. -/
def simple (a keyword : String) (start : Position) : Reader Part := do
  if ArgumentType.ofKeyword keyword = .invalid then
    refuse (.unexpectedToken keyword start (Suggestion.suggest keyword argumentKeywords))
  else
    let style ← style
    expect '}'
    return .simple a (.ofKeyword keyword) style

/-- Give a choice another branch; no key may be given twice. -/
def insertBranch (choice : Choice) (key : String) (start : Position) (m : Message) :
    Reader Choice :=
  if (choice.branches.lookup key).isSome then refuse (.unexpectedToken key start [])
  else return { choice with branches := insertEntry key m choice.branches }

/-- End a choice, which needs a branch, at its closing brace. -/
def close (choice : Choice) : Reader Part := do
  if choice.branches.isEmpty then unexpected
  else
    decode
    return choice.part

/-- What a message hands down: the limit and the fuel, the reader of the messages inside it,
and where it and the messages around it began. -/
structure Scope where
  limit : Nat
  fuel : Nat
  nested : List Cursor → (inPlural : Bool) → Reader Message
  around : List Cursor
  start : Cursor

/-- How many messages are open around this one. -/
def Scope.depth (l : Scope) : Nat := l.around.length

section
variable (l : Scope)

/-- A branch in its braces. -/
def branch (inPlural : Bool) : Reader Message := do
  let next ← peek
  if next = some '{' then
    if l.limit ≤ l.depth then
      let start ← position
      refuse (.tooDeep l.limit start)
    else
      decode
      let m ← l.nested (l.start :: l.around) inPlural
      expect '}'
      return m
  else unexpected

/-- The branch behind a key, which stood at `start`. -/
def keyed (inPlural : Bool) (choice : Choice) (key : String) (start : Position) :
    Reader (Option Choice) := do
  skipWhiteSpace
  let m ← branch l inPlural
  let choice ← insertBranch choice key start m
  return some choice

def selectRound (choice : Choice) : Reader (Option Choice) := do
  skipWhiteSpace
  let next ← peek
  if next = some '}' then return none
  else
    let start ← position
    let key ← requiredIdentifier
    keyed l false choice key start

/-- An offset is a round of its own, without a branch. -/
def pluralRound (choice : Choice) : Reader (Option Choice) := do
  skipWhiteSpace
  let start ← position
  let next ← peek
  if next = some '}' then return none
  else if next = some '=' then
    decode
    let n ← integer
    keyed l true choice (exactKey n) start
  else
    let word ← requiredIdentifier
    let behind ← peek
    if behind = some ':' && word = offsetWord && choice.takesOffset then
      decode
      skipWhiteSpace
      let n ← integer
      return some (choice.withOffset n)
    else keyed l true choice word start

def select (a : String) : Reader Part := do
  let choice ← iterate (selectRound l) l.fuel ⟨a, .select, []⟩
  close choice

def plural (a : String) (ordinal : Bool) : Reader Part := do
  let choice ← iterate (pluralRound l) l.fuel ⟨a, .plural ordinal none, []⟩
  close choice

/-- What follows the comma behind the name of an argument. -/
def kind (a : String) : Reader Part := do
  skipWhiteSpace
  let start ← position
  let keyword ← requiredIdentifier
  skipWhiteSpace
  if keyword = selectWord then
    expect ','
    select l a
  else if keyword = pluralWord then
    expect ','
    plural l a false
  else if keyword = ordinalWord then
    expect ','
    plural l a true
  else simple a keyword start

/-- An argument in its braces. -/
def argument : Reader Part := do
  expect '{'
  skipWhiteSpace
  let start ← position
  let a ← requiredIdentifier
  if isPaddedNumber a then refuse (.unexpectedToken a start [])
  else
    skipWhiteSpace
    let next ← peek
    if next = some '}' then
      decode
      return .plain a
    else if next = some ',' then
      decode
      kind l a
    else unexpected

/-! ### Messages -/

/-- One round of a message, given its parts so far, newest first. -/
def messageRound (inPlural : Bool) (parts : List Part) : Reader (Option (List Part)) := do
  match ← peek with
  | none => if l.depth = 0 then return none else unexpected
  | some c =>
    if c = '{' then
      let part ← argument l
      return some (part :: parts)
    else if c = '}' && l.depth ≠ 0 then return none
    else if c = '#' && inPlural then
      decode
      return some (.marker :: parts)
    else
      let text ← text l.fuel (l.depth ≠ 0) inPlural
      return some (.text text :: parts)

end

/-- Record that a message begins here, inside those that began at `around`. -/
def begin (around : List Cursor) : Reader Cursor :=
  fun t => .ok t.cursor { t with begun := (t.cursor :: around) :: t.begun }

/-- A message up to the end, or to the brace that closes its branch. -/
def message (limit : Nat) : (fuel : Nat) → (around : List Cursor) → (inPlural : Bool) →
    Reader Message
  | 0, _, _ => fun t => .error .exhausted t
  | fuel + 1, around, inPlural => do
    let start ← begin around
    let parts ← iterate
      (messageRound ⟨limit, fuel + 1, message limit fuel, around, start⟩ inPlural) (fuel + 1) []
    return parts.reverse

/-- The scope of a message that began at `start`. -/
def scope (limit fuel : Nat) (around : List Cursor) (start : Cursor) : Scope :=
  ⟨limit, fuel + 1, message limit fuel, around, start⟩

/-- In front of a pattern. -/
def Trail.start (pattern : String) : Trail := ⟨.ofString pattern, []⟩

@[simp] theorem Trail.unread_start (pattern : String) :
    (Trail.start pattern).unread = pattern.toList := Cursor.rest_ofString pattern

/-! ### Where a reader ends -/

/-- From `t`, `x` ends as `done` says or fails as `failed` says. -/
def Ends (x : Reader α) (t : Trail) (done : α → Trail → Prop)
    (failed : Failure → Trail → Prop) : Prop :=
  match x t with
  | .ok a u => done a u
  | .error e u => failed e u

/-- What a reader gives that comes to `e`, and to `u`. -/
def outcome (e : Except ParseError α) (u : Trail) : EStateM.Result Failure Trail α :=
  match e with
  | .ok a => .ok a u
  | .error e => .error (.refused e) u

namespace Ends

variable {x : Reader α} {t u : Trail} {done done' : α → Trail → Prop}
  {failed failed' : Failure → Trail → Prop} {e : Except ParseError α}

/-- A reader that does not run out of fuel gives a result or an error. -/
theorem exists_outcome (h : Ends x t done failed) (hfuel : ∀ u, ¬ failed .exhausted u) :
    ∃ e u, x t = outcome e u := by
  unfold Ends at h
  cases hx : x t with
  | ok a u => exact ⟨.ok a, u, rfl⟩
  | error e u =>
    rw [hx] at h
    cases e with
    | refused e => exact ⟨.error e, u, rfl⟩
    | exhausted => exact absurd h (hfuel u)

theorem of_eq_outcome (h : Ends x t done failed) (hx : x t = outcome e u) :
    (∀ a, e = .ok a → done a u) ∧ ∀ e', e = .error e' → failed (.refused e') u := by
  unfold Ends at h
  rw [hx] at h
  refine ⟨?_, ?_⟩
  · rintro a rfl
    exact h
  · rintro e' rfl
    exact h

theorem mono (h : Ends x t done failed) (hdone : ∀ a u, done a u → done' a u)
    (hfailed : ∀ e u, failed e u → failed' e u) : Ends x t done' failed' := by
  unfold Ends at *
  cases hx : x t with
  | ok a u =>
    rw [hx] at h
    exact hdone a u h
  | error e u =>
    rw [hx] at h
    exact hfailed e u h

theorem and (h : Ends x t done failed) (h' : Ends x t done' failed') :
    Ends x t (fun a u => done a u ∧ done' a u) (fun e u => failed e u ∧ failed' e u) := by
  unfold Ends at *
  cases hx : x t with
  | ok a u =>
    rw [hx] at h h'
    exact ⟨h, h'⟩
  | error e u =>
    rw [hx] at h h'
    exact ⟨h, h'⟩

theorem pure {a : α} (h : done a t) : Ends (Pure.pure a) t done failed := h

theorem peek_bind {f : Option Char → Reader α} (h : Ends (f t.cursor.peek) t done failed) :
    Ends (peek >>= f) t done failed := h

theorem decode_bind {f : Unit → Reader α} (h : Ends (f ()) (t.skip 1) done failed) :
    Ends (decode >>= f) t done failed := h

/-- A block ends as what follows its first step ends behind that. -/
theorem bind {f : α → Reader β} {done : β → Trail → Prop}
    (h : Ends x t (fun a u => Ends (f a) u done failed) failed) :
    Ends (x >>= f) t done failed := by
  show (match EStateM.bind x f t with
    | .ok b u => done b u
    | .error e u => failed e u)
  unfold Ends at h
  unfold EStateM.bind
  cases hx : x t with
  | ok a u =>
    rw [hx] at h
    exact h
  | error e u =>
    rw [hx] at h
    exact h

/-- What holds with `fuel` rounds to go is carried from round to round, each with one less to
go, until a round leaves the loop or there is none left. -/
theorem iterate {round : σ → Reader (Option σ)} {done : σ → Trail → Prop}
    (inv : (fuel : Nat) → σ → Trail → Prop)
    (hround : ∀ fuel y u, inv (fuel + 1) y u → Ends (round y) u
      (fun next v =>
        match next with
        | some z => inv fuel z v
        | none => done y v) failed)
    (hnone : ∀ y u, inv 0 y u → failed .exhausted u)
    {fuel : Nat} {y : σ} (h : inv fuel y t) : Ends (iterate round fuel y) t done failed := by
  induction fuel generalizing y t with
  | zero => exact hnone y t h
  | succ fuel ih =>
    refine bind ((hround fuel y t h).mono ?_ fun _ _ => id)
    intro next u hnext
    cases next with
    | none => exact hnext
    | some z => exact ih hnext

end Ends

/-- Identifier characters are read as a word, and if there are none nothing is. -/
theorem ends_requiredIdentifier (t : Trail) : Ends requiredIdentifier t
    (fun word u => t.unread.takeWhile isIdentifierChar ≠ [] ∧
      word = String.ofList (t.unread.takeWhile isIdentifierChar) ∧ u = t.pass isIdentifierChar)
    fun e u => t.unread.takeWhile isIdentifierChar = [] ∧ e = .refused t.fault ∧ u = t := by
  show Ends (if _ then unexpected else Pure.pure _) (t.pass isIdentifierChar) _ _
  split
  next hempty =>
    have hnil : t.unread.takeWhile isIdentifierChar = [] := by simpa using hempty
    have hpass : t.pass isIdentifierChar = t := by
      rw [Trail.pass, hnil]
      rfl
    rw [hpass]
    exact ⟨hnil, rfl, rfl⟩
  next hne => exact .pure ⟨fun h => hne (by rw [h]; rfl), rfl, rfl⟩

end MessagePattern.Pattern.Descent
