import MessagePattern.Integer
import MessagePattern.Lexis.CharClass
import MessagePattern.Lexis.Keyword
import MessagePattern.Limits
import MessagePattern.Pattern.Error
import MessagePattern.Pattern.State

/-! Reading one character.

Inside a word an identifier character belongs to the word. Any other character, and
likewise the end of the pattern, first completes the word (`Role.complete`) and is then
looked at from the place behind it, so a word is judged before what follows it. -/
namespace MessagePattern.Pattern

open Lexis

/-! ### Words -/

/-- The selector a word spells. -/
def Selector.ofKeyword? (word : String) : Option Selector :=
  if word = selectWord then some .select
  else if word = pluralWord then some (.plural false none)
  else if word = ordinalWord then some (.plural true none)
  else none

/-- The place behind a finished word, unless the word cannot stand where it began. -/
def Role.complete (word : String) (start : Position) : Role → Except ParseError Place
  | .argument =>
    if isPaddedNumber word then .error (.unexpectedToken word start [])
    else .ok (.afterArgument word)
  | .keyword a =>
    match Selector.ofKeyword? word with
    | some selector => .ok (.afterSelector a selector)
    | none =>
      let type := ArgumentType.ofKeyword word
      if type = .invalid then
        .error (.unexpectedToken word start (Suggestion.suggest word argumentKeywords))
      else .ok (.afterType a type)
  | .style a type =>
    let style := ArgumentStyle.ofKeyword word
    if style = .invalid then
      .error (.unexpectedToken word start (Suggestion.suggest word ArgumentStyle.keywords))
    else .ok (.afterStyle a type style)
  | .key choice => .ok (.branch choice word start)
  | .integer choice use =>
    match Integer.ofLiteral? word.toList with
    | none => .error (.unexpectedToken word start [])
    | some n =>
      match use with
      | .key keyStart => .ok (.branch choice (exactKey n) keyStart)
      | .offset => .ok (.key (choice.withOffset n))

/-! ### Places -/

/-- White space separates tokens, but none may part an integer from its sign or a key
from its equals sign. -/
def Place.skipsWhiteSpace : Place → Bool
  | .exact _ _ | .minus _ _ _ => false
  | _ => true

/-- The mode in which the identifier character `c` at `p` begins a word, where one may
begin. A word behind a minus sign begins with the sign. -/
def Place.wordMode? (c : Char) (p : Position) : Place → Option Mode
  | .opened => some (.word c.toString p .argument)
  | .keyword a => some (.word c.toString p (.keyword a))
  | .style a type => some (.word c.toString p (.style a type))
  | .key choice => some (.word c.toString p (.key choice))
  | .exact choice start => some (.word c.toString p (.integer choice (.key start)))
  | .offset choice => some (.word c.toString p (.integer choice .offset))
  | .minus choice use sign => some (.word ("-" ++ c.toString) sign (.integer choice use))
  | .afterArgument _ | .afterType _ _ | .afterStyle _ _ _ | .afterSelector _ _
  | .branch _ _ _ => none

namespace State

/-- Enter a branch, whose brace stands at `p`. -/
def openBranch (limit : Nat) (p : Position) (s : State) (choice : Choice) (key : String)
    (start : Position) : Except ParseError State :=
  if limit ≤ s.depth then .error (.tooDeep limit p)
  else .ok ⟨⟨s.parts, choice, key, start⟩ :: s.frames, [], .text "" .plain⟩

/-- Leave the branch `f`; no key may be given twice. -/
def closeBranch (s : State) (f : Frame) (outer : List Frame) : Except ParseError State :=
  if (f.choice.branches.lookup f.key).isSome then .error (.unexpectedToken f.key f.start [])
  else
    .ok ⟨outer, f.before, .between (.key
      { f.choice with branches := insertEntry f.key s.message f.choice.branches })⟩

/-- What the punctuation mark `c` at `p` does in each place. -/
def mark (limit : Nat) (p : Position) (c : Char) (s : State) : Place → Except ParseError State
  | .afterArgument a =>
    if c = '}' then .ok (s.withPart (.plain a))
    else if c = ',' then .ok (s.become (.between (.keyword a)))
    else .error (.unexpectedChar c p)
  | .afterType a type =>
    if c = '}' then .ok (s.withPart (.simple a type .default))
    else if c = ',' then .ok (s.become (.between (.style a type)))
    else .error (.unexpectedChar c p)
  | .afterStyle a type style =>
    if c = '}' then .ok (s.withPart (.simple a type style)) else .error (.unexpectedChar c p)
  | .afterSelector a selector =>
    if c = ',' then .ok (s.become (.between (.key ⟨a, selector, []⟩)))
    else .error (.unexpectedChar c p)
  | .key choice =>
    if c = '}' && !choice.branches.isEmpty then .ok (s.withPart choice.part)
    else if c = '=' && choice.selector.isPlural then .ok (s.become (.between (.exact choice p)))
    else .error (.unexpectedChar c p)
  | .branch choice key start =>
    if c = '{' then s.openBranch limit p choice key start else .error (.unexpectedChar c p)
  | .exact choice start =>
    if c = '-' then .ok (s.become (.between (.minus choice (.key start) p)))
    else .error (.unexpectedChar c p)
  | .offset choice =>
    if c = '-' then .ok (s.become (.between (.minus choice .offset p)))
    else .error (.unexpectedChar c p)
  | .opened | .keyword _ | .style _ _ | .minus _ _ _ => .error (.unexpectedChar c p)

/-- Read `c` between two tokens. -/
def readBetween (limit : Nat) (p : Position) (c : Char) (s : State) (place : Place) :
    Except ParseError State :=
  if isIdentifierChar c then
    match place.wordMode? c p with
    | some mode => .ok (s.become mode)
    | none => .error (.unexpectedChar c p)
  else if isWhiteSpace c && place.skipsWhiteSpace then .ok (s.become (.between place))
  else s.mark limit p c place

/-- Read `c` inside a word. The colon behind the word `offset` makes it an offset where
one may stand. -/
def readWord (limit : Nat) (p : Position) (c : Char) (s : State) (word : String)
    (start : Position) (role : Role) : Except ParseError State :=
  if isIdentifierChar c then .ok (s.become (.word (word.push c) start role))
  else
    match role.complete word start with
    | .error e => .error e
    | .ok place =>
      match role with
      | .key choice =>
        if c = ':' && word = offsetWord && choice.takesOffset then
          .ok (s.become (.between (.offset choice)))
        else s.readBetween limit p c place
      | _ => s.readBetween limit p c place

/-! ### Text -/

/-- Read `c` in a text, outside quoted spans. A closing brace is literal at the top
level, and `#` outside plural branches. -/
def readPlain (c : Char) (s : State) (buffer : String) : Except ParseError State :=
  if c = '{' then .ok ((s.withText buffer).become (.between .opened))
  else if c = '#' && s.inPlural then .ok ((s.withText buffer).withPart .marker)
  else if c = '\'' then .ok (s.become (.text buffer .pending))
  else
    match s.frames with
    | [] => .ok (s.become (.text (buffer.push c) .plain))
    | f :: outer =>
      if c = '}' then (s.withText buffer).closeBranch f outer
      else .ok (s.become (.text (buffer.push c) .plain))

/-- Read `c` in a text. An apostrophe opens a span only in front of a character that
needs quoting. -/
def readText (c : Char) (s : State) (buffer : String) : Quoting → Except ParseError State
  | .plain => s.readPlain c buffer
  | .pending =>
    if c = '\'' then .ok (s.become (.text (buffer.push c) .plain))
    else if needsQuoting s.inPlural c then .ok (s.become (.text (buffer.push c) .quoted))
    else s.readPlain c (buffer.push '\'')
  | .quoted =>
    if c = '\'' then .ok (s.become (.text buffer .closing))
    else .ok (s.become (.text (buffer.push c) .quoted))
  | .closing =>
    if c = '\'' then .ok (s.become (.text (buffer.push c) .quoted)) else s.readPlain c buffer

/-! ### Characters and the end -/

/-- Read the character `c`, which stands at `p`. -/
def step (limit : Nat) (p : Position) (c : Char) (s : State) : Except ParseError State :=
  match s.mode with
  | .text buffer quoting => s.readText c buffer quoting
  | .word word start role => s.readWord limit p c word start role
  | .between place => s.readBetween limit p c place

theorem step_text (limit : Nat) (p : Position) (c : Char) (s : State) (buffer : String)
    (quoting : Quoting) :
    (s.become (.text buffer quoting)).step limit p c =
      (s.become (.text buffer quoting)).readText c buffer quoting := rfl

theorem step_word (limit : Nat) (p : Position) (c : Char) (s : State) (word : String)
    (start : Position) (role : Role) :
    (s.become (.word word start role)).step limit p c =
      (s.become (.word word start role)).readWord limit p c word start role := rfl

theorem step_between (limit : Nat) (p : Position) (c : Char) (s : State) (place : Place) :
    (s.become (.between place)).step limit p c =
      (s.become (.between place)).readBetween limit p c place := rfl

/-- A text that ends behind an apostrophe of open meaning ends with it. -/
def finalText (buffer : String) : Quoting → String
  | .pending => buffer.push '\''
  | .plain | .quoted | .closing => buffer

/-- Read the end of the pattern, which stands at `p`. Only top-level text may end
there, but a word that cannot stand where it began is reported first. -/
def finish (p : Position) (s : State) : Except ParseError Message :=
  match s.mode with
  | .text buffer quoting =>
    match s.frames with
    | [] => .ok (s.withText (finalText buffer quoting)).message
    | _ :: _ => .error (.unexpectedEnd p)
  | .word word start role =>
    match role.complete word start with
    | .error e => .error e
    | .ok _ => .error (.unexpectedEnd p)
  | .between _ => .error (.unexpectedEnd p)

end State

end MessagePattern.Pattern
