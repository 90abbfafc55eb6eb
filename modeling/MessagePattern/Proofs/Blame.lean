import MessagePattern.Proofs.Positions
import MessagePattern.Proofs.Transition

/-! What an error points at.

Some errors are raised where the reader stands, others long behind what they are about: a
word is judged when it has ended, a key given twice when its branch has. So the reader keeps
positions, and `State.Tracks` says of each what it is the position of: of the text of a
word, of a sign, of the key of an open branch. Every step keeps this up
(`State.Tracks.step`) and every error is then about what stands at its position in the
pattern (`blames_of_parse`). -/
namespace MessagePattern.Pattern

open Lexis Integer

variable {limit : Nat} {s t : State}

/-! ### Errors and what they are about -/

/-- The error is about what comes behind `pre` in a pattern, which goes on with the
characters in the middle there. -/
inductive Blames (limit : Nat) (pre : List Char) : List Char → ParseError → Prop where
  /-- The token stands there. -/
  | token {found post suggestions} : found ≠ "" →
      Blames limit pre (found.toList ++ post)
        (.unexpectedToken found (Position.start.after pre) suggestions)
  /-- There stands an integer that was the key of a branch before, spelled in one way or
  another. It is named as it is kept. -/
  | repeated {n lit lit' post} : IsLiteral n lit → IsLiteral n lit' → '=' :: lit' <:+: pre →
      Blames limit pre ('=' :: (lit ++ post))
        (.unexpectedToken (exactKey n) (Position.start.after pre) [])
  | tooDeep {post} : Blames limit pre ('{' :: post) (.tooDeep limit (Position.start.after pre))
  | ended : Blames limit pre [] (.unexpectedEnd (Position.start.after pre))

/-- Somewhere in the pattern stands what the error is about. -/
def Blamed (limit : Nat) (cs : List Char) (e : ParseError) : Prop :=
  ∃ pre post, cs = pre ++ post ∧ Blames limit pre post e

theorem toList_toString (c : Char) : c.toString.toList = [c] := by simp [Char.toString]

theorem toString_ne_empty (c : Char) : c.toString ≠ "" := by
  intro h
  have hc := toList_toString c
  rw [h] at hc
  cases hc

theorem blamed_unexpectedChar (pre : List Char) (c : Char) (post : List Char) :
    Blamed limit (pre ++ c :: post) (.unexpectedChar c (Position.start.after pre)) :=
  ⟨pre, c.toString.toList ++ post, by rw [toList_toString]; rfl, .token (toString_ne_empty c)⟩

/-! ### Where keys come from -/

/-- The key of every branch was read from `pre`. -/
def Choice.Written (choice : Choice) (pre : List Char) : Prop :=
  ∀ b ∈ choice.branches, ∃ key, ReadsKey true key b.1 ∧ key <:+: pre

/-- The key `k` was read at `start` in `pre`, behind the branches of the choice. -/
def Choice.KeyAt (choice : Choice) (k : String) (start : Position) (pre : List Char) : Prop :=
  ∃ front key back, pre = front ++ (key ++ back) ∧ start = Position.start.after front ∧
    ReadsKey true key k ∧ choice.Written front

section
variable {choice : Choice} {k : String} {start : Position} {pre : List Char}

theorem Choice.Written.append (h : choice.Written pre) (w : List Char) :
    choice.Written (pre ++ w) := by
  intro b hb
  obtain ⟨key, hkey, hpart⟩ := h b hb
  exact ⟨key, hkey, hpart.trans (List.prefix_append pre w).isInfix⟩

theorem Choice.KeyAt.append (h : choice.KeyAt k start pre) (w : List Char) :
    choice.KeyAt k start (pre ++ w) := by
  obtain ⟨front, key, back, rfl, hstart, hkey, hwritten⟩ := h
  exact ⟨front, key, back ++ w, by simp only [List.append_assoc], hstart, hkey, hwritten⟩

/-- A branch that is closed has a key that was read. -/
theorem Choice.KeyAt.insertEntry (h : choice.KeyAt k start pre) (m : Message) :
    Choice.Written { choice with branches := insertEntry k m choice.branches } pre := by
  obtain ⟨front, key, back, rfl, -, hkey, hwritten⟩ := h
  intro b hb
  rcases mem_insertEntry hb with rfl | hb
  · exact ⟨key, hkey, front, back, by simp only [List.append_assoc]⟩
  · obtain ⟨key', hkey', hpart⟩ := hwritten b hb
    exact ⟨key', hkey', hpart.trans (List.prefix_append front _).isInfix⟩

theorem Choice.Written.withOffset (h : choice.Written pre) (n : Int64) :
    (choice.withOffset n).Written pre := by
  unfold Choice.withOffset
  split
  next => exact h
  next => exact h

end

/-- What is kept as an integer key was written as one. -/
theorem ReadsKey.exists_literal {inPlural : Bool} {key : List Char} {n : Int64}
    (h : ReadsKey inPlural key (exactKey n)) :
    ∃ lit, key = '=' :: lit ∧ IsLiteral n lit := by
  generalize hk : exactKey n = k at h
  cases h with
  | word hw =>
    obtain rfl := String.ofList_injective hk
    exact absurd (hw.identifier '=' List.mem_cons_self) (by decide)
  | @exact n' lit hl =>
    have hdigits : digits n = digits n' := List.tail_eq_of_cons_eq (String.ofList_injective hk)
    have hn : n = n' := by
      have := ofLiteral?_digits n'
      rw [← hdigits, ofLiteral?_digits] at this
      exact Option.some.inj this
    exact ⟨lit, rfl, hn ▸ hl⟩

/-- A key that is given again is at fault where it is given again. -/
theorem Choice.KeyAt.blamed {choice : Choice} {k : String} {start : Position} {pre : List Char}
    (h : choice.KeyAt k start pre) (hgiven : (choice.branches.lookup k).isSome = true)
    (post : List Char) : Blamed limit (pre ++ post) (.unexpectedToken k start []) := by
  obtain ⟨front, key, back, rfl, rfl, hkey, hwritten⟩ := h
  refine ⟨front, key ++ (back ++ post), by simp only [List.append_assoc], ?_⟩
  cases hkey with
  | word hw =>
    have htoken : key ++ (back ++ post) = (String.ofList key).toList ++ (back ++ post) := by
      rw [String.toList_ofList]
    rw [htoken]
    exact .token fun h => hw.ne_nil (String.ofList_eq_empty_iff.1 h)
  | @exact n lit hl =>
    obtain ⟨m, hm⟩ := Option.isSome_iff_exists.1 hgiven
    obtain ⟨key', hkey', hpart⟩ := hwritten _ (mem_of_lookup_eq_some hm)
    obtain ⟨lit', rfl, hl'⟩ := hkey'.exists_literal
    exact .repeated hl hl' hpart

/-! ### What positions are kept of -/

/-- What an integer that begins behind `pre` is for: a key begins with its equals sign. -/
def Use.Tracks (choice : Choice) (pre : List Char) : Use → Prop
  | .key start => ∃ front, pre = front ++ ['='] ∧ start = Position.start.after front ∧
      choice.Written front
  | .offset => choice.Written pre

/-- What the word is for that begins behind `pre`. -/
def Role.Tracks (word pre : List Char) : Role → Prop
  | .argument | .keyword _ | .style _ _ => True
  | .key choice => IsWord word ∧ choice.Written pre
  | .integer choice use => use.Tracks choice pre

/-- What stands in front of a place. -/
def Place.Tracks (pre : List Char) : Place → Prop
  | .opened | .afterArgument _ | .keyword _ | .afterType _ _ | .style _ _ | .afterStyle _ _ _
  | .afterSelector _ _ => True
  | .key choice => choice.Written pre
  | .branch choice k start => choice.KeyAt k start pre
  | .exact choice start => (Use.key start).Tracks choice pre
  | .offset choice => Use.offset.Tracks choice pre
  | .minus choice use sign => ∃ front, pre = front ++ ['-'] ∧ sign = Position.start.after front ∧
      use.Tracks choice front

/-- A word that is being read ends `pre`, and the position that is kept is where it began. -/
def Mode.Tracks (pre : List Char) : Mode → Prop
  | .text _ _ => True
  | .word w start role => ∃ front, pre = front ++ w.toList ∧ w ≠ "" ∧
      start = Position.start.after front ∧ role.Tracks w.toList front
  | .between place => place.Tracks pre

/-- The positions that are kept are those of what was read in `pre`. -/
structure State.Tracks (s : State) (pre : List Char) : Prop where
  mode : s.mode.Tracks pre
  frames : ∀ f ∈ s.frames, f.choice.KeyAt f.key f.start pre

theorem tracks_initial : State.initial.Tracks [] := ⟨trivial, fun _ h => nomatch h⟩

/-! ### Words -/

/-- An identifier character goes on with any word. -/
theorem Role.Tracks.push {role : Role} {word pre : List Char} {c : Char} (h : role.Tracks word pre)
    (hc : isIdentifierChar c = true) : role.Tracks (word ++ [c]) pre := by
  cases role with
  | key choice =>
    obtain ⟨hw, hwritten⟩ := h
    refine ⟨⟨by simp, fun d hd => ?_⟩, hwritten⟩
    rcases List.mem_append.1 hd with hd | hd
    · exact hw.identifier d hd
    · exact List.mem_singleton.1 hd ▸ hc
  | integer choice use => exact h
  | _ => trivial

/-- The place behind a word. -/
theorem Role.Tracks.complete {word : String} {front : List Char} {role : Role} {place : Place}
    (h : role.Tracks word.toList front)
    (hplace : role.complete word (Position.start.after front) = .ok place) :
    place.Tracks (front ++ word.toList) := by
  cases Role.completes hplace with
  | argument => trivial
  | selector => trivial
  | type => trivial
  | style => trivial
  | key =>
    obtain ⟨hw, hwritten⟩ := h
    have hkey : ReadsKey true word.toList (String.ofList word.toList) := .word hw
    rw [String.ofList_toList] at hkey
    exact ⟨front, word.toList, [], by rw [List.append_nil], rfl, hkey, hwritten⟩
  | @integer choice use n hn =>
    cases use with
    | offset => exact (Choice.Written.withOffset h n).append _
    | key start =>
      obtain ⟨front, rfl, rfl, hwritten⟩ := h
      exact ⟨front, '=' :: word.toList, [], by simp, rfl, .exact hn, hwritten⟩

/-- A word begins where its first character stands, or the sign in front of it. -/
theorem Place.Tracks.wordMode {place : Place} {pre : List Char} {c : Char} {mode : Mode}
    (h : place.Tracks pre) (hc : isIdentifierChar c = true)
    (hmode : place.wordMode? c (Position.start.after pre) = some mode) :
    mode.Tracks (pre ++ [c]) := by
  have hpre : pre ++ [c] = pre ++ c.toString.toList := by rw [toList_toString]
  have hne := toString_ne_empty c
  cases place with
  | opened =>
    cases hmode
    exact ⟨pre, hpre, hne, rfl, trivial⟩
  | keyword a =>
    cases hmode
    exact ⟨pre, hpre, hne, rfl, trivial⟩
  | style a type =>
    cases hmode
    exact ⟨pre, hpre, hne, rfl, trivial⟩
  | key choice =>
    cases hmode
    have hword : IsWord c.toString.toList := by
      rw [toList_toString]
      exact ⟨List.cons_ne_nil _ _, by simpa using hc⟩
    exact ⟨pre, hpre, hne, rfl, hword, h⟩
  | exact choice start =>
    cases hmode
    exact ⟨pre, hpre, hne, rfl, h⟩
  | offset choice =>
    cases hmode
    exact ⟨pre, hpre, hne, rfl, h⟩
  | minus choice use sign =>
    cases hmode
    obtain ⟨front, rfl, hsign, huse⟩ := h
    have hsigned : ("-" ++ c.toString).toList = ['-', c] := by
      rw [String.toList_append, toList_toString]
      rfl
    refine ⟨front, by rw [hsigned]; simp, fun hnil => ?_, hsign, huse⟩
    rw [hnil] at hsigned
    cases hsigned
  | _ => cases hmode

/-! ### Places -/

theorem Use.tracks_place {choice : Choice} {use : Use} {pre : List Char} :
    (use.place choice).Tracks pre ↔ use.Tracks choice pre := by
  cases use <;> exact Iff.rfl

/-- White space parts nothing whose place is kept. -/
theorem Place.Tracks.skip {place : Place} {pre : List Char} (h : place.Tracks pre)
    (hp : place.skipsWhiteSpace = true) (w : List Char) : place.Tracks (pre ++ w) := by
  cases place with
  | key choice => exact Choice.Written.append h w
  | offset choice => exact Choice.Written.append h w
  | branch choice key start => exact Choice.KeyAt.append h w
  | exact choice start => cases hp
  | minus choice use sign => cases hp
  | _ => trivial

theorem Place.Tracks.mark {place place' : Place} {pre : List Char} {c : Char}
    (h : place.Tracks pre) (hmark : place.Mark (Position.start.after pre) c place') :
    place'.Tracks (pre ++ [c]) := by
  cases hmark with
  | keyword => trivial
  | style => trivial
  | branches => exact fun b hb => nomatch hb
  | exact => exact ⟨pre, rfl, rfl, h⟩
  | minus => exact ⟨pre, rfl, rfl, Use.tracks_place.1 h⟩

/-- The place from which a character is looked at is behind what was read. -/
theorem State.Tracks.looksFrom {pre : List Char} {c : Char} {place : Place} (h : s.Tracks pre)
    (hplace : s.LooksFrom c place) : place.Tracks pre := by
  have hmode := h.mode
  cases hplace with
  | between hbetween =>
    rw [hbetween] at hmode
    exact hmode
  | word hword _ hcomplete =>
    rw [hword] at hmode
    obtain ⟨front, rfl, -, rfl, hrole⟩ := hmode
    exact hrole.complete hcomplete

/-! ### Steps and runs -/

/-- **Every character keeps up what positions are kept of.** -/
theorem State.Tracks.step {pre : List Char} {c : Char} (h : s.Tracks pre)
    (hstep : s.Steps limit (Position.start.after pre) c (.ok t)) : t.Tracks (pre ++ [c]) := by
  have hframes : ∀ f ∈ s.frames, f.choice.KeyAt f.key f.start (pre ++ [c]) :=
    fun f hf => (h.frames f hf).append [c]
  have hmode := h.mode
  cases hstep with
  | text => exact ⟨trivial, hframes⟩
  | opened => exact ⟨trivial, by simpa using hframes⟩
  | marker => exact ⟨trivial, by simpa [State.withPart] using hframes⟩
  | closed _ _ hs =>
    rw [hs, List.forall_mem_cons] at hframes
    exact ⟨hframes.1.insertEntry _, hframes.2⟩
  | continued hword hc =>
    rw [hword] at hmode
    obtain ⟨front, rfl, -, rfl, hrole⟩ := hmode
    refine ⟨⟨front, by simp, by simp, rfl, ?_⟩, hframes⟩
    rw [String.toList_push]
    exact hrole.push hc
  | offset hword =>
    rw [hword] at hmode
    obtain ⟨front, rfl, -, -, -, hwritten⟩ := hmode
    exact ⟨(hwritten.append _).append _, hframes⟩
  | begun hbetween hc hbegun =>
    rw [hbetween] at hmode
    exact ⟨Place.Tracks.wordMode hmode hc hbegun, hframes⟩
  | skipped hplace _ hp => exact ⟨(h.looksFrom hplace).skip hp [c], hframes⟩
  | moved hplace hmark => exact ⟨(h.looksFrom hplace).mark hmark, hframes⟩
  | ended => exact ⟨trivial, hframes⟩
  | entered hplace =>
    have hkey := (h.looksFrom hplace).skip rfl [c]
    exact ⟨trivial, List.forall_mem_cons.2 ⟨hkey, hframes⟩⟩

theorem tracks_of_run {cs : List Char} (h : run limit .start .initial cs = .ok t) : t.Tracks cs :=
  run_induction (motive := fun pre s => s.Tracks pre) tracks_initial
    (fun hs hstep => hs.step hstep) h

/-- **Every character that is refused is refused for what stands where the error says.** -/
theorem State.Tracks.blamed {pre : List Char} {c : Char} {e : ParseError} (h : s.Tracks pre)
    (hstep : s.Steps limit (Position.start.after pre) c (.error e)) (post : List Char) :
    Blamed limit (pre ++ c :: post) e := by
  cases hstep with
  | repeated _ _ hf hgiven =>
    have hkey := h.frames _ (by rw [hf]; exact List.mem_cons_self)
    exact hkey.blamed hgiven _
  | refused hword _ hcomplete =>
    have hmode := h.mode
    rw [hword] at hmode
    obtain ⟨front, rfl, hne, rfl, -⟩ := hmode
    obtain ⟨suggestions, rfl⟩ := Role.complete_eq_error hcomplete
    exact ⟨front, _, List.append_assoc _ _ _, .token hne⟩
  | tooDeep _ hc =>
    subst hc
    exact ⟨pre, _, rfl, .tooDeep⟩
  | unexpected => exact blamed_unexpectedChar pre c post

/-- The end of a pattern is refused for the word it cuts off, or for itself. -/
theorem State.Tracks.finish_blamed {cs : List Char} {e : ParseError} (h : s.Tracks cs)
    (hfinish : s.finish (Position.start.after cs) = .error e) : Blamed limit cs e := by
  have hended : Blamed limit cs (.unexpectedEnd (Position.start.after cs)) :=
    ⟨cs, [], by rw [List.append_nil], .ended⟩
  unfold State.finish at hfinish
  split at hfinish
  next =>
    split at hfinish
    next => cases hfinish
    next =>
      cases hfinish
      exact hended
  next word start role hword =>
    split at hfinish
    next e' hcomplete =>
      cases hfinish
      have hmode := h.mode
      rw [hword] at hmode
      obtain ⟨front, rfl, hne, rfl, -⟩ := hmode
      obtain ⟨suggestions, rfl⟩ := Role.complete_eq_error hcomplete
      refine ⟨front, word.toList ++ [], by rw [List.append_nil], .token hne⟩
    next =>
      cases hfinish
      exact hended
  next =>
    cases hfinish
    exact hended

/-- What is refused of a pattern behind `pre` stands in the pattern. -/
theorem State.Tracks.read_blamed {pre cs : List Char} {e : ParseError} (h : s.Tracks pre)
    (hread : read limit (Position.start.after pre) s cs = .error e) :
    Blamed limit (pre ++ cs) e := by
  induction cs generalizing s pre with
  | nil =>
    rw [List.append_nil]
    exact h.finish_blamed hread
  | cons c cs ih =>
    rw [read_cons] at hread
    have hsteps := s.steps limit (Position.start.after pre) c
    cases hstep : s.step limit (Position.start.after pre) c with
    | error e' =>
      rw [hstep] at hread hsteps
      cases hread
      exact h.blamed hsteps cs
    | ok t =>
      rw [hstep] at hread hsteps
      have hrest : read limit (Position.start.after (pre ++ [c])) t cs = .error e := by
        rw [Position.after_append]
        exact hread
      have := ih (h.step hsteps) hrest
      rwa [List.append_assoc] at this

/-! ### Whole patterns -/

/-- **An error points at the text that it is about.** Its position counts the lines and
columns of a beginning of the pattern, and what the error names, or the brace or the end that
it is about, comes next. -/
theorem blames_of_parse {limits : Limits} {pattern : String} {e : ParseError} {q : Position}
    (h : parse limits pattern = .error e) (hq : e.position? = some q) :
    ∃ pre post, pattern.toList = pre ++ post ∧
      q = ⟨1 + pre.count '\n', 1 + (String.ofList (lastLine pre)).utf8ByteSize,
        1 + (lastLine pre).length⟩ ∧
      Blames limits.maxDepth pre post e ∧ (post = [] ↔ ∃ r, e = .unexpectedEnd r) := by
  have hread : read limits.maxDepth .start .initial pattern.toList = .error e := by
    unfold parse at h
    split at h
    next =>
      split at h
      next =>
        cases h
        cases hq
      next => exact h
    next => exact h
  obtain ⟨pre, post, heq, hblames⟩ := tracks_initial.read_blamed hread
  refine ⟨pre, post, heq, ?_, hblames, ?_⟩
  · rw [← Position.start_after]
    cases hblames <;> exact (Option.some.inj hq).symm
  · cases hblames with
    | token hne =>
      refine iff_of_false (fun hnil => hne ?_) nofun
      exact String.toList_eq_nil_iff.1 (List.append_eq_nil_iff.1 hnil).1
    | repeated => exact iff_of_false (List.cons_ne_nil _ _) nofun
    | tooDeep => exact iff_of_false (List.cons_ne_nil _ _) nofun
    | ended => exact iff_of_true rfl ⟨_, rfl⟩

theorem blames_of_parse_repeated :
    ∃ pre post, "\x7bn, plural, =1 \x7ba\x7d\né \x7bb\x7d =01 \x7bc\x7d\x7d".toList = pre ++ post ∧
      (⟨2, 8, 7⟩ : Position) = ⟨1 + pre.count '\n',
        1 + (String.ofList (lastLine pre)).utf8ByteSize, 1 + (lastLine pre).length⟩ ∧
      Blames 64 pre post (.unexpectedToken "=1" ⟨2, 8, 7⟩ []) ∧
      (post = [] ↔ ∃ r, ParseError.unexpectedToken "=1" ⟨2, 8, 7⟩ [] = .unexpectedEnd r) := by
  have h : parse .standard "\x7bn, plural, =1 \x7ba\x7d\né \x7bb\x7d =01 \x7bc\x7d\x7d" =
      .error (.unexpectedToken "=1" ⟨2, 8, 7⟩ []) := rfl
  exact blames_of_parse h rfl

end MessagePattern.Pattern
