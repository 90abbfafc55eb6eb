import MessagePattern.Proofs.Progress
import MessagePattern.Proofs.Reading

/-! Following a call.

The reader that looks at one character at a time keeps in its state what the functions of
`Descent` keep in their calls. So with each of these goes a state of the reader in which it is
called, and one for each of its results. `Follows` says that the reader, left to itself from
the first, comes to what it would come to from the second behind what the function has read,
or to the error by which the function fails. It is carried through blocks (`Follows.bind`) and
loops (`FollowsRounds.iterate`) as `Safe` is.

Tokens are followed from the places between them, integers from the two places in which they
stand (`follows_integer`), and an argument without branches to its closing brace. -/
namespace MessagePattern.Pattern.Descent

open Lexis Integer

variable {α β σ : Type} {limit : Nat}

/-! ### Following -/

/-- What the reader in state `s`, if there is one, comes to from `t` on. -/
def resume (limit : Nat) (s : Except ParseError State) (t : Trail) : Except ParseError Message :=
  s.bind fun s => read limit t.position s t.unread

/-- From state `s` the reader comes to what it comes to from the state that belongs to the
result of `x`, behind what `x` has read, or to the error by which `x` fails. -/
def Follows (limit : Nat) (s : Except ParseError State) (x : Reader α) (t : Trail)
    (state : α → Except ParseError State) (done : α → Trail → Prop) : Prop :=
  Ends x t (fun a u => resume limit s t = resume limit (state a) u ∧ done a u)
    (fun e _ => ∀ e', e = .refused e' → resume limit s t = .error e')

section
variable {s s' : Except ParseError State} {x : Reader α} {t u : Trail}
  {state : α → Except ParseError State} {done : α → Trail → Prop}

theorem position_skip_one {c : Char} (h : t.cursor.peek = some c) :
    (t.skip 1).position = t.position.advance c := by
  rw [Trail.position_skip, unread_of_peek_some h]
  rfl

/-- Where there is a next character the reader reads it first. -/
theorem resume_peek {c : Char} (hc : t.cursor.peek = some c) (s : State) :
    resume limit (.ok s) t = resume limit (s.step limit t.position c) (t.skip 1) := by
  show read limit t.position s t.unread = _
  rw [unread_of_peek_some hc, read_cons, ← position_skip_one hc]
  rfl

namespace Follows

theorem imp {done' : α → Trail → Prop} (h : Follows limit s x t state done)
    (hdone : ∀ a u, done a u → done' a u) : Follows limit s x t state done' := by
  refine Ends.mono h ?_ fun _ _ => id
  rintro a u ⟨heq, ha⟩
  exact ⟨heq, hdone a u ha⟩

theorem pure {a : α} (h : done a t) (hs : resume limit s t = resume limit (state a) t) :
    Follows limit s (pure a) t state done := ⟨hs, h⟩

/-- A state that comes to the same may stand for another. -/
theorem of_eq (h : Follows limit s' x t state done) (hs : resume limit s t = resume limit s' t) :
    Follows limit s x t state done := by
  refine Ends.mono h ?_ ?_
  · rintro a u ⟨heq, ha⟩
    exact ⟨hs.trans heq, ha⟩
  · intro e u he e' he'
    exact hs.trans (he e' he')

theorem bind {f : α → Reader β} {state' : β → Except ParseError State}
    {done' : β → Trail → Prop} (h : Follows limit s x t state done)
    (hf : ∀ a u, done a u → Follows limit (state a) (f a) u state' done') :
    Follows limit s (x >>= f) t state' done' := by
  refine Ends.bind (Ends.mono h ?_ fun _ _ => id)
  rintro a u ⟨heq, ha⟩
  refine Ends.mono (hf a u ha) ?_ ?_
  · rintro b v ⟨heq', hb⟩
    exact ⟨heq.trans heq', hb⟩
  · intro e v he e' he'
    exact heq.trans (he e' he')

theorem peek_bind {f : Option Char → Reader α}
    (h : Follows limit s (f t.cursor.peek) t state done) :
    Follows limit s (peek >>= f) t state done := h

theorem position_bind {f : Position → Reader α}
    (h : Follows limit s (f t.position) t state done) :
    Follows limit s (position >>= f) t state done := h

/-- What the next character does to the reader is done where it is decoded. -/
theorem decode_bind {s : State} {c : Char} (hc : t.cursor.peek = some c) {f : Unit → Reader α}
    (h : Follows limit (s.step limit t.position c) (f ()) (t.skip 1) state done) :
    Follows limit (.ok s) (decode >>= f) t state done := by
  have hdecode : Follows limit (.ok s) decode t (fun _ => s.step limit t.position c)
      fun _ u => u = t.skip 1 := ⟨resume_peek hc s, rfl⟩
  refine hdecode.bind fun _ u hu => ?_
  subst hu
  exact h

theorem refuse {e : ParseError} (h : resume limit s t = .error e) :
    Follows limit s (refuse e) t state done := by
  intro e' he'
  cases he'
  exact h

theorem unexpected (h : resume limit s t = .error t.fault) :
    Follows limit s unexpected t state done := by
  intro e' he'
  cases he'
  exact h

end Follows

/-- What holds behind a round: what is kept where the loop goes on, else what is `left`. -/
def Round (kept : σ → Prop) (left : Trail → Prop) : Option σ → Trail → Prop
  | some y, _ => kept y
  | none, u => left u

/-- The rounds of a loop are followed from the states that belong to what they are given. -/
def FollowsRounds (limit : Nat) (state : σ → Except ParseError State) (kept : σ → Prop)
    (round : σ → Reader (Option σ)) (left : Trail → Prop) : Prop :=
  ∀ y t, kept y →
    Follows limit (state y) (round y) t (fun next => state (next.getD y)) (Round kept left)

/-- A loop is followed if its rounds are. -/
theorem FollowsRounds.iterate {round : σ → Reader (Option σ)}
    {state : σ → Except ParseError State} {kept : σ → Prop} {left : Trail → Prop}
    (h : FollowsRounds limit state kept round left) (fuel : Nat) {y : σ} (hy : kept y) :
    Follows limit (state y) (Descent.iterate round fuel y) t state fun _ => left := by
  refine Ends.iterate
    (fun _ z u => resume limit (state y) t = resume limit (state z) u ∧ kept z) ?_ ?_ ⟨rfl, hy⟩
  · rintro fuel z u ⟨heq, hz⟩
    refine Ends.mono (h z u hz) ?_ ?_
    · rintro next v ⟨heq', hnext⟩
      cases next with
      | none => exact ⟨heq.trans heq', hnext⟩
      | some w => exact ⟨heq.trans heq', hnext⟩
    · intro e v he e' he'
      exact heq.trans (he e' he')
  · nofun

end

/-! ### Places -/

section
variable {s : State} {place : Place} {t : Trail}

/-- Behind the white space that a place skips. -/
def Settled (place : Place) (t : Trail) : Prop :=
  ∀ c, t.cursor.peek = some c → (isWhiteSpace c && place.skipsWhiteSpace) = false

theorem resume_between_none (h : t.cursor.peek = none) :
    resume limit (.ok (s.become (.between place))) t = .error t.fault := by
  show read limit t.position _ t.unread = _
  rw [unread_of_peek_none h, Trail.fault, h]
  rfl

/-- Where neither a word may begin nor a mark stand, the next character is at fault. -/
theorem resume_between_fault (ht : Settled place t)
    (hword : ∀ c, t.cursor.peek = some c → isIdentifierChar c = true →
      place.wordMode? c t.position = none)
    (hmark : ∀ c, t.cursor.peek = some c →
      (s.become (.between place)).mark limit t.position c place =
        .error (.unexpectedChar c t.position)) :
    resume limit (.ok (s.become (.between place))) t = .error t.fault := by
  cases hc : t.cursor.peek with
  | none => exact resume_between_none hc
  | some c =>
    have hstep : (s.become (.between place)).step limit t.position c =
        .error (.unexpectedChar c t.position) := by
      rw [State.step_between, State.readBetween]
      split
      next hi => rw [hword c hc hi]
      next =>
        rw [if_neg (by rw [ht c hc]; decide)]
        exact hmark c hc
    rw [resume_peek hc, hstep, Trail.fault, hc]
    rfl

/-- In its place a mark does what it does. -/
theorem step_between_mark {c : Char} (hi : isIdentifierChar c = false)
    (hw : isWhiteSpace c = false) (p : Position) :
    (s.become (.between place)).step limit p c =
      (s.become (.between place)).mark limit p c place := by
  rw [State.step_between, State.readBetween, hi, hw]
  rfl

theorem follows_skipWhiteSpace (place : Place) (hp : place.skipsWhiteSpace = true) :
    Follows limit (.ok (s.become (.between place))) skipWhiteSpace t
      (fun _ => .ok (s.become (.between place))) fun _ u => Settled place u := by
  have hblank : IsBlank (t.unread.takeWhile isWhiteSpace) := List.all_eq_true.1 List.all_takeWhile
  refine ⟨?_, fun c hc => ?_⟩
  · show read limit t.position _ t.unread = read limit (t.pass isWhiteSpace).position _
      (t.pass isWhiteSpace).unread
    rw [Trail.position_pass, Trail.unread_pass, ← read_blank hp hblank,
      List.takeWhile_append_dropWhile]
  · have hhead := List.head?_dropWhile_not isWhiteSpace t.unread
    rw [Trail.peek_eq, Trail.unread_pass] at hc
    rw [hc] at hhead
    rw [show isWhiteSpace c = false by simpa using hhead]
    rfl

theorem follows_expect {s s' : State} {c : Char}
    (hstep : t.cursor.peek = some c → s.step limit t.position c = .ok s')
    (hfault : t.cursor.peek ≠ some c → resume limit (.ok s) t = .error t.fault) :
    Follows limit (.ok s) (expect c) t (fun _ => .ok s') fun _ _ => True := by
  refine .peek_bind ?_
  split
  next hc =>
    refine ⟨?_, trivial⟩
    rw [resume_peek hc, hstep hc]
  next hc => exact .unexpected (hfault hc)

/-- Where a word may begin it is read to its end. -/
theorem follows_requiredIdentifier {role : Role} {front : String} {start : Position}
    (hm : ∀ c, place.wordMode? c t.position = some (.word (front ++ c.toString) start role))
    (ht : Settled place t)
    (hmark : ∀ c, t.cursor.peek = some c →
      (s.become (.between place)).mark limit t.position c place =
        .error (.unexpectedChar c t.position)) :
    Follows limit (.ok (s.become (.between place))) requiredIdentifier t
      (fun word => .ok (s.become (.word (front ++ word) start role)))
      fun word u => IsWord word.toList ∧ EndsWord u.unread := by
  have hword : ∀ c ∈ t.unread.takeWhile isIdentifierChar, isIdentifierChar c = true :=
    List.all_eq_true.1 List.all_takeWhile
  have hend : EndsWord (t.pass isIdentifierChar).unread := by
    intro c hc
    have hhead := List.head?_dropWhile_not isIdentifierChar t.unread
    rw [Trail.unread_pass] at hc
    rw [Option.mem_def.1 hc] at hhead
    simpa using hhead
  refine Ends.mono (ends_requiredIdentifier t) ?_ ?_
  · rintro _ _ ⟨hne, rfl, rfl⟩
    refine ⟨?_, by rw [String.toList_ofList]; exact ⟨hne, hword⟩, hend⟩
    show read limit t.position _ t.unread = read limit (t.pass isIdentifierChar).position _
      (t.pass isIdentifierChar).unread
    rw [Trail.position_pass, Trail.unread_pass, ← read_word ⟨hne, hword⟩ hm,
      List.takeWhile_append_dropWhile]
  · rintro _ _ ⟨hnil, rfl, rfl⟩ _ ⟨⟩
    refine resume_between_fault ht (fun c hc hi => ?_) hmark
    rw [Trail.peek_eq] at hc
    obtain ⟨rest, hrest⟩ := List.head?_eq_some_iff.1 hc
    rw [hrest, List.takeWhile_cons_of_pos hi] at hnil
    cases hnil

/-- Where a word has ended the reader goes on from the place behind it, if it may stand. -/
theorem resume_word {word : String} {start : Position} {role : Role} (he : EndsWord t.unread)
    (hr : role.EndsAt word t.unread) :
    resume limit (.ok (s.become (.word word start role))) t =
      resume limit ((role.complete word start).map fun place => s.become (.between place)) t := by
  show read limit t.position _ t.unread = _
  rw [read_word_end he hr]
  cases role.complete word start <;> rfl

end

/-! ### Integers -/

theorem ofSigned?_eq_ofLiteral? {literal : List Char} (h : literal.head? ≠ some '+') :
    ofSigned? literal = ofLiteral? literal := by
  unfold ofSigned?
  split
  next => exact absurd rfl h
  next => rfl

/-- The place behind `sign`, which may be missing: behind a sign at `p` the reader waits in a
place of its own. -/
def behindSign (choice : Choice) (use : Use) (p : Position) (sign : String) : Place :=
  if sign = "" then use.place choice else .minus choice use p

section
variable {s : State} {t : Trail} {choice : Choice} {use : Use}

theorem follows_sign : Follows limit (.ok (s.become (.between (use.place choice)))) sign t
    (fun sign => .ok (s.become (.between (behindSign choice use t.position sign))))
    fun sign u => (sign = "" ∧ u = t ∧ t.cursor.peek ≠ some '-') ∨ sign = "-" := by
  refine .peek_bind ?_
  split
  next hc =>
    have hstep : (s.become (.between (use.place choice))).step limit t.position '-' =
        .ok (s.become (.between (.minus choice use t.position))) := by
      rw [step_between_mark (by decide) (by decide)]
      cases use <;> rfl
    refine .decode_bind hc ?_
    rw [hstep]
    exact .pure (.inr rfl) rfl
  next hc => exact .pure (.inl ⟨rfl, rfl, hc⟩) rfl

theorem follows_integer (ht : Settled (use.place choice) t) :
    Follows limit (.ok (s.become (.between (use.place choice)))) integer t
      (fun n => .ok (s.become (.between (use.target choice n)))) fun _ _ => True := by
  refine .position_bind (follows_sign.bind fun sign u hu => ?_)
  have hword : Follows limit
      (.ok (s.become (.between (behindSign choice use t.position sign)))) requiredIdentifier u
      (fun word => .ok (s.become (.word (sign ++ word) t.position (.integer choice use))))
      fun word v => IsWord word.toList ∧ EndsWord v.unread := by
    rcases hu with ⟨rfl, rfl, hc⟩ | rfl
    · refine follows_requiredIdentifier (fun c => ?_) ht fun c hpeek => ?_
      · rw [String.empty_append]
        cases use <;> rfl
      · have hne : c ≠ '-' := fun h => hc (by rw [hpeek, h])
        cases use <;> exact if_neg hne
    · exact follows_requiredIdentifier (fun _ => rfl) (fun _ _ => Bool.and_false _) fun _ _ => rfl
  refine hword.bind fun word v hv => ?_
  obtain ⟨hw, he⟩ := hv
  have hplus : (sign ++ word).toList.head? ≠ some '+' := by
    rcases hu with ⟨rfl, -⟩ | rfl
    · rw [String.empty_append]
      intro h
      have := hw.identifier '+' (List.mem_of_mem_head? h)
      exact absurd this (by decide)
    · rw [String.toList_append]
      exact nofun
  refine .of_eq ?_ (resume_word he trivial)
  rw [ofSigned?_eq_ofLiteral? hplus]
  unfold Role.complete
  cases ofLiteral? (sign ++ word).toList with
  | none => exact .refuse rfl
  | some n =>
    refine .pure trivial ?_
    cases use <;> rfl

end

/-! ### Arguments -/

section
variable {s : State} {t : Trail}

/-- A word that is nothing but what is read here. -/
theorem follows_word {place : Place} (role : Role)
    (hm : ∀ c, place.wordMode? c t.position = some (.word c.toString t.position role))
    (ht : Settled place t)
    (hmark : ∀ c, t.cursor.peek = some c →
      (s.become (.between place)).mark limit t.position c place =
        .error (.unexpectedChar c t.position)) :
    Follows limit (.ok (s.become (.between place))) requiredIdentifier t
      (fun word => .ok (s.become (.word word t.position role)))
      fun _ u => EndsWord u.unread := by
  have hfront : ∀ c, place.wordMode? c t.position =
      some (.word ("" ++ c.toString) t.position role) := by
    intro c
    rw [String.empty_append]
    exact hm c
  refine Ends.mono (follows_requiredIdentifier hfront ht hmark) ?_ fun _ _ => id
  rintro word u ⟨heq, -, he⟩
  simp only [String.empty_append] at heq
  exact ⟨heq, he⟩

/-- The place behind a style, which may have been left out. -/
def stylePlace (a : String) (type : ArgumentType) : ArgumentStyle → Place
  | .default => .afterType a type
  | style => .afterStyle a type style

theorem stylePlace_of_ne {style : ArgumentStyle} (h : style ≠ .default) (a : String)
    (type : ArgumentType) : stylePlace a type style = .afterStyle a type style := by
  cases style <;> first | rfl | exact absurd rfl h

theorem ofKeyword_ne_default (word : String) : ArgumentStyle.ofKeyword word ≠ .default := by
  intro h
  have hvalid : ArgumentStyle.ofKeyword word ≠ .invalid := by
    rw [h]
    decide
  have hspelled := (ArgumentStyle.ofKeyword_spelled hvalid).1
  rw [h] at hspelled
  exact absurd hspelled (by decide)

theorem follows_style {a : String} {type : ArgumentType} (ht : Settled (.afterType a type) t) :
    Follows limit (.ok (s.become (.between (.afterType a type)))) style t
      (fun style => .ok (s.become (.between (stylePlace a type style))))
      fun style u => Settled (stylePlace a type style) u ∧
        (style = .default → u.cursor.peek = some '}') := by
  refine .peek_bind ?_
  split
  next hc => exact .pure ⟨ht, fun _ => hc⟩ rfl
  next hclose =>
    split
    next hc =>
      refine .decode_bind hc ?_
      rw [step_between_mark (by decide) (by decide)]
      refine (follows_skipWhiteSpace (.style a type) rfl).bind fun _ u hu =>
        .position_bind ?_
      refine (follows_word (.style a type) (fun _ => rfl) hu fun _ _ => rfl).bind
        fun word v he => ?_
      refine .of_eq ?_ (resume_word he trivial)
      by_cases hword : ArgumentStyle.ofKeyword word = .invalid
      · rw [if_pos hword, Role.complete, if_pos hword]
        exact .refuse rfl
      · rw [if_neg hword, Role.complete, if_neg hword]
        refine (follows_skipWhiteSpace (.afterStyle a type _) rfl).bind fun _ w hw => ?_
        have hplace := stylePlace_of_ne (ofKeyword_ne_default word) a type
        refine .pure ⟨?_, fun h => absurd h (ofKeyword_ne_default word)⟩ ?_
        · rw [hplace]
          exact hw
        · rw [hplace, State.become_become]
    next hcomma =>
      refine .unexpected (resume_between_fault ht (fun _ _ _ => rfl) fun c hc => ?_)
      rw [hc] at hclose hcomma
      rw [State.mark, if_neg fun h => hclose (congrArg some h),
        if_neg fun h => hcomma (congrArg some h)]

theorem follows_simple {a keyword : String} {start : Position}
    (hvalid : ArgumentType.ofKeyword keyword ≠ .invalid)
    (ht : Settled (.afterType a (.ofKeyword keyword)) t) :
    Follows limit (.ok (s.become (.between (.afterType a (.ofKeyword keyword)))))
      (simple a keyword start) t (fun part => .ok (s.withPart part)) fun _ _ => True := by
  rw [simple, if_neg hvalid]
  refine (follows_style ht).bind fun style u hu => ?_
  obtain ⟨hu, hdefault⟩ := hu
  have hexpect : Follows limit
      (.ok (s.become (.between (stylePlace a (.ofKeyword keyword) style)))) (expect '}') u
      (fun _ => .ok (s.withPart (.simple a (.ofKeyword keyword) style))) fun _ _ => True := by
    refine follows_expect (fun _ => ?_) fun hc => ?_
    · rw [step_between_mark (by decide) (by decide)]
      cases style <;> rfl
    · have hplace := stylePlace_of_ne (fun h => hc (hdefault h)) a (.ofKeyword keyword)
      rw [hplace] at hu ⊢
      refine resume_between_fault hu (fun _ _ _ => rfl) fun c hpeek => ?_
      rw [State.mark, if_neg fun h => hc (by rw [hpeek, h])]
  exact hexpect.bind fun _ _ _ => .pure trivial rfl

/-- What a branch makes of its choice, unless its key is not new. -/
def inserted (s : State) (choice : Choice) (key : String) (start : Position) (m : Message) :
    Except ParseError State :=
  if (choice.branches.lookup key).isSome then .error (.unexpectedToken key start [])
  else .ok (s.become (.between (.key
    { choice with branches := insertEntry key m choice.branches })))

theorem follows_insertBranch {choice : Choice} {key : String} {start : Position} {m : Message} :
    Follows limit (inserted s choice key start m) (insertBranch choice key start m) t
      (fun choice => .ok (s.become (.between (.key choice))))
      fun choice' _ => choice'.selector = choice.selector := by
  unfold inserted insertBranch
  split
  next => exact .refuse rfl
  next => exact .pure rfl rfl

theorem follows_close {choice : Choice} (hc : t.cursor.peek = some '}') :
    Follows limit (.ok (s.become (.between (.key choice)))) (close choice) t
      (fun part => .ok (s.withPart part)) fun _ _ => True := by
  have hmark := @step_between_mark limit s (.key choice) '}' (by decide) (by decide) t.position
  unfold close
  split
  next hempty =>
    refine .unexpected ?_
    have hstep : (s.become (.between (.key choice))).step limit t.position '}' =
        .error (.unexpectedChar '}' t.position) := by
      rw [hmark, State.mark, hempty]
      rfl
    rw [resume_peek hc, hstep, Trail.fault, hc]
    rfl
  next hne =>
    refine .decode_bind hc ?_
    have hstep : (s.become (.between (.key choice))).step limit t.position '}' =
        .ok (s.withPart choice.part) := by
      rw [hmark, State.mark, show choice.branches.isEmpty = false by simpa using hne]
      rfl
    rw [hstep]
    exact .pure trivial rfl

end

end MessagePattern.Pattern.Descent
