import Mathlib.Logic.Relation
import MessagePattern.Proofs.Descent

/-! Reading by descent goes on.

A reader that is called moves the cursor on, if anywhere, and may begin messages inside those
that are open (`Moves`). `Safe` says so of a reader wherever it ends, and when it can run out
of fuel. Both are carried through blocks (`Safe.bind`) and loops (`Safe.iterate`), a loop being
safe if every round that does not leave it shortens what is unread: `fuel` rounds are enough
where less than `fuel` characters are left.

`safe_argument`, `safe_branch`, `safe_textRound`, `safe_selectRound`, `safe_pluralRound` and
`safe_messageRound` say which calls and rounds shorten it. From these `safe_message` follows
by induction on the fuel, since a message inside another begins behind a brace. -/
namespace MessagePattern.Pattern.Descent

open Lexis Relation

/-! ### Going on -/

/-- From `t` reading has come to `u`, and the messages begun on the way began as `R` allows. -/
structure Moves (R : List Cursor → Prop) (t u : Trail) : Prop where
  cursor : ∃ k, u.cursor = t.cursor.skip k
  begun : ∃ new, u.begun = new ++ t.begun ∧ ∀ starts ∈ new, R starts

/-- Less is left unread. -/
def Shorter (t u : Trail) : Prop := u.unread.length < t.unread.length

section
variable {R : List Cursor → Prop} {t u v : Trail}

namespace Moves

theorem refl (t : Trail) : Moves R t t := ⟨⟨0, rfl⟩, [], rfl, nofun⟩

theorem skip (k : Nat) (t : Trail) : Moves R t (t.skip k) := ⟨⟨k, rfl⟩, [], rfl, nofun⟩

theorem trans (h : Moves R t u) (h' : Moves R u v) : Moves R t v := by
  obtain ⟨⟨j, hj⟩, new, hnew, hR⟩ := h
  obtain ⟨⟨k, hk⟩, new', hnew', hR'⟩ := h'
  refine ⟨⟨j + k, ?_⟩, new' ++ new, ?_, ?_⟩
  · rw [hk, hj, Cursor.skip_add]
  · rw [hnew', hnew, List.append_assoc]
  · intro starts hstarts
    rcases List.mem_append.1 hstarts with hmem | hmem
    · exact hR' starts hmem
    · exact hR starts hmem

theorem mono {R' : List Cursor → Prop} (h : Moves R t u) (hR : ∀ starts, R starts → R' starts) :
    Moves R' t u := by
  obtain ⟨hcursor, new, hnew, hall⟩ := h
  exact ⟨hcursor, new, hnew, fun starts hstarts => hR starts (hall starts hstarts)⟩

/-- What is left is the end of what was left. -/
theorem suffix (h : Moves R t u) : u.unread <:+ t.unread := by
  obtain ⟨k, hk⟩ := h.cursor
  rw [Trail.unread, hk, Cursor.rest_skip]
  exact List.drop_suffix k _

theorem length_le (h : Moves R t u) : u.unread.length ≤ t.unread.length := h.suffix.length_le

/-- The position is the one behind what has been read. -/
theorem position_eq (h : Moves R t u) {front : List Char} (hfront : t.unread = front ++ u.unread) :
    u.position = t.position.after front := by
  obtain ⟨k, hk⟩ := h.cursor
  have hunread : u.unread = t.unread.drop k := by rw [Trail.unread, hk, Cursor.rest_skip]; rfl
  have happend : t.unread.take k ++ u.unread = front ++ u.unread := by
    rw [← hfront, hunread, List.take_append_drop]
  have htake : t.unread.take k = front := List.append_cancel_right happend
  rw [Trail.position, hk, Cursor.position_skip, ← htake]
  rfl

end Moves

theorem Shorter.trans_moves (h : Shorter t u) (h' : Moves R u v) : Shorter t v :=
  Nat.lt_of_le_of_lt h'.length_le h

/-- Reading a character that is there shortens what is unread. -/
theorem shorter_skip {c : Char} (h : t.cursor.peek = some c) : Shorter t (t.skip 1) := by
  rw [Trail.peek_eq] at h
  obtain ⟨rest, hrest⟩ := List.head?_eq_some_iff.1 h
  rw [Shorter, Trail.unread_skip, hrest]
  exact Nat.lt_succ_self _

theorem shorter_pass {p : Char → Bool} (h : t.unread.takeWhile p ≠ []) :
    Shorter t (t.pass p) := by
  have hpos := List.length_pos_of_ne_nil h
  have hle := (List.takeWhile_prefix p (l := t.unread)).length_le
  rw [Shorter, Trail.pass, Trail.unread_skip, List.length_drop]
  omega

end

/-! ### Safe readers -/

/-- From `t`, `x` moves on, ends as `done` says if it ends well, and runs out of fuel only if
`scarce`. -/
def Safe {α : Type} (R : List Cursor → Prop) (scarce : Prop) (x : Reader α) (t : Trail)
    (done : α → Trail → Prop) : Prop :=
  Ends x t (fun a u => Moves R t u ∧ done a u)
    (fun e u => Moves R t u ∧ (e = .exhausted → scarce))

section
variable {α β σ : Type} {R : List Cursor → Prop} {scarce : Prop} {x : Reader α} {t u : Trail}
  {done : α → Trail → Prop}

namespace Safe

theorem mono {R' : List Cursor → Prop} {scarce' : Prop} {done' : α → Trail → Prop}
    (h : Safe R scarce x t done) (hR : ∀ starts, R starts → R' starts)
    (hscarce : scarce → scarce') (hdone : ∀ a u, done a u → done' a u) :
    Safe R' scarce' x t done' := by
  refine Ends.mono h ?_ ?_
  · rintro a u ⟨hmoves, ha⟩
    exact ⟨hmoves.mono hR, hdone a u ha⟩
  · rintro e u ⟨hmoves, he⟩
    exact ⟨hmoves.mono hR, fun hexhausted => hscarce (he hexhausted)⟩

theorem imp {done' : α → Trail → Prop} (h : Safe R scarce x t done)
    (hdone : ∀ a u, done a u → done' a u) : Safe R scarce x t done' :=
  h.mono (fun _ => id) id hdone

theorem weaken (h : Safe R scarce x t done) : Safe R scarce x t fun _ _ => True :=
  h.imp fun _ _ _ => trivial

theorem bind {f : α → Reader β} {done' : β → Trail → Prop} (h : Safe R scarce x t done)
    (hf : ∀ a u, Moves R t u → done a u → Safe R scarce (f a) u done') :
    Safe R scarce (x >>= f) t done' := by
  refine Ends.bind (Ends.mono h ?_ fun _ _ => id)
  rintro a u ⟨hmoves, ha⟩
  refine Ends.mono (hf a u hmoves ha) ?_ ?_
  · rintro b v ⟨hmoves', hb⟩
    exact ⟨hmoves.trans hmoves', hb⟩
  · rintro e v ⟨hmoves', he⟩
    exact ⟨hmoves.trans hmoves', he⟩

/-- Once less is left unread than at `u`, it stays so. -/
theorem shorten (h : Safe R scarce x t done) (hshorter : Shorter u t) :
    Safe R scarce x t fun _ v => Shorter u v := by
  refine Ends.mono h ?_ fun _ _ => id
  rintro a v ⟨hmoves, -⟩
  exact ⟨hmoves, hshorter.trans_moves hmoves⟩

theorem bind_shorter {f : α → Reader β} (h : Safe R scarce x t fun _ v => Shorter u v)
    (hf : ∀ a v, Moves R t v → Safe R scarce (f a) v fun _ _ => True) :
    Safe R scarce (x >>= f) t fun _ v => Shorter u v :=
  h.bind fun a u hmoves hshorter => (hf a u hmoves).shorten hshorter

/-- Less than at `u` is less than at `t`, from where `u` was reached. -/
theorem of_moves (h : Safe R scarce x u fun _ v => Shorter u v) (hmoves : Moves R t u) :
    Safe R scarce x u fun _ v => Shorter t v :=
  h.imp fun _ _ hshorter => Nat.lt_of_lt_of_le hshorter hmoves.length_le

theorem pure {a : α} (h : done a t) : Safe R scarce (pure a) t done := ⟨.refl t, h⟩

/-- A loop whose rounds shorten what is unread does not need more rounds than that has
characters, and one to leave. -/
theorem iterate {round : σ → Reader (Option σ)} {fuel : Nat} (y : σ)
    (hround : ∀ y u, Moves R t u →
      Safe R scarce (round y) u fun next v => next.isSome = true → Shorter u v)
    (hscarce : fuel ≤ t.unread.length → scarce) :
    Safe R scarce (iterate round fuel y) t fun _ _ => True := by
  refine Ends.iterate (fun fuel _ u => Moves R t u ∧ (fuel ≤ u.unread.length → scarce)) ?_ ?_
    ⟨.refl t, hscarce⟩
  · rintro fuel y u ⟨hmoves, hu⟩
    refine Ends.mono (hround y u hmoves) ?_ ?_
    · rintro next v ⟨hmoves', hnext⟩
      cases next with
      | none => exact ⟨hmoves.trans hmoves', trivial⟩
      | some z =>
        have hshorter : v.unread.length < u.unread.length := hnext rfl
        exact ⟨hmoves.trans hmoves', fun hle => hu (by omega)⟩
    · rintro e v ⟨hmoves', he⟩
      exact ⟨hmoves.trans hmoves', he⟩
  · rintro y u ⟨hmoves, hu⟩
    exact ⟨hmoves, fun _ => hu (Nat.zero_le _)⟩

end Safe

/-! ### Tokens -/

theorem safe_refuse {e : ParseError} : Safe R scarce (refuse e) t done := ⟨.refl t, nofun⟩

theorem safe_unexpected : Safe R scarce unexpected t done := ⟨.refl t, nofun⟩

namespace Safe

theorem peek_bind {f : Option Char → Reader α} (h : Safe R scarce (f t.cursor.peek) t done) :
    Safe R scarce (peek >>= f) t done := h

theorem position_bind {f : Position → Reader α} (h : Safe R scarce (f t.position) t done) :
    Safe R scarce (position >>= f) t done := h

theorem decode_bind {f : Unit → Reader α} (h : Safe R scarce (f ()) (t.skip 1) done) :
    Safe R scarce (decode >>= f) t done := by
  have hdecode : Safe R scarce decode t fun _ u => u = t.skip 1 := ⟨.skip 1 t, rfl⟩
  refine hdecode.bind fun _ u _ hu => ?_
  subst hu
  exact h

/-- Behind a character that was there less is left unread. -/
theorem decode_shorter {c : Char} (hc : t.cursor.peek = some c) {f : Unit → Reader α}
    (h : Safe R scarce (f ()) (t.skip 1) fun _ _ => True) :
    Safe R scarce (decode >>= f) t fun _ u => Shorter t u :=
  decode_bind (h.shorten (shorter_skip hc))

end Safe

theorem safe_expect (c : Char) : Safe R scarce (expect c) t fun _ u => Shorter t u := by
  refine Safe.peek_bind ?_
  split
  next hc => exact ⟨.skip 1 t, shorter_skip hc⟩
  next => exact safe_unexpected

theorem safe_skipWhiteSpace : Safe R scarce skipWhiteSpace t fun _ _ => True :=
  ⟨.skip _ t, trivial⟩

theorem safe_requiredIdentifier :
    Safe R scarce requiredIdentifier t fun _ u => Shorter t u := by
  refine Ends.mono (ends_requiredIdentifier t) ?_ ?_
  · rintro word _ ⟨hne, -, rfl⟩
    exact ⟨.skip _ t, shorter_pass hne⟩
  · rintro _ _ ⟨-, rfl, rfl⟩
    exact ⟨.refl _, nofun⟩

theorem safe_sign : Safe R scarce sign t fun _ _ => True := by
  refine Safe.peek_bind ?_
  split
  next => exact .decode_bind (.pure trivial)
  next => exact .pure trivial

theorem safe_integer : Safe R scarce integer t fun _ u => Shorter t u := by
  refine Safe.position_bind (safe_sign.bind fun sign u hmoves _ => ?_)
  refine (safe_requiredIdentifier.of_moves hmoves).bind fun word v _ hshorter => ?_
  split
  next => exact .pure hshorter
  next => exact safe_refuse

/-! ### Text -/

variable {nested inPlural : Bool}

/-- A character that does not end a text is read. -/
theorem safe_textRound_char {text : String} {c : Char} (hc : t.cursor.peek = some c)
    (he : endsText nested inPlural c = false) :
    Safe R scarce (textRound nested inPlural (text, false)) t fun _ u => Shorter t u := by
  refine Safe.peek_bind ?_
  rw [hc]
  dsimp only
  rw [he]
  split
  next h => cases h
  next =>
    split
    next =>
      refine .decode_shorter hc (.peek_bind ?_)
      split
      next => exact .pure trivial
      next =>
        split
        next => exact .decode_bind (.pure trivial)
        next =>
          split
          next => exact .pure trivial
          next => exact .pure trivial
    next => exact .decode_shorter hc (.pure trivial)

theorem safe_textRound (y : String × Bool) :
    Safe R scarce (textRound nested inPlural y) t
      fun next u => next.isSome = true → Shorter t u := by
  obtain ⟨text, quoted⟩ := y
  cases quoted with
  | true =>
    refine Safe.peek_bind ?_
    cases hc : t.cursor.peek with
    | none => exact .pure nofun
    | some c =>
      refine Safe.imp (.decode_shorter hc ?_) fun _ _ h _ => h
      split
      next =>
        refine Safe.peek_bind ?_
        split
        next => exact .decode_bind (.pure trivial)
        next => exact .pure trivial
      next => exact .pure trivial
  | false =>
    cases hc : t.cursor.peek with
    | none =>
      refine Safe.peek_bind ?_
      rw [hc]
      exact .pure nofun
    | some c =>
      cases he : endsText nested inPlural c with
      | true =>
        refine Safe.peek_bind ?_
        rw [hc]
        dsimp only
        rw [if_pos he]
        exact .pure nofun
      | false => exact (safe_textRound_char hc he).imp fun _ _ h _ => h

theorem safe_text {fuel : Nat} (hscarce : fuel ≤ t.unread.length → scarce) :
    Safe R scarce (text fuel nested inPlural) t fun _ _ => True :=
  (Safe.iterate _ (fun y _ _ => safe_textRound y) hscarce).bind fun _ _ _ _ => .pure trivial

/-- Where a character does not end a text, the text is not empty. -/
theorem safe_text_char {fuel : Nat} {c : Char} (hc : t.cursor.peek = some c)
    (he : endsText nested inPlural c = false) (hscarce : fuel ≤ t.unread.length → scarce) :
    Safe R scarce (text fuel nested inPlural) t fun _ u => Shorter t u := by
  refine Safe.bind_shorter ?_ fun _ _ _ => .pure trivial
  cases fuel with
  | zero => exact ⟨.refl t, fun _ => hscarce (Nat.zero_le _)⟩
  | succ fuel =>
    refine (safe_textRound_char hc he).bind fun next u _ hshorter => ?_
    cases next with
    | none => exact .pure hshorter
    | some y =>
      refine Safe.shorten (.iterate _ (fun y _ _ => safe_textRound y) fun hle => ?_) hshorter
      have hlt : u.unread.length < t.unread.length := hshorter
      exact hscarce (by omega)

/-! ### Arguments -/

theorem safe_style : Safe R scarce style t fun _ _ => True := by
  refine Safe.peek_bind ?_
  split
  next => exact .pure trivial
  next =>
    split
    next =>
      refine Safe.decode_bind (safe_skipWhiteSpace.bind fun _ _ _ _ => .position_bind ?_)
      refine safe_requiredIdentifier.bind fun word _ _ _ => ?_
      split
      next => exact safe_refuse
      next => exact safe_skipWhiteSpace.bind fun _ _ _ _ => .pure trivial
    next => exact safe_unexpected

theorem safe_simple (a keyword : String) (start : Position) :
    Safe R scarce (simple a keyword start) t fun _ _ => True := by
  unfold simple
  split
  next => exact safe_refuse
  next =>
    exact safe_style.bind fun _ _ _ _ => (safe_expect '}').bind fun _ _ _ _ => .pure trivial

theorem safe_insertBranch (choice : Choice) (key : String) (start : Position) (m : Message) :
    Safe R scarce (insertBranch choice key start m) t fun _ _ => True := by
  unfold insertBranch
  split
  next => exact safe_refuse
  next => exact .pure trivial

theorem safe_close (choice : Choice) : Safe R scarce (close choice) t fun _ _ => True := by
  unfold close
  split
  next => exact safe_unexpected
  next => exact .decode_bind (.pure trivial)

end

/-! ### Inside a message -/

/-- The message of `l` has been read up to `t`. -/
def Scope.Covers (l : Scope) (t : Trail) : Prop := ∃ k, t.cursor = l.start.skip k

theorem Scope.Covers.moves {l : Scope} {R : List Cursor → Prop} {t u : Trail} (h : l.Covers t)
    (hmoves : Moves R t u) : l.Covers u := by
  obtain ⟨j, hj⟩ := h
  obtain ⟨k, hk⟩ := hmoves.cursor
  exact ⟨j + k, by rw [hk, hj, Cursor.skip_add]⟩

theorem Scope.Covers.length_le {l : Scope} {t : Trail} (h : l.Covers t) :
    t.unread.length ≤ l.start.rest.length := by
  obtain ⟨k, hk⟩ := h
  rw [Trail.unread, hk, Cursor.rest_skip, List.length_drop]
  omega

/-- What the readers inside a message rely on: its fuel is scarce only where that is allowed,
and the message of a branch, which begins behind it and not too deep, is safe. -/
structure Scope.Provides (l : Scope) (R : List Cursor → Prop) (scarce : Prop) : Prop where
  fuel : l.fuel ≤ l.start.rest.length → scarce
  nested : ∀ (t : Trail) (inPlural : Bool), l.Covers t →
    t.unread.length < l.start.rest.length → l.depth < l.limit →
    Safe R scarce (l.nested (l.start :: l.around) inPlural) t fun _ _ => True

section
variable {l : Scope} {R : List Cursor → Prop} {scarce : Prop} {t : Trail}

theorem Scope.Provides.scarce_of_covers (h : l.Provides R scarce) (ht : l.Covers t)
    (hle : l.fuel ≤ t.unread.length) : scarce := h.fuel (Nat.le_trans hle ht.length_le)

theorem safe_branch (h : l.Provides R scarce) (ht : l.Covers t) (inPlural : Bool) :
    Safe R scarce (branch l inPlural) t fun _ u => Shorter t u := by
  refine Safe.peek_bind ?_
  split
  next hc =>
    split
    next => exact .position_bind safe_refuse
    next hlimit =>
      have hlt : (t.skip 1).unread.length < l.start.rest.length :=
        Nat.lt_of_lt_of_le (shorter_skip hc) ht.length_le
      refine .decode_shorter hc ?_
      refine (h.nested (t.skip 1) inPlural (ht.moves (R := R) (.skip 1 t)) hlt
        (Nat.lt_of_not_le hlimit)).bind fun m _ _ _ => ?_
      exact (safe_expect '}').bind fun _ _ _ _ => .pure trivial
  next => exact safe_unexpected

theorem safe_keyed (h : l.Provides R scarce) (ht : l.Covers t) (inPlural : Bool)
    (choice : Choice) (key : String) (start : Position) :
    Safe R scarce (keyed l inPlural choice key start) t fun _ u => Shorter t u := by
  refine safe_skipWhiteSpace.bind fun _ u hmoves _ => ?_
  refine Safe.bind_shorter ((safe_branch h (ht.moves hmoves) inPlural).of_moves hmoves) ?_
  exact fun m _ _ => (safe_insertBranch choice key start m).bind fun _ _ _ _ => .pure trivial

theorem safe_selectRound (h : l.Provides R scarce) (ht : l.Covers t) (choice : Choice) :
    Safe R scarce (selectRound l choice) t fun next u => next.isSome = true → Shorter t u := by
  refine safe_skipWhiteSpace.bind fun _ u hmoves _ => .peek_bind ?_
  split
  next => exact .pure nofun
  next =>
    refine Safe.imp (.position_bind ?_) fun _ _ hshorter _ => hshorter
    refine Safe.bind_shorter (safe_requiredIdentifier.of_moves hmoves) fun key v hmoves' => ?_
    exact (safe_keyed h ((ht.moves hmoves).moves hmoves') false choice key _).weaken

theorem safe_pluralRound (h : l.Provides R scarce) (ht : l.Covers t) (choice : Choice) :
    Safe R scarce (pluralRound l choice) t fun next u => next.isSome = true → Shorter t u := by
  refine safe_skipWhiteSpace.bind fun _ u hmoves _ => .position_bind (.peek_bind ?_)
  have hu := ht.moves hmoves
  split
  next => exact .pure nofun
  next =>
    refine Safe.imp ?_ fun _ _ hshorter _ => hshorter
    split
    next hc =>
      refine Safe.of_moves (.decode_shorter hc ?_) hmoves
      refine safe_integer.bind fun n v hmoves' _ => ?_
      have hv := (hu.moves (R := R) (.skip 1 u)).moves hmoves'
      exact (safe_keyed h hv true choice _ _).weaken
    next =>
      refine Safe.bind_shorter (safe_requiredIdentifier.of_moves hmoves) fun word v hmoves' => ?_
      refine .peek_bind ?_
      split
      next =>
        refine .decode_bind (safe_skipWhiteSpace.bind fun _ _ _ _ => ?_)
        exact safe_integer.bind fun _ _ _ _ => .pure trivial
      next => exact (safe_keyed h (hu.moves hmoves') true choice word _).weaken

/-- A loop over branches, and the brace that ends it. -/
theorem safe_choice (h : l.Provides R scarce) (ht : l.Covers t)
    {round : Choice → Reader (Option Choice)}
    (hround : ∀ choice u, l.Covers u →
      Safe R scarce (round choice) u fun next v => next.isSome = true → Shorter u v)
    (choice : Choice) :
    Safe R scarce (iterate round l.fuel choice >>= close) t fun _ _ => True := by
  refine Safe.bind (.iterate choice (fun choice u hmoves => ?_) ?_) fun choice _ _ _ => ?_
  · exact hround choice u (ht.moves hmoves)
  · exact h.scarce_of_covers ht
  · exact safe_close choice

theorem safe_kind (h : l.Provides R scarce) (ht : l.Covers t) (a : String) :
    Safe R scarce (kind l a) t fun _ _ => True := by
  refine safe_skipWhiteSpace.bind fun _ u hmoves _ => .position_bind ?_
  refine safe_requiredIdentifier.bind fun keyword v hmoves' _ => ?_
  refine safe_skipWhiteSpace.bind fun _ w hmoves'' _ => ?_
  have hw := ((ht.moves hmoves).moves hmoves').moves hmoves''
  split
  next =>
    refine (safe_expect ',').bind fun _ _ hcomma _ => ?_
    exact safe_choice h (hw.moves hcomma) (fun choice u hu => safe_selectRound h hu choice) _
  next =>
    split
    next =>
      refine (safe_expect ',').bind fun _ _ hcomma _ => ?_
      exact safe_choice h (hw.moves hcomma) (fun choice u hu => safe_pluralRound h hu choice) _
    next =>
      split
      next =>
        refine (safe_expect ',').bind fun _ _ hcomma _ => ?_
        exact safe_choice h (hw.moves hcomma)
          (fun choice u hu => safe_pluralRound h hu choice) _
      next => exact safe_simple a keyword _

theorem safe_argument (h : l.Provides R scarce) (ht : l.Covers t) :
    Safe R scarce (argument l) t fun _ u => Shorter t u := by
  refine Safe.bind_shorter (safe_expect '{') fun _ u hmoves => ?_
  refine safe_skipWhiteSpace.bind fun _ v hmoves' _ => .position_bind ?_
  refine safe_requiredIdentifier.bind fun a w hmoves'' _ => ?_
  have hw := ((ht.moves hmoves).moves hmoves').moves hmoves''
  split
  next => exact safe_refuse
  next =>
    refine safe_skipWhiteSpace.bind fun _ x hblank _ => .peek_bind ?_
    split
    next => exact .decode_bind (.pure trivial)
    next =>
      split
      next => exact .decode_bind (safe_kind h ((hw.moves hblank).moves (R := R) (.skip 1 x)) a)
      next => exact safe_unexpected

/-- What neither opens an argument nor closes the branch nor stands for the operand. -/
theorem endsText_eq_false_of_ne {nested inPlural : Bool} {c : Char} (hopen : c ≠ '{')
    (hclose : ¬ (c = '}' && nested) = true) (hmark : ¬ (c = '#' && inPlural) = true) :
    endsText nested inPlural c = false := by
  rw [Bool.not_eq_true, Bool.and_comm] at hclose hmark
  rw [endsText, beq_eq_false_iff_ne.2 hopen]
  exact Bool.or_eq_false_iff.2 ⟨hclose, hmark⟩

theorem safe_messageRound (h : l.Provides R scarce) (ht : l.Covers t) (inPlural : Bool)
    (parts : List Part) :
    Safe R scarce (messageRound l inPlural parts) t
      fun next u => next.isSome = true → Shorter t u := by
  refine Safe.peek_bind ?_
  cases hc : t.cursor.peek with
  | none =>
    dsimp only
    split
    next => exact .pure nofun
    next => exact safe_unexpected
  | some c =>
    dsimp only
    split
    next =>
      refine Safe.imp ?_ fun _ _ hshorter _ => hshorter
      exact .bind_shorter (safe_argument h ht) fun _ _ _ => .pure trivial
    next hopen =>
      split
      next => exact .pure nofun
      next hclose =>
        refine Safe.imp ?_ fun _ _ hshorter _ => hshorter
        split
        next => exact .decode_shorter hc (.pure trivial)
        next hmark =>
          have he : endsText (l.depth ≠ 0) inPlural c = false :=
            endsText_eq_false_of_ne hopen hclose hmark
          refine .bind_shorter (safe_text_char hc he ?_) fun _ _ _ => .pure trivial
          exact h.scarce_of_covers ht

end

/-! ### Messages -/

/-- Inside the messages that began at `start :: around`, of which the innermost is not too deep
to have branches, another begins where less is left unread. -/
inductive Opens (limit : Nat) : List Cursor → List Cursor → Prop where
  | mk {start around} (k : Nat) : (start.skip k).rest.length < start.rest.length →
      around.length < limit → Opens limit (start :: around) (start.skip k :: start :: around)

section
variable {limit fuel : Nat}

/-- A message provides for what is inside it if the next, with less fuel, is safe. -/
theorem provides_scope
    (hmessage : ∀ around inPlural t, Safe (ReflTransGen (Opens limit) (t.cursor :: around))
      (fuel ≤ t.unread.length) (message limit fuel around inPlural) t fun _ _ => True)
    (around : List Cursor) (start : Cursor) :
    (scope limit fuel around start).Provides (ReflTransGen (Opens limit) (start :: around))
      (fuel + 1 ≤ start.rest.length) := by
  refine ⟨id, fun t inPlural ht hlt hdepth => ?_⟩
  obtain ⟨k, hk⟩ := ht
  have hopens : Opens limit (start :: around) (t.cursor :: start :: around) := by
    rw [Trail.unread, hk] at hlt
    rw [hk]
    exact .mk k hlt hdepth
  refine (hmessage (start :: around) inPlural t).mono (fun starts h => h.head hopens) ?_
    fun _ _ => id
  exact fun hle => Nat.lt_of_le_of_lt hle hlt

/-- **A message is safe.** It runs out of fuel only with no more of it than characters. -/
theorem safe_message (limit fuel : Nat) (around : List Cursor) (inPlural : Bool) (t : Trail) :
    Safe (ReflTransGen (Opens limit) (t.cursor :: around)) (fuel ≤ t.unread.length)
      (message limit fuel around inPlural) t fun _ _ => True := by
  induction fuel generalizing around inPlural t with
  | zero => exact ⟨.refl t, fun _ => Nat.zero_le _⟩
  | succ fuel ih =>
    have hprovides := provides_scope ih around t.cursor
    have hbegin : Safe (ReflTransGen (Opens limit) (t.cursor :: around))
        (fuel + 1 ≤ t.unread.length) (begin around) t
        fun start u => start = t.cursor ∧ u.cursor = t.cursor := by
      refine ⟨⟨⟨0, rfl⟩, [t.cursor :: around], rfl, fun starts hstarts => ?_⟩, rfl, rfl⟩
      rw [List.mem_singleton.1 hstarts]
    refine hbegin.bind fun start u hmoves hu => ?_
    obtain ⟨rfl, hcursor⟩ := hu
    have hcovers : (scope limit fuel around t.cursor).Covers u := ⟨0, hcursor⟩
    refine Safe.bind (.iterate [] (fun parts v hmoves' => ?_) fun hle => ?_) fun _ _ _ _ =>
      .pure trivial
    · exact safe_messageRound hprovides (hcovers.moves hmoves') inPlural parts
    · exact Nat.le_trans hle hmoves.length_le

end

end MessagePattern.Pattern.Descent
