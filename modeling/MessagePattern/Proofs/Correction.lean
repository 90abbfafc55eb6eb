import MessagePattern.Proofs.Extension
import MessagePattern.Proofs.Limit
import MessagePattern.Proofs.Ranking
import MessagePattern.Proofs.Relocation
import MessagePattern.Proofs.Truncation

/-! Suggestions that are followed.

Words are suggested for a word that is neither a keyword nor a style where one is asked for.
Put in its place, a suggestion is read from the same state, since up to there the patterns
are the same (`exists_front_of_run`), and stands the test the word failed
(`Role.complete_of_suggested`). From there on the patterns part ways, and what is still wrong
is wrong elsewhere: an error is at a position that the reader comes by or has kept
(`position?_ne_of_read`), and it has kept none of the word.

`parse_corrected` puts this together. -/
namespace MessagePattern.Pattern

open Lexis

variable {limit : Nat} {p : Position} {s t : State} {e : ParseError}

/-! ### The word at fault -/

/-- An error with suggestions is about a word that ends and is refused. -/
theorem State.Steps.exists_word {c : Char} {found : String} {q : Position}
    {suggestions : List String} (hne : suggestions ≠ [])
    (h : s.Steps limit p c (.error (.unexpectedToken found q suggestions))) :
    isIdentifierChar c = false ∧ ∃ role, s.mode = .word found q role ∧
      role.complete found q = .error (.unexpectedToken found q suggestions) := by
  generalize he : Except.error (ParseError.unexpectedToken found q suggestions) = outcome at h
  cases h with
  | refused hmode hc hcomplete =>
    cases he
    obtain ⟨_, he⟩ := Role.complete_eq_error hcomplete
    cases he
    exact ⟨hc, _, hmode, hcomplete⟩
  | repeated =>
    cases he
    exact absurd rfl hne
  | unexpected =>
    cases he
    exact absurd rfl hne
  | _ => cases he

theorem State.exists_word_of_finish {found : String} {q : Position} {suggestions : List String}
    (h : s.finish p = .error (.unexpectedToken found q suggestions)) :
    ∃ role, s.mode = .word found q role ∧
      role.complete found q = .error (.unexpectedToken found q suggestions) := by
  unfold State.finish at h
  split at h
  next =>
    split at h <;> cases h
  next word start role hmode =>
    split at h
    next e' hcomplete =>
      cases h
      obtain ⟨_, he⟩ := Role.complete_eq_error hcomplete
      cases he
      exact ⟨role, hmode, hcomplete⟩
    next => cases h
  next => cases h

/-- A pattern with such an error is read up to the end of the word. -/
theorem exists_run_of_suggestions {cs : List Char} {found : String} {q : Position}
    {suggestions : List String} (hne : suggestions ≠ [])
    (h : read limit p s cs = .error (.unexpectedToken found q suggestions)) :
    ∃ pre rest t role, cs = pre ++ rest ∧ EndsWord rest ∧ run limit p s pre = .ok t ∧
      t.mode = .word found q role ∧
      role.complete found q = .error (.unexpectedToken found q suggestions) := by
  induction cs generalizing s p with
  | nil =>
    obtain ⟨role, hmode, hcomplete⟩ := State.exists_word_of_finish h
    exact ⟨[], [], s, role, rfl, .nil, rfl, hmode, hcomplete⟩
  | cons c cs ih =>
    rw [read_cons] at h
    have hsteps := s.steps limit p c
    cases hstep : s.step limit p c with
    | error e =>
      rw [hstep] at h hsteps
      cases h
      obtain ⟨hc, role, hmode, hcomplete⟩ := hsteps.exists_word hne
      exact ⟨[], c :: cs, s, role, rfl, endsWord_cons hc, rfl, hmode, hcomplete⟩
    | ok u =>
      rw [hstep] at h
      obtain ⟨pre, rest, t, role, rfl, hrest, hrun, hword⟩ := ih h
      refine ⟨c :: pre, rest, t, role, rfl, hrest, ?_, hword⟩
      rw [run, hstep]
      exact hrun

/-! ### The suggestion in its place -/

/-- **What is suggested for a word may stand where the word was refused.** The place behind it
keeps no position. -/
theorem Role.complete_of_suggested {role : Role} {found word : String} {q : Position}
    {suggestions : List String}
    (h : role.complete found q = .error (.unexpectedToken found q suggestions))
    (hword : word ∈ suggestions) :
    IsWord word.toList ∧ (∃ place, role.place? = some place) ∧
      (∀ w rest, role.EndsAt w rest) ∧
      ∃ place, role.complete word q = .ok place ∧ ∀ f, place.relocate f = place := by
  cases Role.completes h with
  | padded => cases hword
  | noInteger => cases hword
  | @noKeyword a =>
    have hmem := ((Suggestion.best_suggest found argumentKeywords).near word hword).1
    refine ⟨isWord_of_mem_argumentKeywords hmem, ⟨_, rfl⟩, fun _ _ => trivial, ?_⟩
    cases hcomplete : (Role.keyword a).complete word q with
    | ok place =>
      refine ⟨place, rfl, fun f => ?_⟩
      cases Role.completes hcomplete <;> rfl
    | error e =>
      cases Role.completes hcomplete with
      | noKeyword hnone hinvalid =>
        exact absurd hmem (not_mem_argumentKeywords_iff.2 ⟨hnone, hinvalid⟩)
  | @noStyle a type =>
    have hmem := ((Suggestion.best_suggest found ArgumentStyle.keywords).near word hword).1
    refine ⟨isWord_of_mem_styles hmem, ⟨_, rfl⟩, fun _ _ => trivial, ?_⟩
    cases hcomplete : (Role.style a type).complete word q with
    | ok place =>
      refine ⟨place, rfl, fun f => ?_⟩
      cases Role.completes hcomplete
      rfl
    | error e =>
      cases Role.completes hcomplete with
      | noStyle hinvalid => exact absurd hmem (ArgumentStyle.ofKeyword_eq_invalid_iff.1 hinvalid)

/-! ### Errors behind it -/

/-- The reader keeps no position `q`: moving that alone changes nothing. -/
def State.Avoids (s : State) (q : Position) : Prop :=
  ∀ f : Position → Position, (∀ r, r ≠ q → f r = r) → s.relocate f [] = s

/-- **An error is not at a position that the reader has left behind and not kept.** -/
theorem position?_ne_of_read {q : Position} (hs : s.Avoids q) (hq : q.Before p) {cs : List Char}
    (h : read limit p s cs = .error e) : e.position? ≠ some q := by
  intro he
  -- Reading is the same when `q` alone is moved, so the error is too.
  let f : Position → Position := fun r => if r = q then p else r
  have hf : ∀ r, r ≠ q → f r = r := fun r hr => if_neg hr
  have hahead : ∀ pre, p.after pre ≠ q := by
    intro pre heq
    by_cases hpre : pre = []
    · subst hpre
      exact hq.ne heq.symm
    · exact (hq.trans (Position.before_after hpre p)).ne heq.symm
  have hmoved : read limit (f p) (s.relocate f []) cs =
      relocateError f (([] : List Part).reverse ++ ·) (read limit p s cs) := by
    refine read_relocate limit s fun pre => ?_
    rw [hf p (hahead []), hf _ (hahead pre)]
  rw [hs f hf, hf p (hahead []), h] at hmoved
  have hsame := congrArg ParseError.position? (Except.error.inj hmoved)
  rw [ParseError.position?_relocate, he] at hsame
  have hat : q = f q := Option.some.inj hsame
  rw [show f q = p from if_pos rfl] at hat
  exact hq.ne hat

theorem relocateFrames_of_forall {f : Position → Position} {frames : List Frame}
    (h : ∀ g ∈ frames, f g.start = g.start) : relocateFrames f [] frames = frames := by
  induction frames with
  | nil => rfl
  | cons g outer ih =>
    obtain ⟨hg, houter⟩ := List.forall_mem_cons.1 h
    rw [relocateFrames, ih houter, hg, onto]
    simp

/-- Between tokens, where the place keeps no position, the reader keeps those of the keys of open
branches, all of them behind it. -/
theorem State.avoids_of_tracks {place : Place} (hplace : ∀ f, place.relocate f = place)
    {pre : List Char} (hs : s.Tracks pre) :
    (s.become (.between place)).Avoids (Position.start.after pre) := by
  intro f hf
  have hframes : relocateFrames f [] s.frames = s.frames := by
    refine relocateFrames_of_forall fun g hg => hf _ ?_
    obtain ⟨front, key, back, rfl, hstart, hkey, -⟩ := hs.frames g hg
    have hne : key ++ back ≠ [] := fun hnil => hkey.ne_nil (List.append_eq_nil_iff.1 hnil).1
    rw [hstart, Position.after_append]
    exact (Position.before_after hne _).ne
  show State.mk (relocateFrames f [] s.frames) (onto [] s.frames s.parts)
    (.between (place.relocate f)) = _
  rw [hframes, hplace, onto]
  simp [State.become]

/-! ### Whole patterns -/

/-- The pattern that has the word between what is in front and what is behind. -/
def embed (front : List Char) (word : String) (rest : List Char) : String :=
  String.ofList (front ++ (word.toList ++ rest))

theorem toList_embed (front : List Char) (word : String) (rest : List Char) :
    (embed front word rest).toList = front ++ (word.toList ++ rest) := String.toList_ofList

/-- The word stands at `q` in the pattern, between what is in front and what is behind. -/
structure Occurs (pattern word : String) (q : Position) (front rest : List Char) : Prop where
  split : pattern = embed front word rest
  position : q = Position.start.after front

theorem Occurs.unique {pattern word : String} {q : Position} {front front' rest rest' : List Char}
    (h : Occurs pattern word q front rest) (h' : Occurs pattern word q front' rest') :
    front = front' ∧ rest = rest' := by
  have hsplit := congrArg String.toList (h.split.symm.trans h'.split)
  rw [toList_embed, toList_embed] at hsplit
  obtain ⟨rfl, hrest⟩ := Position.eq_of_after_eq hsplit (h.position.symm.trans h'.position)
  exact ⟨rfl, List.append_cancel_left hrest⟩

/-- **A suggestion is accepted where the word at fault stood.** With the suggestion instead of it
the pattern is read, or is at fault elsewhere. -/
theorem parse_corrected {d : Nat} {pattern found word : String} {q : Position}
    {suggestions : List String}
    (h : parse ⟨d, none⟩ pattern = .error (.unexpectedToken found q suggestions))
    (hword : word ∈ suggestions) :
    (∃ front rest, Occurs pattern found q front rest) ∧
      ∀ front rest, Occurs pattern found q front rest →
        (∃ m, parse ⟨d, none⟩ (embed front word rest) = .ok m) ∨
          ∃ e q', parse ⟨d, none⟩ (embed front word rest) = .error e ∧
            e.position? = some q' ∧ q' ≠ q := by
  have hread : read d .start .initial pattern.toList =
      .error (.unexpectedToken found q suggestions) := h
  obtain ⟨pre, rest, t, role, hpattern, hrest, hrun, hmode, hcomplete⟩ :=
    exists_run_of_suggestions (List.ne_nil_of_mem hword) hread
  obtain ⟨hisWord, ⟨place, hplace⟩, hends, place', hcomplete', hkept⟩ :=
    Role.complete_of_suggested hcomplete hword
  obtain ⟨front, rfl, hq, hfront⟩ :=
    exists_front_of_run State.not_inWord_initial hrun hmode hplace
  have hoccurs : Occurs pattern found q front rest := by
    refine ⟨?_, hq⟩
    rw [← String.toList_inj, toList_embed, hpattern, List.append_assoc]
  refine ⟨⟨front, rest, hoccurs⟩, fun front' rest' hoccurs' => ?_⟩
  obtain ⟨rfl, rfl⟩ := hoccurs.unique hoccurs'
  have hparse : parse ⟨d, none⟩ (embed front word rest) =
      read d (q.after word.toList) (t.become (.between place')) rest := by
    show read d .start .initial (embed front word rest).toList = _
    rw [toList_embed, read_append, hfront]
    show read d (Position.start.after front) (t.become (.between place)) _ = _
    have hread : read d q (t.become (.between place)) (word.toList ++ rest) = _ :=
      read_word_of_place hisWord hplace (hends _ rest) hrest q
    rw [String.ofList_toList, hcomplete'] at hread
    rw [← hq]
    exact hread
  have havoids := State.avoids_of_tracks hkept (tracks_of_run hfront)
  rw [State.become_become, ← hq] at havoids
  have hbefore : q.Before (q.after word.toList) := Position.before_after hisWord.ne_nil q
  rw [hparse]
  cases hresult : read d (q.after word.toList) (t.become (.between place')) rest with
  | ok m => exact .inl ⟨m, rfl⟩
  | error e =>
    have hne := position?_ne_of_read havoids hbefore hresult
    cases hposition : e.position? with
    | some q' => exact .inr ⟨e, q', rfl, hposition, fun heq => hne (heq ▸ hposition)⟩
    | none =>
      cases e with
      | tooLong n l => exact absurd (hparse.trans hresult) (parse_ne_tooLong d n l)
      | _ => cases hposition

/-- Two words are at fault in this pattern, and a suggestion for the first one is followed. -/
theorem parse_corrected_nested :
    (∃ m, parse ⟨3, none⟩ (embed "\x7bn, plural, other \x7b\x7bm, ".toList "number"
        ", prcent\x7d\x7d\x7d".toList) = .ok m) ∨
      ∃ e q', parse ⟨3, none⟩ (embed "\x7bn, plural, other \x7b\x7bm, ".toList "number"
        ", prcent\x7d\x7d\x7d".toList) = .error e ∧ e.position? = some q' ∧ q' ≠ ⟨1, 24, 24⟩ := by
  have h : parse ⟨3, none⟩ "\x7bn, plural, other \x7b\x7bm, nmber, prcent\x7d\x7d\x7d" =
      .error (.unexpectedToken "nmber" ⟨1, 24, 24⟩ ["number"]) := rfl
  exact (parse_corrected h List.mem_cons_self).2 _ _ ⟨rfl, rfl⟩

end MessagePattern.Pattern
