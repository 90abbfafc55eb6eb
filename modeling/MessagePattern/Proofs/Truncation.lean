import MessagePattern.Proofs.Blame
import MessagePattern.Proofs.Extension
import MessagePattern.Proofs.Soundness

/-! Patterns that are cut off.

What is left of a pattern that was cut may still be a pattern, or end too early. There is
one other way for it to be refused. The reader judges a word as soon as the word has ended,
before it looks at what stands behind, and the end of a pattern ends a word like anything
else. So a cut inside a word is blamed on the word where the beginning that is left cannot
stand in its place (`CutsWord`): `numbe` where a type is asked for, `01` where a name is.
An integer is never among them, for what begins an integer is one itself
(`IsLiteral.of_append`), and a key of letters may be any word.

`parse_of_append` is what the beginning of a pattern comes to, and when. -/
namespace MessagePattern.Integer

open Lexis

/-! ### Integers that are cut off -/

theorem le_ofDigitChars (ds : List Char) (m : Nat) : m ≤ Nat.ofDigitChars 10 ds m := by
  induction ds generalizing m with
  | nil => exact Nat.le_refl m
  | cons c ds ih =>
    rw [Nat.ofDigitChars_cons]
    exact Nat.le_trans (by omega) (ih _)

/-- What begins a row of digits has at most its value. -/
theorem IsDigits.of_append {ds more : List Char} {m : Nat} (h : IsDigits (ds ++ more) m)
    (hne : ds ≠ []) : ∃ k ≤ m, IsDigits ds k := by
  refine ⟨Nat.ofDigitChars 10 ds 0, ?_, hne, fun c hc => ?_, rfl⟩
  · rw [← h.value, Nat.ofDigitChars_append]
    exact le_ofDigitChars _ _
  · exact h.digits c (List.mem_append_left _ hc)

theorem exists_toInt_eq {n : Int} (h : Fits n) : ∃ k : Int64, k.toInt = n := by
  cases hk : ofInt? n with
  | none => exact absurd h (ofInt?_eq_none_iff.1 hk)
  | some k => exact ⟨k, ofInt?_eq_some_iff.1 hk⟩

/-- The beginning of a literal is a literal, unless it is the sign alone. -/
theorem IsLiteral.of_append {n : Int64} {sign w more : List Char}
    (hsign : sign = [] ∨ sign = ['-']) (hw : IsWord w) (h : IsLiteral n (sign ++ w ++ more)) :
    ∃ k, IsLiteral k (sign ++ w) := by
  have hlow := Int64.le_toInt n
  have hhigh := Int64.toInt_lt n
  rcases hsign with rfl | rfl
  · generalize hcs : [] ++ w ++ more = cs at h
    rcases h with ⟨hd, hn⟩ | ⟨hd, hn⟩
    · subst hcs
      obtain ⟨k, hk, hdk⟩ := hd.of_append hw.ne_nil
      obtain ⟨j, hj⟩ := exists_toInt_eq (n := k) ⟨by omega, by omega⟩
      exact ⟨j, .unsigned hdk hj⟩
    · -- No word begins with a minus sign.
      obtain ⟨c, w, rfl⟩ := List.exists_cons_of_ne_nil hw.ne_nil
      cases hcs
      exact absurd (hw.identifier '-' List.mem_cons_self) (by decide)
  · generalize hcs : ['-'] ++ w ++ more = cs at h
    rcases h with ⟨hd, hn⟩ | ⟨hd, hn⟩
    · subst hcs
      exact absurd hd IsDigits.head_ne_minus
    · cases hcs
      obtain ⟨k, hk, hdk⟩ := hd.of_append hw.ne_nil
      obtain ⟨j, hj⟩ := exists_toInt_eq (n := -k) ⟨by omega, by omega⟩
      exact ⟨j, .negative hdk hj⟩

end MessagePattern.Integer

namespace MessagePattern.Pattern

open Lexis Integer

variable {limit : Nat} {p : Position} {s t : State}

/-! ### Words that are refused -/

/-- The word cannot stand in this place, which asks for a name, for what kind of argument it
is or for a style. The suggestions are those made for it. -/
inductive Place.Refuses (word : List Char) : Place → (suggestions : List String) → Prop where
  | padded : IsPadded word → Place.Refuses word .opened []
  | noKeyword {a} : String.ofList word ∉ argumentKeywords →
      Place.Refuses word (.keyword a)
        (Suggestion.suggest (String.ofList word) argumentKeywords)
  | noStyle {a type} : String.ofList word ∉ ArgumentStyle.keywords →
      Place.Refuses word (.style a type)
        (Suggestion.suggest (String.ofList word) ArgumentStyle.keywords)

/-- The cut between `left` and `right` is inside a word that begins behind `front` and goes on
with `more`. What is left of it is refused in the place it stands in, and the error names
that. -/
inductive CutsWord (limit : Nat) : (left right : List Char) → ParseError → Prop where
  | mk {front word more rest s place suggestions} :
      run limit .start .initial front = .ok s → s.mode = .between place →
      IsWord word → IsWord more → EndsWord rest → place.Refuses word suggestions →
      CutsWord limit (front ++ word) (more ++ rest)
        (.unexpectedToken (String.ofList word) (Position.start.after front) suggestions)

theorem Selector.ofKeyword?_eq_none_iff {word : String} :
    Selector.ofKeyword? word = none ↔ word ∉ [selectWord, pluralWord, ordinalWord] := by
  unfold Selector.ofKeyword?
  split
  next h => simp [h]
  next hselect =>
    split
    next h => simp [h]
    next hplural =>
      split
      next h => simp [h]
      next hordinal => simp [hselect, hplural, hordinal]

/-- A word may stand behind the name of an argument if it spells a selector or a type. -/
theorem not_mem_argumentKeywords_iff {word : String} : word ∉ argumentKeywords ↔
    Selector.ofKeyword? word = none ∧ ArgumentType.ofKeyword word = .invalid := by
  rw [argumentKeywords, List.mem_append, not_or, Selector.ofKeyword?_eq_none_iff,
    ArgumentType.ofKeyword_eq_invalid_iff]

/-- Where a word of this role begins, with its first character. -/
def Role.place? : Role → Option Place
  | .argument => some .opened
  | .keyword a => some (.keyword a)
  | .style a type => some (.style a type)
  | .key choice => some (.key choice)
  | .integer _ _ => none

theorem Role.wordMode?_place {role : Role} {place : Place} (h : role.place? = some place)
    (c : Char) (p : Position) : place.wordMode? c p = some (.word c.toString p role) := by
  cases role with
  | integer choice use => cases h
  | _ =>
    cases h
    rfl

/-- A word that its place refuses is refused when it ends. -/
theorem Place.Refuses.complete {place : Place} {word : List Char} {suggestions : List String}
    (h : place.Refuses word suggestions) (start : Position) :
    ∃ role : Role, role.place? = some place ∧
      (∀ w rest, role.EndsAt w rest) ∧
      role.complete (String.ofList word) start =
        .error (.unexpectedToken (String.ofList word) start suggestions) := by
  cases h with
  | padded hp =>
    rw [← String.toList_ofList (l := word), ← isPaddedNumber_eq_true_iff] at hp
    refine ⟨.argument, rfl, fun _ _ => trivial, ?_⟩
    rw [Role.complete, if_pos hp]
  | @noKeyword a hnot =>
    obtain ⟨hselector, htype⟩ := not_mem_argumentKeywords_iff.1 hnot
    refine ⟨.keyword a, rfl, fun _ _ => trivial, ?_⟩
    simp only [Role.complete, hselector, htype, if_true]
  | @noStyle a type hnot =>
    have hstyle := ArgumentStyle.ofKeyword_eq_invalid_iff.2 hnot
    refine ⟨.style a type, rfl, fun _ _ => trivial, ?_⟩
    simp only [Role.complete, hstyle, if_true]

/-- Only integers are refused otherwise. -/
theorem Role.refuses_of_complete {role : Role} {word : String} {start : Position}
    {e : ParseError} (h : role.complete word start = .error e) :
    (∃ place suggestions, role.place? = some place ∧ place.Refuses word.toList suggestions ∧
        e = .unexpectedToken word start suggestions) ∨
      ∃ choice use, role = .integer choice use ∧ ∀ n, ¬ IsLiteral n word.toList := by
  cases Role.completes h with
  | padded hp =>
    exact .inl ⟨_, _, rfl, .padded (isPaddedNumber_eq_true_iff.1 hp), rfl⟩
  | noKeyword hselector htype =>
    have hnot := not_mem_argumentKeywords_iff.2 ⟨hselector, htype⟩
    rw [← String.ofList_toList (s := word)] at hnot
    refine .inl ⟨_, _, rfl, .noKeyword hnot, ?_⟩
    rw [String.ofList_toList]
  | noStyle hstyle =>
    have hnot := ArgumentStyle.ofKeyword_eq_invalid_iff.1 hstyle
    rw [← String.ofList_toList (s := word)] at hnot
    refine .inl ⟨_, _, rfl, .noStyle hnot, ?_⟩
    rw [String.ofList_toList]
  | noInteger hno => exact .inr ⟨_, _, rfl, hno⟩

/-! ### What a word looks like -/

/-- While it is read, an integer may have a minus sign in front. -/
def Role.Spells (word : List Char) : Role → Prop
  | .integer _ _ => ∃ sign w, word = sign ++ w ∧ (sign = [] ∨ sign = ['-']) ∧ IsWord w
  | .argument | .keyword _ | .style _ _ | .key _ => IsWord word

def Mode.Spelled : Mode → Prop
  | .word w _ role => role.Spells w.toList
  | .text _ _ | .between _ => True

theorem Role.Spells.isWord {role : Role} {word : List Char} {place : Place}
    (h : role.Spells word) (hplace : role.place? = some place) : IsWord word := by
  cases role with
  | integer choice use => cases hplace
  | _ => exact h

theorem Role.Spells.push {role : Role} {word : List Char} {c : Char} (h : role.Spells word)
    (hc : isIdentifierChar c = true) : role.Spells (word ++ [c]) := by
  have hword : ∀ {w}, IsWord w → IsWord (w ++ [c]) := by
    intro w hw
    refine ⟨by simp, fun d hd => ?_⟩
    rcases List.mem_append.1 hd with hd | hd
    · exact hw.identifier d hd
    · exact List.mem_singleton.1 hd ▸ hc
  cases role with
  | integer choice use =>
    obtain ⟨sign, w, rfl, hsign, hw⟩ := h
    exact ⟨sign, w ++ [c], List.append_assoc _ _ _, hsign, hword hw⟩
  | _ => exact hword h

/-- A word begins with its first character, or with the sign in front of it. -/
theorem Place.spelled_wordMode {place : Place} {c : Char} {mode : Mode}
    (hc : isIdentifierChar c = true) (hmode : place.wordMode? c p = some mode) :
    mode.Spelled := by
  have hword : IsWord c.toString.toList := by
    rw [toList_toString]
    exact ⟨List.cons_ne_nil _ _, by simpa using hc⟩
  cases place with
  | opened | keyword | style | key =>
    cases hmode
    exact hword
  | exact | offset =>
    cases hmode
    exact ⟨[], _, rfl, .inl rfl, hword⟩
  | minus =>
    cases hmode
    refine ⟨['-'], _, ?_, .inr rfl, hword⟩
    rw [String.toList_append]
    rfl
  | _ => cases hmode

/-- **Every character keeps words spelled as their role has it.** -/
theorem State.Steps.spelled {c : Char} (hs : s.mode.Spelled) (h : s.Steps limit p c (.ok t)) :
    t.mode.Spelled := by
  cases h with
  | continued hword hc =>
    rw [hword] at hs
    show Role.Spells _ _
    rw [String.toList_push]
    exact hs.push hc
  | begun _ hc hbegun => exact Place.spelled_wordMode hc hbegun
  | _ => trivial

theorem spelled_of_run {cs : List Char} (h : run limit .start .initial cs = .ok t) :
    t.mode.Spelled :=
  run_induction (motive := fun _ s => s.mode.Spelled) trivial (fun hs h => h.spelled hs) h

/-! ### In front of a word -/

/-- A word begins where its role has it begin, unless there is a sign in front. -/
theorem Place.role_of_wordMode {place : Place} {c : Char} {word : String} {start : Position}
    {role : Role} {place' : Place} (hrole : role.place? = some place')
    (h : place.wordMode? c p = some (.word word start role)) :
    place' = place ∧ word = c.toString ∧ start = p := by
  cases place with
  | opened | keyword | style | key =>
    cases h
    cases hrole
    exact ⟨rfl, rfl, rfl⟩
  | exact | offset | minus =>
    cases h
    cases hrole
  | _ => cases h

/-- **In front of a word the reader is where the role of the word has it begin**, and has
otherwise not changed since. -/
theorem exists_front_of_run {cs : List Char} (hs : ¬ s.InWord) (h : run limit p s cs = .ok t)
    {word : String} {start : Position} {role : Role} {place : Place}
    (hmode : t.mode = .word word start role) (hrole : role.place? = some place) :
    ∃ front, cs = front ++ word.toList ∧ start = p.after front ∧
      run limit p s front = .ok (t.become (.between place)) := by
  -- From the last character back to the one that begins the word.
  induction cs using List.reverseRecOn generalizing t word with
  | nil =>
    cases h
    exact absurd ⟨_, _, _, hmode⟩ hs
  | append_singleton cs c ih =>
    obtain ⟨u, hu, hstep⟩ := exists_step_of_run h
    have hsteps := u.steps limit (p.after cs) c
    rw [hstep] at hsteps
    generalize ht : Except.ok t = outcome at hsteps
    cases hsteps with
    | continued hword hc =>
      cases ht
      cases hmode
      obtain ⟨front, rfl, hstart, hfront⟩ := ih hu hword
      refine ⟨front, ?_, hstart, hfront⟩
      rw [String.toList_push, List.append_assoc]
    | begun hbetween hc hbegun =>
      cases ht
      have hbegun := hbegun.trans (congrArg some hmode)
      obtain ⟨rfl, rfl, rfl⟩ := Place.role_of_wordMode hrole hbegun
      refine ⟨cs, by rw [toList_toString], rfl, ?_⟩
      rw [hu, State.become_become, State.become_of_mode hbetween]
    | repeated | refused | tooDeep | unexpected => cases ht
    | _ =>
      cases ht
      cases hmode

/-- A word is read from the place its role has it begin in, and judged when it ends. -/
theorem read_word_of_place {place : Place} {role : Role} {word : List Char} (hword : IsWord word)
    (hplace : role.place? = some place) {rest : List Char}
    (hends : role.EndsAt (String.ofList word) rest) (hrest : EndsWord rest) (p : Position) :
    read limit p (s.become (.between place)) (word ++ rest) =
      (role.complete (String.ofList word) p).bind fun place' =>
        read limit (p.after word) (s.become (.between place')) rest := by
  have hm : ∀ c, place.wordMode? c p = some (.word ("" ++ c.toString) p role) := by
    intro c
    rw [String.empty_append]
    exact Role.wordMode?_place hplace c p
  rw [read_word hword hm, String.empty_append, read_word_end hrest hends]

/-! ### What is left of a pattern -/

/-- A word that is refused at the end of a pattern, but not in a longer one, goes on there. -/
theorem exists_more_of_read {start : Position} {word : String} {role : Role} {rest : List Char}
    {e : ParseError} {m : Message} (he : role.complete word start = .error e)
    (h : read limit p (s.become (.word word start role)) rest = .ok m) :
    ∃ more rest' place, rest = more ++ rest' ∧ IsWord more ∧ EndsWord rest' ∧
      role.complete (word ++ String.ofList more) start = .ok place := by
  obtain ⟨more, rest, rfl, hmore, hends⟩ := exists_run_append isIdentifierChar rest
  rw [read_word_append hmore] at h
  have hendsAt : role.EndsAt (word ++ String.ofList more) rest := by
    cases Role.completes he <;> trivial
  rw [read_word_end hends hendsAt] at h
  obtain ⟨place, hplace, -⟩ := exists_of_bind_eq_ok h
  refine ⟨more, rest, place, rfl, ⟨?_, hmore⟩, hends, hplace⟩
  rintro rfl
  rw [String.ofList_nil, String.append_empty, he] at hplace
  cases hplace

/-- An integer that is refused is refused with whatever follows. -/
theorem not_isLiteral_append (choice : Choice) (use : Use) {word more : List Char}
    (hspells : (Role.integer choice use).Spells word) (h : ∀ n, ¬ IsLiteral n word) (n : Int64) :
    ¬ IsLiteral n (word ++ more) := by
  obtain ⟨sign, w, rfl, hsign, hw⟩ := hspells
  intro hn
  obtain ⟨k, hk⟩ := hn.of_append hsign hw
  exact h k hk

/-- A word that is refused at the end of a pattern that could go on has been cut. -/
theorem cutsWord_of_read {left right : List Char} {word : String} {start : Position} {role : Role}
    {e : ParseError} {m : Message} (hrun : run limit .start .initial left = .ok s)
    (hmode : s.mode = .word word start role) (he : role.complete word start = .error e)
    (h : read limit (Position.start.after left) s right = .ok m) : CutsWord limit left right e := by
  have hspells : (Mode.word word start role).Spelled := hmode ▸ spelled_of_run hrun
  rw [← State.become_of_mode hmode] at h
  obtain ⟨more, rest, place', rfl, hmore, hends, hplace'⟩ := exists_more_of_read he h
  rcases Role.refuses_of_complete he with
    ⟨place, suggestions, hplace, hrefuses, rfl⟩ | ⟨choice, use, rfl, hno⟩
  · obtain ⟨front, rfl, rfl, hfront⟩ :=
      exists_front_of_run State.not_inWord_initial hrun hmode hplace
    have hcuts := CutsWord.mk hfront rfl (hspells.isWord hplace) hmore hends hrefuses
    rwa [String.ofList_toList] at hcuts
  · cases Role.completes hplace' with
    | integer hn =>
      rw [String.toList_append, String.toList_ofList] at hn
      exact absurd hn (not_isLiteral_append choice use hspells hno _)

/-- The end of a pattern that could go on comes too early, or it cuts a word. -/
theorem State.finish_of_read {left right : List Char} {m : Message}
    (hrun : run limit .start .initial left = .ok s)
    (h : read limit (Position.start.after left) s right = .ok m) :
    (∃ m', s.finish (Position.start.after left) = .ok m') ∨
      s.finish (Position.start.after left) = .error (.unexpectedEnd (Position.start.after left)) ∨
      ∃ e, CutsWord limit left right e ∧ s.finish (Position.start.after left) = .error e := by
  cases hmode : s.mode with
  | text buffer quoting =>
    rw [State.finish, hmode]
    dsimp only
    split
    next => exact .inl ⟨_, rfl⟩
    next => exact .inr (.inl rfl)
  | between place =>
    rw [State.finish, hmode]
    exact .inr (.inl rfl)
  | word word start role =>
    rw [State.finish, hmode]
    dsimp only
    cases hcomplete : role.complete word start with
    | ok place => exact .inr (.inl rfl)
    | error e => exact .inr (.inr ⟨e, cutsWord_of_read hrun hmode hcomplete h, rfl⟩)

/-- Where a cut leaves a word that its place refuses, the reader refuses it at the end. -/
theorem CutsWord.read_eq {left right : List Char} {e : ParseError}
    (h : CutsWord limit left right e) : read limit .start .initial left = .error e := by
  cases h with
  | @mk front word more rest s place suggestions hrun hmode hword _ _ hrefuses =>
    obtain ⟨role, hplace, hends, hcomplete⟩ := hrefuses.complete (Position.start.after front)
    have hread : read limit (Position.start.after front) (s.become (.between place))
        (word ++ []) = _ := read_word_of_place hword hplace (hends _ _) .nil _
    rw [List.append_nil, State.become_of_mode hmode, hcomplete] at hread
    rw [read_append, hrun]
    exact hread

section
variable {limits : Limits} {pattern : String}

theorem parse_eq_read (h : ∀ L ∈ limits.maxLength, pattern.utf8ByteSize ≤ L) :
    parse limits pattern = read limits.maxDepth .start .initial pattern.toList := by
  unfold parse
  split
  next L hL => rw [if_neg (Nat.not_lt.2 (h L hL))]
  next => rfl

theorem utf8ByteSize_le_of_parse {m : Message} (h : parse limits pattern = .ok m) :
    ∀ L ∈ limits.maxLength, pattern.utf8ByteSize ≤ L := by
  intro L hL
  unfold parse at h
  rw [Option.mem_def.1 hL] at h
  dsimp only at h
  split at h
  next => cases h
  next hle => exact Nat.not_lt.1 hle

end

/-- **What is left of a pattern that was cut** is a pattern or ends too early, unless the cut
leaves the beginning of a word that cannot stand in the place of the word; then, and only
then, it is refused for that. It is not too deep. -/
theorem parse_of_append {limits : Limits} {left right : String} {m : Message}
    (h : parse limits (left ++ right) = .ok m) :
    ((∃ m', parse limits left = .ok m') ∨
      parse limits left = .error (.unexpectedEnd (Position.start.after left.toList)) ∨
      ∃ e, CutsWord limits.maxDepth left.toList right.toList e ∧ parse limits left = .error e) ∧
    ∀ e, CutsWord limits.maxDepth left.toList right.toList e → parse limits left = .error e := by
  have hlength : ∀ L ∈ limits.maxLength, left.utf8ByteSize ≤ L := by
    intro L hL
    have := utf8ByteSize_le_of_parse h L hL
    rw [String.utf8ByteSize_append] at this
    omega
  have hread := read_of_parse h
  rw [String.toList_append, read_append] at hread
  obtain ⟨t, hrun, hright⟩ := exists_of_bind_eq_ok hread
  rw [parse_eq_read hlength]
  refine ⟨?_, fun e he => he.read_eq⟩
  have hleft : read limits.maxDepth .start .initial left.toList =
      t.finish (Position.start.after left.toList) := by rw [read, hrun]
  rw [hleft]
  exact State.finish_of_read hrun hright

theorem parse_of_append_style :
    parse .standard "\x7bn, number, percent\x7d" =
      .ok [.simple "n" .number .percent] ∧
    CutsWord Limits.standard.maxDepth "\x7bn, number, perc".toList "ent\x7d".toList
      (.unexpectedToken "perc" ⟨1, 13, 13⟩ []) ∧
    parse .standard "\x7bn, number, perc" =
      .error (.unexpectedToken "perc" ⟨1, 13, 13⟩ []) := by
  have h : parse .standard ("\x7bn, number, perc" ++ "ent\x7d") =
      .ok [.simple "n" .number .percent] := rfl
  have hcut : CutsWord Limits.standard.maxDepth "\x7bn, number, perc".toList "ent\x7d".toList
      (.unexpectedToken "perc" ⟨1, 13, 13⟩ []) := by
    have hfront : run Limits.standard.maxDepth .start .initial "\x7bn, number, ".toList =
        .ok ⟨[], [], .between (.style "n" .number)⟩ := rfl
    exact @CutsWord.mk _ _ "perc".toList "ent".toList "\x7d".toList _ _ _ hfront rfl
      (by decide) (by decide) (endsWord_cons (by decide)) (.noStyle (by decide))
  exact ⟨h, hcut, (parse_of_append h).2 _ hcut⟩

/-- Not every beginning of a pattern is one itself or ends too early. -/
theorem not_forall_cut_ends_early : ¬ ∀ (left right : String) (m : Message),
    parse .standard (left ++ right) = .ok m →
      (∃ m', parse .standard left = .ok m') ∨
        parse .standard left = .error (.unexpectedEnd (Position.start.after left.toList)) := by
  intro h
  have hcut : parse .standard "\x7ba, numbe" =
      .error (.unexpectedToken "numbe" ⟨1, 5, 5⟩ ["number"]) := rfl
  rcases h "\x7ba, numbe" "r\x7d" [.simple "a" .number .default] rfl with ⟨m', hm⟩ | hend
  · rw [hcut] at hm
    cases hm
  · rw [hcut] at hend
    cases hend

end MessagePattern.Pattern
