import MessagePattern.Proofs.Completeness

/-! Every acceptance is derived.

Where reading comes to a message in the end, the grammar derives what was read. Each
token is taken apart first: of the characters in front of the reader only those that the
grammar allows there are not refused (`Accepts.word`, `Accepts.integer`, `Accepts.key`).
`sound` puts the phrases together, by induction on the number of characters: a phrase
always leaves fewer of them than it was read from.

`readsMessage_of_parse` is the case of a whole pattern. -/
namespace MessagePattern.Pattern

open Lexis Integer

variable {limit : Nat} {s : State} {M : Message}

/-- Reading `cs` from `s`, wherever it begins, comes to the message `M`. -/
def Accepts (limit : Nat) (s : State) (cs : List Char) (M : Message) : Prop :=
  ∃ p, read limit p s cs = .ok M

theorem Leads.accepts {t : State} {cs rest : List Char} (h : Leads limit s cs t rest)
    (ha : Accepts limit s cs M) : Accepts limit t rest M := by
  obtain ⟨p, hp⟩ := ha
  obtain ⟨pre, -, hread⟩ := h p
  exact ⟨p.after pre, hread ▸ hp⟩

/-! ### Between tokens -/

/-- Between two tokens no pattern ends. -/
theorem Accepts.exists_cons {place : Place} {cs : List Char}
    (h : Accepts limit (s.become (.between place)) cs M) : ∃ c rest, cs = c :: rest := by
  cases cs with
  | nil =>
    obtain ⟨p, hp⟩ := h
    cases hp
  | cons c rest => exact ⟨c, rest, rfl⟩

/-- White space comes to an end. -/
theorem Accepts.blank {place : Place} {cs : List Char} (hp : place.skipsWhiteSpace = true)
    (h : Accepts limit (s.become (.between place)) cs M) :
    ∃ w c rest, cs = w ++ c :: rest ∧ IsBlank w ∧ isWhiteSpace c = false ∧
      Accepts limit (s.become (.between place)) (c :: rest) M := by
  obtain ⟨w, rest, rfl, hw, hr⟩ := exists_run_append isWhiteSpace cs
  have hrest : Accepts limit (s.become (.between place)) rest M :=
    Leads.accepts (fun p => ⟨w, rfl, read_blank hp hw p rest⟩) h
  obtain ⟨c, rest, rfl⟩ := hrest.exists_cons
  exact ⟨w, c, rest, rfl, hw, hr c rfl, hrest⟩

theorem Accepts.unskipped {place : Place} {c : Char} {rest : List Char}
    (hi : isIdentifierChar c = false) (hw : (isWhiteSpace c && place.skipsWhiteSpace) = false)
    (h : Accepts limit (s.become (.between place)) (c :: rest) M) :
    ∃ p t, (s.become (.between place)).mark limit p c place = .ok t ∧ Accepts limit t rest M := by
  obtain ⟨p, hp⟩ := h
  rw [read_unskipped hi hw] at hp
  obtain ⟨t, ht, hrest⟩ := exists_of_bind_eq_ok hp
  exact ⟨p, t, ht, p.advance c, hrest⟩

theorem Accepts.mark {place : Place} {c : Char} {rest : List Char}
    (hi : isIdentifierChar c = false) (hw : isWhiteSpace c = false)
    (h : Accepts limit (s.become (.between place)) (c :: rest) M) :
    ∃ p t, (s.become (.between place)).mark limit p c place = .ok t ∧ Accepts limit t rest M :=
  h.unskipped hi (by rw [hw]; rfl)

/-- Where no word may begin, only a mark is read. -/
theorem Accepts.not_identifier {place : Place} {c : Char} {rest : List Char}
    (hm : ∀ c p, place.wordMode? c p = none)
    (h : Accepts limit (s.become (.between place)) (c :: rest) M) : isIdentifierChar c = false := by
  by_contra hi
  obtain ⟨p, hp⟩ := h
  rw [read_cons, State.step_between, State.readBetween, if_pos (by simpa using hi), hm] at hp
  cases hp

/-- Behind a word that ends it has been judged. -/
theorem Accepts.word_end {rest : List Char} (he : EndsWord rest) {word : String} {role : Role}
    (hr : role.EndsAt word rest) {start : Position}
    (h : Accepts limit (s.become (.word word start role)) rest M) :
    ∃ place, role.complete word start = .ok place ∧
      Accepts limit (s.become (.between place)) rest M := by
  obtain ⟨p, hp⟩ := h
  rw [read_word_end he hr] at hp
  obtain ⟨place, hplace, hrest⟩ := exists_of_bind_eq_ok hp
  exact ⟨place, hplace, p, hrest⟩

/-- An identifier character begins a word, which is read to its end. -/
theorem Accepts.word_begin {place : Place} {role : Role}
    (hm : ∀ c p, place.wordMode? c p = some (.word c.toString p role)) {c : Char} {cs : List Char}
    (hc : isIdentifierChar c = true) (h : Accepts limit (s.become (.between place)) (c :: cs) M) :
    ∃ word rest start, c :: cs = word ++ rest ∧ IsWord word ∧ EndsWord rest ∧
      Accepts limit (s.become (.word (String.ofList word) start role)) rest M := by
  obtain ⟨word, rest, heq, hw, he⟩ := exists_isWord_append hc cs
  obtain ⟨p, hread⟩ := h
  have hm' : ∀ c, place.wordMode? c p = some (.word ("" ++ c.toString) p role) := by
    intro c
    rw [hm, String.empty_append]
  rw [heq, read_word hw hm', String.empty_append] at hread
  exact ⟨word, rest, p, heq, hw, he, _, hread⟩

/-- Where nothing but a word may stand there is one, with white space around it. -/
theorem Accepts.word {place : Place} {cs : List Char} (role : Role)
    (hp : place.skipsWhiteSpace = true)
    (hm : ∀ c p, place.wordMode? c p = some (.word c.toString p role))
    (hmark : ∀ c p, (s.become (.between place)).mark limit p c place =
      .error (.unexpectedChar c p))
    (hr : ∀ word rest, role.EndsAt word rest)
    (h : Accepts limit (s.become (.between place)) cs M) :
    ∃ word c rest start place', ReadsSpaced word.toList cs (c :: rest) ∧ IsWord word.toList ∧
      role.complete word start = .ok place' ∧ isWhiteSpace c = false ∧
      Accepts limit (s.become (.between place')) (c :: rest) M := by
  obtain ⟨w, c, rest, rfl, hw, hc, h⟩ := h.blank hp
  by_cases hi : isIdentifierChar c = true
  · obtain ⟨word, rest, start, heq, hword, he, h⟩ := h.word_begin hm hi
    obtain ⟨place', hcomplete, h⟩ := h.word_end he (hr _ _)
    obtain ⟨w', c', rest, rfl, hw', hc', h⟩ := h.blank (Role.skipsWhiteSpace_of_complete hcomplete)
    refine ⟨String.ofList word, c', rest, start, place', ?_, ?_, hcomplete, hc', h⟩
    · rw [heq, String.toList_ofList]
      exact .mk hw hw'
    · rw [String.toList_ofList]
      exact hword
  · obtain ⟨p, t, ht, -⟩ := h.mark (by simpa using hi) hc
    rw [hmark] at ht
    cases ht

/-! ### Integers -/

/-- Where an integer is to begin stand identifier characters, with a minus sign in front
or not. -/
theorem Accepts.integer_begin {choice : Choice} {use : Use} {c : Char} {cs : List Char}
    (hc : (isWhiteSpace c && (use.place choice).skipsWhiteSpace) = false)
    (h : Accepts limit (s.become (.between (use.place choice))) (c :: cs) M) :
    ∃ sign w rest, c :: cs = sign ++ (w ++ rest) ∧ (sign = [] ∨ sign = ['-']) ∧ IsWord w ∧
      EndsWord rest := by
  by_cases hi : isIdentifierChar c = true
  · obtain ⟨w, rest, heq, hw, he⟩ := exists_isWord_append hi cs
    exact ⟨[], w, rest, heq, .inl rfl, hw, he⟩
  obtain ⟨p, t, ht, hrest⟩ := h.unskipped (by simpa using hi) hc
  have hmark : (s.become (.between (use.place choice))).mark limit p c (use.place choice) =
      if c = '-' then .ok (s.become (.between (.minus choice use p)))
      else .error (.unexpectedChar c p) := by
    cases use <;> rfl
  rw [hmark] at ht
  split at ht
  next hminus =>
    cases ht
    subst hminus
    obtain ⟨d, cs, rfl⟩ := hrest.exists_cons
    by_cases hd : isIdentifierChar d = true
    · obtain ⟨w, rest, heq, hw, he⟩ := exists_isWord_append hd cs
      exact ⟨['-'], w, rest, congrArg ('-' :: ·) heq, .inr rfl, hw, he⟩
    · -- No mark may stand behind a minus sign.
      obtain ⟨q, u, hu, -⟩ := hrest.unskipped (by simpa using hd) (Bool.and_false _)
      cases hu
  next => cases ht

/-- Where an integer is to begin there is one. -/
theorem Accepts.integer (choice : Choice) (use : Use) {c : Char} {cs : List Char}
    (hc : (isWhiteSpace c && (use.place choice).skipsWhiteSpace) = false)
    (h : Accepts limit (s.become (.between (use.place choice))) (c :: cs) M) :
    ∃ n lit rest, c :: cs = lit ++ rest ∧ IsLiteral n lit ∧ EndsWord rest ∧
      Accepts limit (s.become (.between (use.target choice n))) rest M := by
  obtain ⟨sign, w, rest, heq, hsign, hw, he⟩ := h.integer_begin hc
  obtain ⟨p, hp⟩ := h
  obtain ⟨start, hread⟩ := read_integer limit s hsign hw he choice use p
  rw [heq, hread] at hp
  obtain ⟨place, hplace, hrest⟩ := exists_of_bind_eq_ok hp
  cases Role.completes hplace with
  | @integer _ _ n hn =>
    rw [String.toList_ofList] at hn
    exact ⟨n, sign ++ w, rest, by rw [heq, List.append_assoc], hn, he, _, hrest⟩

/-! ### Keys -/

/-- In front of a branch stands its brace. -/
theorem Accepts.branch {choice : Choice} {k : String} {start : Position} {cs : List Char}
    (h : Accepts limit (s.become (.between (.branch choice k start))) cs M) :
    ∃ w rest, cs = w ++ '{' :: rest ∧ IsBlank w ∧ s.depth < limit ∧
      Accepts limit (s.entered choice k start) rest M := by
  obtain ⟨w, c, rest, rfl, hw, hc, h⟩ := h.blank rfl
  obtain ⟨p, t, ht, hrest⟩ := h.mark (h.not_identifier fun _ _ => rfl) hc
  rw [State.mark] at ht
  split at ht
  next hbrace =>
    rw [State.openBranch_become, State.openBranch] at ht
    split at ht
    · cases ht
    · cases ht
      subst hbrace
      exact ⟨w, rest, rfl, hw, by omega, hrest⟩
  next => cases ht

/-- What may stand in front of a branch or the closing brace: the brace if there are
branches, a branch if it may be opened, an offset if one may be written. -/
theorem Accepts.key {choice : Choice} {cs : List Char}
    (h : Accepts limit (s.become (.between (.key choice))) cs M) :
    (∃ w rest, cs = w ++ '}' :: rest ∧ IsBlank w ∧ choice.branches ≠ [] ∧
      Accepts limit (s.withPart choice.part) rest M) ∨
    (∃ key k cs₁ start, ReadsKey choice.selector.isPlural key k ∧
      ReadsSpaced key cs ('{' :: cs₁) ∧ s.depth < limit ∧
      Accepts limit (s.entered choice k start) cs₁ M) ∨
    (choice.takesOffset = true ∧ ∃ w w' n lit rest,
      cs = w ++ (offsetWord.toList ++ ':' :: (w' ++ (lit ++ rest))) ∧ IsBlank w ∧ IsBlank w' ∧
      IsLiteral n lit ∧ EndsWord rest) := by
  obtain ⟨w, c, rest, rfl, hw, hc, h⟩ := h.blank rfl
  by_cases hi : isIdentifierChar c = true
  · obtain ⟨word, rest, start, heq, hword, he, h⟩ := h.word_begin (fun _ _ => rfl) hi
    rw [heq]
    by_cases hr : (Role.key choice).EndsAt (String.ofList word) rest
    · obtain ⟨place, hplace, h⟩ := h.word_end he hr
      cases hplace
      obtain ⟨w', rest, rfl, hw', hd, h⟩ := h.branch
      exact .inr (.inl ⟨word, _, rest, start, .word hword, .mk hw hw', hd, h⟩)
    · -- The colon behind the word makes it an offset.
      obtain ⟨hcolon, hoffset, ho⟩ := not_not.1 hr
      obtain ⟨rest, rfl⟩ := List.head?_eq_some_iff.1 hcolon
      obtain ⟨p, hp⟩ := h
      have hstep : (s.become (.word (String.ofList word) start (.key choice))).step limit p ':' =
          .ok (s.become (.between (.offset choice))) := by
        rw [State.step_word, State.readWord, if_neg (by decide)]
        simp [Role.complete, hoffset, ho]
      rw [read_cons_of_step hstep] at hp
      have h : Accepts limit (s.become (.between (.offset choice))) rest M := ⟨_, hp⟩
      obtain ⟨w', d, rest, rfl, hw', hd, h⟩ := h.blank rfl
      obtain ⟨n, lit, rest, heq, hn, he, -⟩ :=
        Accepts.integer choice .offset (by rw [hd]; rfl) h
      refine .inr (.inr ⟨ho, w, w', n, lit, rest, ?_, hw, hw', hn, he⟩)
      rw [heq, ← hoffset, String.toList_ofList]
  · obtain ⟨p, t, ht, hrest⟩ := h.mark (by simpa using hi) hc
    rw [State.mark] at ht
    split at ht
    next hclose =>
      simp only [Bool.and_eq_true, decide_eq_true_eq, Bool.not_eq_true', List.isEmpty_eq_false_iff]
        at hclose
      cases ht
      obtain ⟨rfl, hne⟩ := hclose
      exact .inl ⟨w, rest, rfl, hw, hne, hrest⟩
    next =>
      split at ht
      next hexact =>
        simp only [Bool.and_eq_true, decide_eq_true_eq] at hexact
        obtain ⟨rfl, hplural⟩ := hexact
        cases ht
        rw [State.become_become] at hrest
        obtain ⟨c, rest, rfl⟩ := hrest.exists_cons
        obtain ⟨n, lit, rest, heq, hn, he, hbranch⟩ :=
          Accepts.integer choice (.key p) (Bool.and_false _) hrest
        obtain ⟨w', rest, rfl, hw', hd, h⟩ := hbranch.branch
        have hkey : ReadsKey choice.selector.isPlural ('=' :: lit)
            (exactKey n) := by
          rw [hplural]
          exact .exact hn
        rw [heq]
        exact .inr (.inl ⟨'=' :: lit, _, rest, p, hkey, .mk hw hw', hd, h⟩)
      next => cases ht

/-! ### Arguments -/

theorem Selector.ofKeyword?_eq_some {word : String} {selector : Selector}
    (h : Selector.ofKeyword? word = some selector) :
    (word = selectWord ∧ selector = .select) ∨
      ∃ o, word = pluralKeyword o ∧ selector = .plural o none := by
  unfold Selector.ofKeyword? at h
  split at h
  next hw => exact .inl ⟨hw, (Option.some.inj h).symm⟩
  next =>
    split at h
    next hw => exact .inr ⟨false, hw, (Option.some.inj h).symm⟩
    next =>
      split at h
      next hw => exact .inr ⟨true, hw, (Option.some.inj h).symm⟩
      next => cases h

theorem Accepts.name {cs : List Char} (h : Accepts limit (s.become (.between .opened)) cs M) :
    ∃ a c rest, ReadsSpaced a.toList cs (c :: rest) ∧ IsArgumentName a.toList ∧
      (c = '}' ∧ Accepts limit (s.withPart (.plain a)) rest M ∨
        c = ',' ∧ Accepts limit (s.become (.between (.keyword a))) rest M) := by
  obtain ⟨a, c, rest, start, place, hs, hw, hcomplete, hc, h⟩ :=
    h.word .argument rfl (fun _ _ => rfl) (fun _ _ => rfl) (fun _ _ => trivial)
  cases Role.completes hcomplete with
  | argument hp =>
    refine ⟨a, c, rest, hs, ⟨hw, fun h => ?_⟩, ?_⟩
    · rw [isPaddedNumber_eq_true_iff.2 h] at hp
      cases hp
    obtain ⟨p, t, ht, hrest⟩ := h.mark (h.not_identifier fun _ _ => rfl) hc
    rw [State.mark] at ht
    split at ht
    next hclose =>
      cases ht
      exact .inl ⟨hclose, hrest⟩
    next =>
      split at ht
      next hcomma =>
        cases ht
        exact .inr ⟨hcomma, hrest⟩
      next => cases ht

/-- Behind the name of an argument a selector and a comma stand in front of branches, or
else a type. -/
theorem Accepts.keyword {a : String} {cs : List Char}
    (h : Accepts limit (s.become (.between (.keyword a))) cs M) :
    (∃ word selector rest, Selector.ofKeyword? word = some selector ∧
      ReadsSpaced word.toList cs (',' :: rest) ∧
      Accepts limit (s.become (.between (.key ⟨a, selector, []⟩))) rest M) ∨
    (∃ t c rest, t ∈ ArgumentType.spelled ∧ ReadsSpaced t.keyword.toList cs (c :: rest) ∧
      isWhiteSpace c = false ∧
      Accepts limit (s.become (.between (.afterType a t))) (c :: rest) M) := by
  obtain ⟨word, c, rest, start, place, hs, -, hcomplete, hc, h⟩ :=
    h.word (.keyword a) rfl (fun _ _ => rfl) (fun _ _ => rfl) (fun _ _ => trivial)
  cases Role.completes hcomplete with
  | @selector _ selector hselector =>
    obtain ⟨p, t, ht, hrest⟩ := h.mark (h.not_identifier fun _ _ => rfl) hc
    rw [State.mark] at ht
    split at ht
    next hcomma =>
      cases ht
      subst hcomma
      exact .inl ⟨word, selector, rest, hselector, hs, hrest⟩
    next => cases ht
  | type _ htype =>
    obtain ⟨hmem, hkeyword⟩ := ArgumentType.ofKeyword_spelled htype
    exact .inr ⟨_, c, rest, hmem, by rw [hkeyword]; exact hs, hc, h⟩

theorem Accepts.style {a : String} {t : ArgumentType} {c : Char} {cs : List Char}
    (hc : isWhiteSpace c = false)
    (h : Accepts limit (s.become (.between (.afterType a t))) (c :: cs) M) :
    ∃ style rest, ReadsStyle (c :: cs) style rest ∧
      Accepts limit (s.withPart (.simple a t style)) rest M := by
  obtain ⟨p, u, hu, hrest⟩ := h.mark (h.not_identifier fun _ _ => rfl) hc
  rw [State.mark] at hu
  split at hu
  next hclose =>
    cases hu
    subst hclose
    exact ⟨.default, cs, .default, hrest⟩
  next =>
    split at hu
    next hcomma =>
      cases hu
      subst hcomma
      obtain ⟨word, d, rest, start, place, hs, -, hcomplete, hd, h⟩ :=
        Accepts.word (.style a t) rfl (fun _ _ => rfl) (fun _ _ => rfl) (fun _ _ => trivial) hrest
      cases Role.completes hcomplete with
      | style hstyle =>
        obtain ⟨hmem, hkeyword⟩ := ArgumentStyle.ofKeyword_spelled hstyle
        obtain ⟨q, v, hv, hend⟩ := h.mark (h.not_identifier fun _ _ => rfl) hd
        rw [State.mark] at hv
        split at hv
        next hclose =>
          cases hv
          subst hclose
          exact ⟨_, rest, .keyword hmem (by rw [hkeyword]; exact hs), hend⟩
        next => cases hv
    next => cases hu

/-! ### Messages -/

/-- What is read as text from `cs` begins with a message. -/
def SoundMessage (limit : Nat) (cs : List Char) : Prop :=
  ∀ (s : State) (M : Message), s.depth ≤ limit →
    Accepts limit (s.become (.text "" .plain)) cs M →
    ∃ m rest, ReadsMessage s.isNested s.inPlural cs m rest ∧ s.depth + Message.depth m ≤ limit ∧
      EndsMessage s.isNested rest ∧ Accepts limit (s.withParts m) rest M

/-- What is read from `cs` behind a brace ends an argument. -/
def SoundArgument (limit : Nat) (cs : List Char) : Prop :=
  ∀ (s : State) (M : Message), s.depth ≤ limit →
    Accepts limit (s.become (.between .opened)) cs M →
    ∃ part rest, ReadsArgument ('{' :: cs) part rest ∧ s.depth + part.depth ≤ limit ∧
      Accepts limit (s.withPart part) rest M

/-- No offset that could be read is written in front. -/
def Choice.Settled (choice : Choice) (cs : List Char) : Prop :=
  choice.takesOffset = true → ∀ n rest, ReadsOffset cs n rest → rest = cs

/-- What is read from `cs` behind the branches of a choice are the others, up to the
brace that closes the argument. -/
def SoundBranches (limit : Nat) (cs : List Char) : Prop :=
  ∀ (s : State) (choice : Choice) (M : Message), s.depth ≤ limit → Ascending choice.branches →
    choice.Settled cs → Accepts limit (s.become (.between (.key choice))) cs M →
    ∃ given bs rest, ReadsBranches choice.selector.isPlural cs given rest ∧ Ascending bs ∧
      bs.Perm (choice.branches ++ given) ∧ bs ≠ [] ∧ s.depth + Branches.depth given ≤ limit ∧
      Accepts limit (s.withPart { choice with branches := bs }.part) rest M

theorem Choice.settled_of_branches {choice : Choice} (h : choice.branches ≠ []) (cs : List Char) :
    choice.Settled cs := by
  intro ho
  unfold Choice.takesOffset at ho
  split at ho
  · cases ho
  · simp [h] at ho

theorem Choice.settled_of_select {a : String} {bs : Branches} (cs : List Char) :
    Choice.Settled ⟨a, .select, bs⟩ cs :=
  fun ho => nomatch ho

theorem Choice.settled_of_offset {a : String} {o : Bool} {n : Int64} {bs : Branches}
    (cs : List Char) : Choice.Settled ⟨a, .plural o (some n), bs⟩ cs :=
  fun ho => nomatch ho

/-- A branch that is closed has a new key. -/
theorem Accepts.close {choice : Choice} {k : String} {start : Position} {m : Message}
    {cs : List Char}
    (h : Accepts limit ((s.entered choice k start).withParts m) ('}' :: cs) M) :
    choice.branches.lookup k = none := by
  obtain ⟨p, hp⟩ := h
  rw [read_cons, State.step_close] at hp
  cases hnew : choice.branches.lookup k with
  | none => rfl
  | some n =>
    rw [hnew] at hp
    cases hp

theorem soundBranches {cs : List Char}
    (ih : ∀ cs', cs'.length < cs.length → SoundMessage limit cs' ∧ SoundBranches limit cs') :
    SoundBranches limit cs := by
  intro s choice M hd hasc hsettled h
  rcases h.key with ⟨w, rest, rfl, hw, hne, h⟩ | ⟨key, k, cs₁, start, hk, hs, hlt, h⟩ |
      ⟨ho, w, w', n, lit, rest, rfl, hw, hw', hn, he⟩
  · exact ⟨[], choice.branches, rest, .close hw, hasc, by simp, hne, hd, h⟩
  · have hl₁ := hs.length_lt hk.ne_nil
    simp only [List.length_cons] at hl₁
    obtain ⟨m, rest, hm, hdm, hend, h⟩ := (ih cs₁ (by omega)).1 (s.entered choice k start) M
      (by rw [State.depth_entered]; omega) h
    obtain ⟨cs₂, rfl⟩ := List.head?_eq_some_iff.1 hend
    have hl₂ := hm.length_le
    simp only [List.length_cons] at hl₂
    have hnew := h.close
    have hperm : (insertEntry k m choice.branches).Perm ((k, m) :: choice.branches) :=
      insertEntry_perm (lookup_eq_none_iff_forall_ne.1 hnew)
    have hbranches : insertEntry k m choice.branches ≠ [] := by
      intro h
      rw [h] at hperm
      exact List.cons_ne_nil _ _ hperm.nil_eq.symm
    obtain ⟨given, bs, rest, hg, hbs, hp, hne, hdg, h⟩ := (ih cs₂ (by omega)).2 s
      { choice with branches := insertEntry k m choice.branches } M hd hasc.insertEntry
      (Choice.settled_of_branches hbranches cs₂)
      ((close_leads hnew start m cs₂).accepts h)
    refine ⟨(k, m) :: given, bs, rest, .branch hk hs hm hg, hbs, ?_, hne, ?_, h⟩
    · exact hp.trans ((hperm.append_right given).trans List.perm_middle.symm)
    · rw [Branches.depth]
      rw [State.depth_entered] at hdm
      omega
  · have := hsettled ho n rest (.written hw hw' hn he)
    have := congrArg List.length this
    simp only [List.length_append, List.length_cons] at this
    omega

/-- The branches of an argument, all of them in front of the reader. -/
theorem SoundBranches.choice {cs : List Char} (hb : SoundBranches limit cs) {a : String}
    {selector : Selector} (hd : s.depth ≤ limit) (hsettled : Choice.Settled ⟨a, selector, []⟩ cs)
    (h : Accepts limit (s.become (.between (.key ⟨a, selector, []⟩))) cs M) :
    ∃ given bs rest, ReadsBranches selector.isPlural cs given rest ∧ given ≠ [] ∧ Ascending bs ∧
      bs.Perm given ∧ s.depth + Branches.depth bs ≤ limit ∧
      Accepts limit (s.withPart (Choice.part ⟨a, selector, bs⟩)) rest M := by
  obtain ⟨given, bs, rest, hg, hbs, hp, hne, hdg, h⟩ := hb s ⟨a, selector, []⟩ M hd .nil hsettled h
  rw [List.nil_append] at hp
  refine ⟨given, bs, rest, hg, ?_, hbs, hp, ?_, h⟩
  · intro h
    subst h
    exact hne hp.eq_nil
  · have := Branches.depth_le_of_perm hp (Nat.le_sub_of_add_le' hdg)
    omega

/-- Behind the comma of a plural an offset is read, if one can be. -/
theorem Accepts.offset {a : String} {o : Bool} {cs : List Char}
    (h : Accepts limit (s.become (.between (.key ⟨a, .plural o none, []⟩))) cs M) :
    ∃ offset rest, ReadsOffset cs (offset.getD 0) rest ∧
      Choice.Settled ⟨a, .plural o offset, []⟩ rest ∧
      Accepts limit (s.become (.between (.key ⟨a, .plural o offset, []⟩))) rest M := by
  by_cases hwritten : ∃ n rest, ReadsOffset cs n rest ∧ rest ≠ cs
  · obtain ⟨n, rest, ho, hne⟩ := hwritten
    cases ho with
    | absent => exact absurd rfl hne
    | written hw hw' hl he =>
      refine ⟨some n, rest, .written hw hw' hl he, Choice.settled_of_offset rest, ?_⟩
      exact (offset_leads rfl hw hw' hl he).accepts h
  · refine ⟨none, cs, .absent, fun _ n rest ho => ?_, h⟩
    by_contra hne
    exact hwritten ⟨n, rest, ho, hne⟩

theorem soundArgument {cs : List Char}
    (ih : ∀ cs', cs'.length < cs.length → SoundBranches limit cs') : SoundArgument limit cs := by
  intro s M hd h
  obtain ⟨a, c, cs₁, hs, ha, ⟨rfl, h⟩ | ⟨rfl, h⟩⟩ := h.name
  · exact ⟨.plain a, cs₁, .plain ha hs, hd, h⟩
  have hl₁ := hs.length_lt ha.word.ne_nil
  rcases h.keyword with ⟨word, selector, cs₂, hselector, hs', h⟩ | ⟨t, c, cs₂, ht, hs', hc, h⟩
  · rcases Selector.ofKeyword?_eq_some hselector with ⟨rfl, rfl⟩ | ⟨o, rfl, rfl⟩
    · have hl₂ := hs'.length_lt isWord_selectWord.ne_nil
      simp only [List.length_cons] at hl₁ hl₂
      obtain ⟨given, bs, rest, hg, hne, hbs, hp, hdb, h⟩ :=
        (ih cs₂ (by omega)).choice hd (Choice.settled_of_select cs₂) h
      exact ⟨.select a bs, rest, .select ha hs hs' hg hne hbs hp, hdb, h⟩
    · have hl₂ := hs'.length_lt (isWord_pluralKeyword o).ne_nil
      obtain ⟨offset, cs₃, ho, hsettled, h⟩ := h.offset
      have hl₃ := ho.length_le
      simp only [List.length_cons] at hl₁ hl₂
      obtain ⟨given, bs, rest, hg, hne, hbs, hp, hdb, h⟩ :=
        (ih cs₃ (by omega)).choice hd hsettled h
      exact ⟨.plural a o (offset.getD 0) bs, rest, .plural ha hs hs' ho hg hne hbs hp, hdb, h⟩
  · obtain ⟨style, rest, hstyle, h⟩ := h.style hc
    exact ⟨.simple a t style, rest, .simple ha ht hs hs' hstyle, hd, h⟩

/-- Behind a part the rest of its message is read. -/
theorem SoundMessage.cons {cs cs' : List Char} (hsound : SoundMessage limit cs') (p : Part)
    (hd : s.depth ≤ limit) (hp : s.depth + p.depth ≤ limit)
    (hread : ∀ m rest, ReadsMessage s.isNested s.inPlural cs' m rest →
      ReadsMessage s.isNested s.inPlural cs (p :: m) rest)
    (h : Accepts limit (s.withPart p) cs' M) :
    ∃ m rest, ReadsMessage s.isNested s.inPlural cs m rest ∧ s.depth + Message.depth m ≤ limit ∧
      EndsMessage s.isNested rest ∧ Accepts limit (s.withParts m) rest M := by
  obtain ⟨m, rest, hm, hdm, hend, h⟩ := hsound (s.withPart p) M hd h
  rw [State.withParts_withPart] at h
  exact ⟨p :: m, rest, hread m rest hm, Message.add_depth_cons_le_iff.2 ⟨hp, hdm⟩, hend, h⟩

/-- At the end of a pattern no branch is open. -/
theorem Accepts.endsMessage_nil (h : Accepts limit (s.become (.text "" .plain)) [] M) :
    EndsMessage s.isNested [] := by
  obtain ⟨p, hp⟩ := h
  rw [read_nil, State.finish_text] at hp
  unfold EndsMessage State.isNested
  cases hf : s.frames with
  | nil => rfl
  | cons f outer =>
    rw [hf] at hp
    cases hp

theorem soundMessage {cs : List Char}
    (ih : ∀ cs', cs'.length < cs.length → SoundMessage limit cs' ∧ SoundArgument limit cs') :
    SoundMessage limit cs := by
  intro s M hd h
  by_cases hstops : StopsText s.isNested s.inPlural cs
  · match cs with
    | [] => exact ⟨[], [], .nil, hd, h.endsMessage_nil, h⟩
    | c :: cs =>
      have he := hstops c rfl
      simp only [endsText, Bool.or_eq_true, Bool.and_eq_true, beq_iff_eq] at he
      rcases he with (rfl | ⟨hnested, rfl⟩) | ⟨hplural, rfl⟩
      · obtain ⟨part, cs', ha, hda, h⟩ := (ih cs (by simp)).2 s M hd ((open_leads s cs).accepts h)
        exact (ih cs' ha.length_lt).1.cons part hd hda (fun m rest hm => .argument ha hm) h
      · -- The brace ends the message, which has no part here.
        refine ⟨[], '}' :: cs, .nil, hd, ?_, h⟩
        rw [EndsMessage, hnested]
        rfl
      · refine (ih cs (by simp)).1.cons .marker hd hd ?_ ((marker_leads hplural cs).accepts h)
        intro m rest hm
        rw [hplural] at hm ⊢
        exact .marker hm
  · obtain ⟨t, cs', ht⟩ := exists_readsText s.isNested s.inPlural cs
    have hne := ht.ne_nil hstops
    have hl := ht.length_le
    have hpos := List.length_pos_iff.2 hne
    exact (ih cs' (by omega)).1.cons (.text _) hd hd (fun m rest hm => .text ht hne hm)
      ((text_leads ht hne).accepts h)

/-- **Whatever is accepted is derived**, a message, an argument or branches. -/
theorem sound (limit : Nat) (cs : List Char) :
    SoundMessage limit cs ∧ SoundArgument limit cs ∧ SoundBranches limit cs := by
  induction hn : cs.length using Nat.strongRecOn generalizing cs with
  | ind n ih =>
    subst hn
    have ih : ∀ cs' : List Char, cs'.length < cs.length →
        SoundMessage limit cs' ∧ SoundArgument limit cs' ∧ SoundBranches limit cs' :=
      fun cs' h => ih cs'.length h cs' rfl
    exact ⟨soundMessage fun cs' h => ⟨(ih cs' h).1, (ih cs' h).2.1⟩,
      soundArgument fun cs' h => (ih cs' h).2.2,
      soundBranches fun cs' h => ⟨(ih cs' h).1, (ih cs' h).2.2⟩⟩

/-! ### Whole patterns -/

theorem read_of_parse {limits : Limits} {pattern : String} {m : Message}
    (h : parse limits pattern = .ok m) :
    read limits.maxDepth .start .initial pattern.toList = .ok m := by
  unfold parse at h
  split at h
  next =>
    split at h
    next => cases h
    next => exact h
  next => exact h

/-- What is accepted with nothing in front of it is a whole message. -/
theorem Accepts.readsMessage {cs : List Char} (h : Accepts limit .initial cs M) :
    ReadsMessage false false cs M [] ∧ Message.depth M ≤ limit := by
  have haccepts : Accepts limit (State.initial.become (.text "" .plain)) cs M := h
  obtain ⟨m, rest, hm, hd, hend, q, hq⟩ := (sound limit cs).1 .initial M (Nat.zero_le _) haccepts
  obtain rfl : rest = [] := List.head?_eq_none_iff.1 hend
  have hmessage : (State.initial.withParts m).finish q = .ok m := by
    show Except.ok (m.reverse ++ []).reverse = _
    rw [List.append_nil, List.reverse_reverse]
  obtain rfl : m = M := Except.ok.inj (hmessage.symm.trans hq)
  have hd' : 0 + Message.depth m ≤ limit := hd
  exact ⟨hm, by omega⟩

/-- The message that a pattern is read as is derived from it. -/
theorem readsMessage_of_parse {limits : Limits} {pattern : String} {m : Message}
    (h : parse limits pattern = .ok m) :
    ReadsMessage false false pattern.toList m [] ∧ Message.depth m ≤ limits.maxDepth :=
  Accepts.readsMessage ⟨.start, read_of_parse h⟩

/-- **A pattern is read as a message exactly when the grammar derives the message from
all of it** and no branch of it nests too deep. -/
theorem parse_eq_ok_iff {d : Nat} {pattern : String} {m : Message} :
    parse ⟨d, none⟩ pattern = .ok m ↔
      ReadsMessage false false pattern.toList m [] ∧ Message.depth m ≤ d :=
  ⟨readsMessage_of_parse, fun ⟨h, hd⟩ => parse_of_readsMessage h hd⟩

end MessagePattern.Pattern
