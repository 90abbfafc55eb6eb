import MessagePattern.Proofs.Transition

/-! Every derivation is followed.

Where the grammar derives a phrase from some characters, reading these characters adds
the value of the phrase to what was read before and goes on with what is left
(`ReadsMessage.leads`), provided that the branches of the phrase nest within the limit.
`parse_of_readsMessage` is the case of a whole pattern. -/
namespace MessagePattern.Pattern

open Lexis Integer

variable {limit : Nat} {s : State}

/-! ### Words and marks -/

/-- Behind a word stands a mark. -/
inductive Delimited : List Char → Prop where
  | comma {rest} : Delimited (',' :: rest)
  | opened {rest} : Delimited ('{' :: rest)
  | closed {rest} : Delimited ('}' :: rest)

theorem Delimited.endsWord {rest : List Char} (h : Delimited rest) : EndsWord rest := by
  cases h <;> exact endsWord_cons (by decide)

theorem Delimited.ne_colon {rest : List Char} (h : Delimited rest) : rest.head? ≠ some ':' := by
  cases h <;> exact fun hc => nomatch hc

theorem Role.endsAt_of_ne_colon {rest : List Char} (h : rest.head? ≠ some ':') (word : String)
    (role : Role) : role.EndsAt word rest := by
  cases role with
  | key choice => exact fun hc => h hc.1
  | _ => trivial

theorem head_blank_append {b rest : List Char} (hb : IsBlank b) (hr : rest.head? ≠ some ':') :
    (b ++ rest).head? ≠ some ':' := by
  cases b with
  | nil => exact hr
  | cons c b =>
    intro hc
    obtain rfl := Option.some.inj hc
    exact absurd (hb ':' List.mem_cons_self) (by decide)

/-- A word with white space around it is judged, and what follows is read behind it. -/
theorem ReadsSpaced.read (limit : Nat) (s : State) {token cs rest : List Char}
    (h : ReadsSpaced token cs rest) (hw : IsWord token) (hd : Delimited rest) {place : Place}
    (hp : place.skipsWhiteSpace = true) {role : Role}
    (hm : ∀ c p, place.wordMode? c p = some (.word c.toString p role)) (p : Position) :
    ∃ pre start, cs = pre ++ rest ∧ Pattern.read limit p (s.become (.between place)) cs =
      (role.complete (String.ofList token) start).bind fun place =>
        Pattern.read limit (p.after pre) (s.become (.between place)) rest := by
  obtain ⟨hb, hb'⟩ := h
  next b b' =>
  refine ⟨b ++ (token ++ b'), p.after b, by simp only [List.append_assoc], ?_⟩
  rw [Position.after_append, Position.after_append]
  have hm' : ∀ c, place.wordMode? c (p.after b) =
      some (.word ("" ++ c.toString) (p.after b) role) := by
    intro c
    rw [hm, String.empty_append]
  rw [read_blank hp hb, read_word hw hm', String.empty_append,
    read_word_end (endsWord_append hb' hd.endsWord)
      (Role.endsAt_of_ne_colon (head_blank_append hb' hd.ne_colon) _ role)]
  cases hcomplete : role.complete (String.ofList token) (p.after b) with
  | error e => rfl
  | ok place' => exact read_blank (Role.skipsWhiteSpace_of_complete hcomplete) hb' _ _

theorem ReadsSpaced.leads {token cs rest : List Char} (h : ReadsSpaced token cs rest)
    (hw : IsWord token) (hd : Delimited rest) {place place' : Place}
    (hp : place.skipsWhiteSpace = true) {role : Role}
    (hm : ∀ c p, place.wordMode? c p = some (.word c.toString p role))
    (hcomplete : ∀ start, role.complete (String.ofList token) start = .ok place') :
    Leads limit (s.become (.between place)) cs (s.become (.between place')) rest := by
  intro p
  obtain ⟨pre, start, heq, hread⟩ := h.read limit s hw hd hp hm p
  rw [hcomplete] at hread
  exact ⟨pre, heq, hread⟩

theorem leads_mark {c : Char} (hi : isIdentifierChar c = false) (hw : isWhiteSpace c = false)
    {place : Place} {t : State}
    (h : ∀ p, (s.become (.between place)).mark limit p c place = .ok t) (rest : List Char) :
    Leads limit (s.become (.between place)) (c :: rest) t rest := by
  intro p
  refine ⟨[c], rfl, ?_⟩
  rw [read_mark hi hw, h]
  rfl

/-! ### Arguments without branches -/

theorem open_leads (s : State) (cs : List Char) :
    Leads limit (s.become (.text "" .plain)) ('{' :: cs) (s.become (.between .opened)) cs := by
  refine leads_cons (fun p => ?_) cs
  rw [State.step_plain]
  rfl

theorem name_leads {a : String} (ha : IsArgumentName a.toList) {cs rest : List Char}
    (h : ReadsSpaced a.toList cs rest) (hd : Delimited rest) :
    Leads limit (s.become (.between .opened)) cs (s.become (.between (.afterArgument a))) rest := by
  refine h.leads ha.word hd rfl (fun _ _ => rfl) (fun start => ?_)
  have hp : isPaddedNumber a ≠ true := fun hp => ha.unpadded (isPaddedNumber_eq_true_iff.1 hp)
  rw [String.ofList_toList, Role.complete, if_neg hp]

/-- The beginning of an argument, up to the comma behind its name. -/
theorem head_leads {a : String} (ha : IsArgumentName a.toList) {cs rest : List Char}
    (h : ReadsSpaced a.toList cs (',' :: rest)) :
    Leads limit (s.become (.text "" .plain)) ('{' :: cs) (s.become (.between (.keyword a)))
      rest :=
  ((open_leads s cs).trans (name_leads ha h .comma)).trans
    (leads_mark (by decide) (by decide) (fun _ => rfl) rest)

theorem type_leads {t : ArgumentType} (ht : t ∈ ArgumentType.spelled) {cs rest : List Char}
    (h : ReadsSpaced t.keyword.toList cs rest) (hd : Delimited rest)
    (a : String) :
    Leads limit (s.become (.between (.keyword a))) cs (s.become (.between (.afterType a t)))
      rest := by
  refine h.leads (isWord_type ht) hd rfl (fun _ _ => rfl) (fun start => ?_)
  rw [String.ofList_toList]
  cases t <;> first | rfl | simp [ArgumentType.spelled] at ht

theorem Selector.ofKeyword?_pluralKeyword (ordinal : Bool) :
    Selector.ofKeyword? (pluralKeyword ordinal) = some (.plural ordinal none) := by
  cases ordinal <;> rfl

theorem selector_leads {word : String} {selector : Selector}
    (hs : Selector.ofKeyword? word = some selector) (hw : IsWord word.toList) {cs rest : List Char}
    (h : ReadsSpaced word.toList cs (',' :: rest)) (a : String) :
    Leads limit (s.become (.between (.keyword a))) cs
      (s.become (.between (.key ⟨a, selector, []⟩))) rest := by
  have hword : Leads limit (s.become (.between (.keyword a))) cs
      (s.become (.between (.afterSelector a selector))) (',' :: rest) := by
    refine h.leads hw .comma rfl (fun _ _ => rfl) (fun start => ?_)
    rw [String.ofList_toList, Role.complete, hs]
  exact hword.trans (leads_mark (by decide) (by decide) (fun _ => rfl) rest)

theorem ReadsStyle.delimited {cs rest : List Char} {style : ArgumentStyle}
    (h : ReadsStyle cs style rest) : Delimited cs := by
  rcases h with _ | ⟨-, -⟩
  · exact .closed
  · exact .comma

theorem ReadsStyle.leads {cs rest : List Char} {style : ArgumentStyle}
    (h : ReadsStyle cs style rest) (a : String) (t : ArgumentType) :
    Leads limit (s.become (.between (.afterType a t))) cs (s.withPart (.simple a t style))
      rest := by
  rcases h with _ | @⟨_, cs, _, hs, h⟩
  · exact leads_mark (by decide) (by decide) (fun _ => rfl) rest
  · have hcomma : Leads limit (s.become (.between (.afterType a t))) (',' :: cs)
        (s.become (.between (.style a t))) cs :=
      leads_mark (by decide) (by decide) (fun _ => rfl) cs
    have hword : Leads limit (s.become (.between (.style a t))) cs
        (s.become (.between (.afterStyle a t style))) ('}' :: rest) := by
      refine h.leads (isWord_style hs) .closed rfl (fun _ _ => rfl) (fun start => ?_)
      rw [String.ofList_toList]
      cases style <;> first | rfl | simp [ArgumentStyle.spelled] at hs
    exact (hcomma.trans hword).trans (leads_mark (by decide) (by decide) (fun _ => rfl) rest)

/-! ### Branches -/

/-- The place behind the key of a branch. -/
theorem ReadsKey.read (limit : Nat) (s : State) {choice : Choice} {key cs rest : List Char}
    {k : String} (hk : ReadsKey choice.selector.isPlural key k)
    (h : ReadsSpaced key cs ('{' :: rest)) (p : Position) :
    ∃ pre start, cs = pre ++ '{' :: rest ∧
      Pattern.read limit p (s.become (.between (.key choice))) cs =
        Pattern.read limit (p.after pre) (s.become (.between (.branch choice k start)))
          ('{' :: rest) := by
  generalize hplural : choice.selector.isPlural = inPlural at hk
  cases hk with
  | word hw =>
    have hm : ∀ c p, (Place.key choice).wordMode? c p = some (.word c.toString p (.key choice)) :=
      fun _ _ => rfl
    exact h.read limit s hw .opened rfl hm p
  | @exact n lit hl =>
    obtain ⟨hb, hb'⟩ := h
    next b b' =>
    have hmark : ∀ p, (s.become (.between (.key choice))).mark limit p '=' (.key choice) =
        .ok (s.become (.between (.exact choice p))) := by
      intro p
      simp [State.mark, hplural]
    have he : EndsWord (b' ++ '{' :: rest) := endsWord_append hb' (endsWord_cons (by decide))
    have hliteral : Leads limit (s.become (.between (.exact choice (p.after b))))
        (lit ++ (b' ++ '{' :: rest)) _ _ := literal_leads hl he choice (.key (p.after b))
    obtain ⟨pre, heq, hp⟩ := hliteral ((p.after b).advance '=')
    obtain rfl := List.append_cancel_right heq
    refine ⟨b ++ '=' :: (lit ++ b'), p.after b, by simp, ?_⟩
    rw [Position.after_append, Position.after_cons, Position.after_append, read_blank rfl hb,
      List.cons_append, read_mark (by decide) (by decide), hmark]
    exact hp.trans (read_blank rfl hb' _ _)

/-- A text is added to the parts. -/
theorem text_leads {cs t rest : List Char} (h : ReadsText s.isNested s.inPlural cs t rest)
    (hne : t ≠ []) :
    Leads limit (s.become (.text "" .plain)) cs (s.withPart (.text (String.ofList t))) rest := by
  have hbuffer : String.ofList t ≠ "" := fun h => hne (String.ofList_eq_empty_iff.1 h)
  have htext : Leads limit (s.become (.text "" .plain)) cs _ rest :=
    (h.leads "").trans (stop_leads h.stops _)
  rw [String.empty_append, State.withText_of_ne hbuffer] at htext
  exact htext

/-- The marker is added to the parts. -/
theorem marker_leads (h : s.inPlural = true) (cs : List Char) :
    Leads limit (s.become (.text "" .plain)) ('#' :: cs) (s.withPart .marker) cs := by
  refine leads_cons (fun p => ?_) cs
  rw [State.step_plain, State.readPlain, if_neg (by decide), h]
  rfl

/-- A branch is closed by a brace. -/
theorem close_leads {choice : Choice} {k : String} (h : choice.branches.lookup k = none)
    (start : Position) (m : Message) (cs : List Char) :
    Leads limit ((s.entered choice k start).withParts m) ('}' :: cs)
      (s.become (.between (.key { choice with branches := insertEntry k m choice.branches })))
      cs := by
  refine leads_cons (fun p => ?_) cs
  rw [State.step_close, h]
  rfl

/-! ### Offsets -/

/-- Behind an offset stands the plural with it. -/
theorem offset_leads {choice : Choice} (ho : choice.takesOffset = true) {w w' lit rest : List Char}
    {n : Int64} (hb : IsBlank w) (hb' : IsBlank w') (hl : IsLiteral n lit) (he : EndsWord rest) :
    Leads limit (s.become (.between (.key choice)))
      (w ++ (offsetWord.toList ++ ':' :: (w' ++ (lit ++ rest))))
      (s.become (.between (.key (choice.withOffset n)))) rest := by
  intro p
  have hm : ∀ c, (Place.key choice).wordMode? c (p.after w) =
      some (.word ("" ++ c.toString) (p.after w) (.key choice)) := by
    intro c
    rw [String.empty_append]
    rfl
  -- The colon turns the word into an offset before it is judged as a key.
  have hcolon : ∀ q, (s.become (.word ("" ++ offsetWord) (p.after w) (.key choice))).step limit q
      ':' = .ok (s.become (.between (.offset choice))) := by
    intro q
    rw [String.empty_append, State.step_word, State.readWord, if_neg (by decide)]
    simp [Role.complete, ho]
  have hliteral : Leads limit (s.become (.between (.offset choice))) (lit ++ rest) _ _ :=
    literal_leads hl he choice .offset
  obtain ⟨pre, heq, hp⟩ :=
    hliteral ((((p.after w).after offsetWord.toList).advance ':').after w')
  obtain rfl := List.append_cancel_right heq
  refine ⟨w ++ (offsetWord.toList ++ ':' :: (w' ++ lit)), by simp only [List.append_assoc,
    List.cons_append], ?_⟩
  rw [Position.after_append, Position.after_append, Position.after_cons, Position.after_append,
    read_blank rfl hb, read_word isWord_offsetWord hm, String.ofList_toList,
    read_cons_of_step (hcolon _), read_blank rfl hb']
  exact hp

/-- Behind an offset, written or not, stands a plural without branches that has it. -/
theorem ReadsOffset.leads {cs rest : List Char} {n : Int64} (h : ReadsOffset cs n rest)
    (a : String) (o : Bool) :
    ∃ offset, offset.getD 0 = n ∧
      Leads limit (s.become (.between (.key ⟨a, .plural o none, []⟩))) cs
        (s.become (.between (.key ⟨a, .plural o offset, []⟩))) rest := by
  cases h with
  | absent => exact ⟨none, rfl, .refl _ _⟩
  | written hb hb' hl he => exact ⟨some n, rfl, offset_leads rfl hb hb' hl he⟩

/-! ### Messages -/

/-- A message is read from `cs` where one of its kind may stand and nest as deep. -/
def LeadsMessage (limit : Nat) (nested inPlural : Bool) (cs : List Char) (m : Message)
    (rest : List Char) : Prop :=
  ∀ s : State, s.isNested = nested → s.inPlural = inPlural →
    s.depth + Message.depth m ≤ limit →
    Leads limit (s.become (.text "" .plain)) cs (s.withParts m) rest

/-- An argument is read from `cs` wherever its branches may nest. -/
def LeadsArgument (limit : Nat) (cs : List Char) (p : Part) (rest : List Char) : Prop :=
  ∀ s : State, s.depth + p.depth ≤ limit →
    Leads limit (s.become (.text "" .plain)) cs (s.withPart p) rest

/-- The branches of an argument, the next of which is read from `cs`: behind them all
stands the argument with the branches it had and these, in key order. -/
def LeadsBranches (limit : Nat) (inPlural : Bool) (cs : List Char) (given : Branches)
    (rest : List Char) : Prop :=
  ∀ (s : State) (choice : Choice) (bs : Branches), choice.selector.isPlural = inPlural →
    Ascending choice.branches → Ascending bs → bs.Perm (choice.branches ++ given) → bs ≠ [] →
    s.depth + Branches.depth given ≤ limit →
    Leads limit (s.become (.between (.key choice))) cs
      (s.withPart { choice with branches := bs }.part) rest

theorem leadsBranches_close {inPlural : Bool} {b rest : List Char} (hb : IsBlank b) :
    LeadsBranches limit inPlural (b ++ '}' :: rest) [] rest := by
  intro s choice bs _ hchoice hbs hperm hne _
  obtain rfl : bs = choice.branches := hbs.eq_of_perm hchoice (by simpa using hperm)
  have hmark : ∀ p, (s.become (.between (.key choice))).mark limit p '}' (.key choice) =
      .ok (s.withPart choice.part) := by
    intro p
    simp [State.mark, hne]
  exact Leads.trans (fun p => ⟨b, rfl, read_blank rfl hb p _⟩)
    (leads_mark (by decide) (by decide) hmark rest)

/-- Behind the key of a branch and its brace the message of the branch is read. -/
theorem ReadsKey.enters {choice : Choice} {key cs cs₁ : List Char} {k : String}
    (hk : ReadsKey choice.selector.isPlural key k) (hs : ReadsSpaced key cs ('{' :: cs₁))
    (hd : s.depth < limit) (p : Position) :
    ∃ pre start, cs = pre ++ '{' :: cs₁ ∧
      Pattern.read limit p (s.become (.between (.key choice))) cs =
        Pattern.read limit (p.after (pre ++ ['{'])) (s.entered choice k start) cs₁ := by
  obtain ⟨pre, start, rfl, hp⟩ := hk.read limit s hs p
  refine ⟨pre, start, rfl, ?_⟩
  rw [hp, read_mark (by decide) (by decide), State.mark, if_pos rfl, State.openBranch_become,
    State.openBranch, if_neg (Nat.not_le.2 hd), Position.after_append]
  rfl

/-- A branch under a new key is added to the others. -/
theorem branch_leads {choice : Choice} {key cs cs₁ cs₂ : List Char} {k : String} {m : Message}
    (hk : ReadsKey choice.selector.isPlural key k) (hs : ReadsSpaced key cs ('{' :: cs₁))
    (hm : LeadsMessage limit true choice.selector.isPlural cs₁ m ('}' :: cs₂))
    (hnew : choice.branches.lookup k = none) (hd : s.depth + (Message.depth m + 1) ≤ limit) :
    Leads limit (s.become (.between (.key choice))) cs
      (s.become (.between (.key { choice with branches := insertEntry k m choice.branches })))
      cs₂ := by
  intro p
  obtain ⟨pre, start, rfl, hp⟩ := hk.enters hs (by omega : s.depth < limit) p
  have hmessage := hm (s.entered choice k start) rfl rfl (by rw [State.depth_entered]; omega)
  obtain ⟨pre', rfl, hp'⟩ :=
    (hmessage.trans (close_leads hnew start m cs₂)) (p.after (pre ++ ['{']))
  refine ⟨pre ++ ['{'] ++ pre', by simp, ?_⟩
  rw [hp, Position.after_append p (pre ++ ['{'])]
  exact hp'

theorem leadsBranches_branch {inPlural : Bool} {key cs cs₁ cs₂ rest : List Char} {k : String}
    {m : Message} {given : Branches} (hk : ReadsKey inPlural key k)
    (hs : ReadsSpaced key cs ('{' :: cs₁))
    (hm : LeadsMessage limit true inPlural cs₁ m ('}' :: cs₂))
    (hg : LeadsBranches limit inPlural cs₂ given rest) :
    LeadsBranches limit inPlural cs ((k, m) :: given) rest := by
  rintro s choice bs rfl hchoice hbs hperm hne hdepth
  rw [Branches.depth] at hdepth
  -- No key of `bs` occurs twice, so that of this branch is new.
  have hnew : ∀ e ∈ choice.branches, e.1 ≠ k := by
    have hpair : (choice.branches ++ (k, m) :: given).Pairwise fun a b => a.1 ≠ b.1 :=
      hperm.pairwise hbs.pairwise_ne fun h => h.symm
    exact fun e he => (List.pairwise_append.1 hpair).2.2 e he (k, m) List.mem_cons_self
  have hbranch : Leads limit (s.become (.between (.key choice))) cs _ cs₂ :=
    branch_leads hk hs hm (lookup_eq_none_iff_forall_ne.2 hnew) (by omega)
  have hrest := hg s { choice with branches := insertEntry k m choice.branches } bs rfl
    hchoice.insertEntry hbs
    (hperm.trans ((List.perm_middle).trans ((insertEntry_perm hnew).symm.append_right given))) hne
    (by omega)
  exact hbranch.trans hrest

/-- A select or plural behind the white space that follows its keyword and comma. -/
theorem choice_leads {inPlural : Bool} {cs rest : List Char} {given bs : Branches}
    (h : LeadsBranches limit inPlural cs given rest) (hne : given ≠ []) (hbs : Ascending bs)
    (hperm : bs.Perm given) {selector : Selector} (hs : selector.isPlural = inPlural) (a : String)
    (hd : s.depth + Branches.depth bs ≤ limit) :
    Leads limit (s.become (.between (.key ⟨a, selector, []⟩))) cs
      (s.withPart (Choice.part ⟨a, selector, bs⟩)) rest := by
  refine h s ⟨a, selector, []⟩ bs hs .nil hbs (by simpa using hperm) ?_ ?_
  · intro h
    subst h
    exact hne hperm.nil_eq.symm
  · have := Branches.depth_le_of_perm hperm.symm (Nat.le_sub_of_add_le' hd)
    omega

/-- **Where the grammar derives a message, the message is read.** -/
theorem ReadsMessage.leads {nested inPlural : Bool} {cs rest : List Char} {m : Message}
    (h : ReadsMessage nested inPlural cs m rest) :
    LeadsMessage limit nested inPlural cs m rest := by
  induction h using ReadsMessage.rec
    (motive_2 := fun cs p rest _ => LeadsArgument limit cs p rest)
    (motive_3 := fun inPlural cs given rest _ => LeadsBranches limit inPlural cs given rest) with
  | nil => exact fun s _ _ _ => .refl _ _
  | text ht hne _ ih =>
    rintro s rfl rfl hd
    rw [Message.add_depth_cons_le_iff] at hd
    rw [← State.withParts_withPart]
    exact (text_leads ht hne).trans (ih (s.withPart _) rfl rfl hd.2)
  | argument _ _ iha ih =>
    intro s hn hp hd
    rw [Message.add_depth_cons_le_iff] at hd
    rw [← State.withParts_withPart]
    exact (iha s hd.1).trans (ih (s.withPart _) hn hp hd.2)
  | marker _ ih =>
    intro s hn hp hd
    rw [Message.add_depth_cons_le_iff] at hd
    rw [← State.withParts_withPart]
    exact (marker_leads hp _).trans (ih (s.withPart _) hn hp hd.2)
  | plain ha hs =>
    intro s _
    exact ((open_leads s _).trans (name_leads ha hs .closed)).trans
      (leads_mark (by decide) (by decide) (fun _ => rfl) _)
  | @simple a t style cs cs₁ cs₂ rest ha ht hs hs' hstyle =>
    intro s _
    have htype : Leads limit (s.become (.between (.keyword a))) cs₁ _ _ :=
      type_leads ht hs' hstyle.delimited a
    exact ((head_leads ha hs).trans htype).trans (hstyle.leads a t)
  | @select a given bs cs cs₁ cs₂ rest ha hs hs' _ hne hasc hperm ih =>
    intro s hd
    have hselector : Leads limit (s.become (.between (.keyword a))) cs₁ _ cs₂ :=
      selector_leads rfl isWord_selectWord hs' a
    exact ((head_leads ha hs).trans hselector).trans (choice_leads ih hne hasc hperm rfl a hd)
  | @plural a o n given bs cs cs₁ cs₂ cs₃ rest ha hs hs' ho _ hne hasc hperm ih =>
    intro s hd
    obtain ⟨offset, rfl, hoffset⟩ := ho.leads a o
    have hselector : Leads limit (s.become (.between (.keyword a))) cs₁ _ cs₂ :=
      selector_leads (Selector.ofKeyword?_pluralKeyword o) (isWord_pluralKeyword o) hs' a
    exact (((head_leads ha hs).trans hselector).trans hoffset).trans
      (choice_leads ih hne hasc hperm rfl a hd)
  | close hb => exact leadsBranches_close hb
  | branch hk hs _ _ ihm ih => exact leadsBranches_branch hk hs ihm ih

theorem ReadsArgument.leads {cs rest : List Char} {p : Part} (h : ReadsArgument cs p rest) :
    LeadsArgument limit cs p rest := by
  intro s hd
  have hm : ReadsMessage s.isNested s.inPlural cs [p] rest := .argument h .nil
  refine hm.leads s rfl rfl ?_
  rwa [Message.depth, Message.depth, Nat.max_zero]

/-- A pattern that the grammar derives as a whole is read, if it nests within the limit. -/
theorem parse_of_readsMessage {d : Nat} {pattern : String} {m : Message}
    (h : ReadsMessage false false pattern.toList m []) (hd : Message.depth m ≤ d) :
    parse ⟨d, none⟩ pattern = .ok m := by
  have hdepth : State.initial.depth + Message.depth m ≤ d := (Nat.zero_add _).symm ▸ hd
  obtain ⟨pre, -, hread⟩ := h.leads State.initial rfl rfl hdepth .start
  have hmessage : (State.initial.withParts m).finish (Position.start.after pre) = .ok m := by
    show Except.ok (m.reverse ++ []).reverse = _
    rw [List.append_nil, List.reverse_reverse]
  exact hread.trans hmessage

end MessagePattern.Pattern
