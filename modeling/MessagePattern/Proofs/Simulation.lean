import MessagePattern.Proofs.Following
import MessagePattern.Proofs.Scan

/-! The two ways of reading agree.

What is followed of tokens is followed of all that is made of them: a branch, from a state that
is one deeper (`Scope.Followed`), the loops over branches, and an argument. A text is followed
because its loop is its scan (`scanned_text`), and a message by induction on the fuel.

`message_agrees`: on every pattern the descent ends, given more fuel than there are
characters, and gives what `parse` gives. -/
namespace MessagePattern.Pattern.Descent

open Lexis

variable {limit : Nat}

/-! ### Inside a message -/

/-- The messages inside a message are followed, from the states that are one branch deeper. -/
def Scope.Followed (l : Scope) : Prop :=
  ∀ (inPlural : Bool) (s : State) (t : Trail), s.depth = l.depth + 1 → s.inPlural = inPlural →
    Follows l.limit (.ok (s.become (.text "" .plain))) (l.nested (l.start :: l.around) inPlural)
      t (fun m => .ok (s.withParts m)) fun _ u => u.cursor.peek = some '}'

section
variable {l : Scope} {s : State} {t : Trail} {choice : Choice} {inPlural : Bool}

theorem follows_branch (h : l.Followed) (hd : s.depth = l.depth)
    (hp : choice.selector.isPlural = inPlural) {key : String} {start : Position}
    (ht : Settled (.branch choice key start) t) :
    Follows l.limit (.ok (s.become (.between (.branch choice key start)))) (branch l inPlural) t
      (fun m => inserted s choice key start m) fun _ _ => True := by
  have hstep := @step_between_mark l.limit s (.branch choice key start) '{' (by decide)
    (by decide) t.position
  refine .peek_bind ?_
  split
  next hc =>
    split
    next hlimit =>
      refine .position_bind (.refuse ?_)
      have hdeep : (s.become (.between (.branch choice key start))).step l.limit t.position
          '{' = .error (.tooDeep l.limit t.position) := by
        rw [hstep, State.mark, if_pos rfl, State.openBranch_become, State.openBranch, hd,
          if_pos hlimit]
      rw [resume_peek hc, hdeep]
      rfl
    next hlimit =>
      refine .decode_bind hc ?_
      have henter : (s.become (.between (.branch choice key start))).step l.limit t.position
          '{' = .ok (s.entered choice key start) := by
        rw [hstep, State.mark, if_pos rfl, State.openBranch_become, State.openBranch, hd,
          if_neg hlimit]
        rfl
      rw [henter]
      have hnested := h inPlural (s.entered choice key start) (t.skip 1)
        (by rw [State.depth_entered, hd]) hp
      refine hnested.bind fun m u hclose => ?_
      have hexpect : Follows l.limit (.ok ((s.entered choice key start).withParts m))
          (expect '}') u (fun _ => inserted s choice key start m) fun _ _ => True := by
        refine .peek_bind ?_
        rw [if_pos hclose]
        refine ⟨?_, trivial⟩
        rw [resume_peek hclose, State.step_close]
        rfl
      exact hexpect.bind fun _ _ _ => .pure trivial rfl
  next hc =>
    refine .unexpected (resume_between_fault ht (fun _ _ _ => rfl) fun c hpeek => ?_)
    rw [State.mark, if_neg fun h => hc (by rw [hpeek, h])]

theorem follows_keyed (h : l.Followed) (hd : s.depth = l.depth)
    (hp : choice.selector.isPlural = inPlural) (key : String) (start : Position) :
    Follows l.limit (.ok (s.become (.between (.branch choice key start))))
      (keyed l inPlural choice key start) t
      (fun next => .ok (s.become (.between (.key (next.getD choice)))))
      fun next _ => ∃ choice', next = some choice' ∧ choice'.selector = choice.selector := by
  refine (follows_skipWhiteSpace _ rfl).bind fun _ u hu => ?_
  refine (follows_branch h hd hp hu).bind fun m v _ => ?_
  exact follows_insertBranch.bind fun choice' w hselector => .pure ⟨choice', rfl, hselector⟩ rfl

/-- Before a key, behind white space, stands a brace, a word or an integer, or a fault. -/
theorem follows_key (ht : Settled (.key choice) t) (hclose : t.cursor.peek ≠ some '}')
    (hexact : choice.selector.isPlural = true → t.cursor.peek ≠ some '=') :
    Follows limit (.ok (s.become (.between (.key choice)))) requiredIdentifier t
      (fun word => .ok (s.become (.word word t.position (.key choice))))
      fun _ u => EndsWord u.unread := by
  refine follows_word _ (fun _ => rfl) ht fun c hc => ?_
  have hbrace : c ≠ '}' := fun h => hclose (by rw [hc, h])
  have hequals : (c = '=' && choice.selector.isPlural) = false := by
    cases hp : choice.selector.isPlural with
    | false => exact Bool.and_false _
    | true =>
      have hne : c ≠ '=' := fun h => hexact hp (by rw [hc, h])
      simpa using hne
  rw [State.mark, hequals, decide_eq_false hbrace]
  rfl

/-- The state in front of a branch, given the choice so far. -/
def atKey (s : State) (choice : Choice) : Except ParseError State :=
  .ok (s.become (.between (.key choice)))

theorem followsRounds_select (h : l.Followed) (hd : s.depth = l.depth) :
    FollowsRounds l.limit (atKey s) (fun choice => choice.selector = .select) (selectRound l)
      fun u => u.cursor.peek = some '}' := by
  intro choice t hselect
  have hp : choice.selector.isPlural = false := by rw [hselect]; rfl
  refine (follows_skipWhiteSpace _ rfl).bind fun _ u hu => .peek_bind ?_
  split
  next hc => exact .pure hc rfl
  next hc =>
    refine .position_bind ?_
    refine (follows_key hu hc fun h => absurd h (by rw [hp]; decide)).bind fun key v he => ?_
    have hends : (Role.key choice).EndsAt key v.unread := by
      have htakes : choice.takesOffset = false := by rw [Choice.takesOffset, hselect]
      rw [Role.EndsAt, htakes]
      exact fun h => Bool.false_ne_true h.2.2
    refine .of_eq ?_ (resume_word he hends)
    refine (follows_keyed h hd hp key u.position).imp ?_
    rintro _ w ⟨choice', rfl, hselector⟩
    exact hselector.trans hselect

theorem followsRounds_plural (h : l.Followed) (hd : s.depth = l.depth) :
    FollowsRounds l.limit (atKey s) (fun choice => choice.selector.isPlural = true)
      (pluralRound l) fun u => u.cursor.peek = some '}' := by
  intro choice t hp
  have hkeyed : ∀ (key : String) (start : Position) (t : Trail),
      Follows l.limit (.ok (s.become (.between (.branch choice key start))))
        (keyed l true choice key start) t
        (fun next => atKey s (next.getD choice))
        (Round (fun choice => choice.selector.isPlural = true)
          fun u => u.cursor.peek = some '}') := by
    intro key start t
    refine (follows_keyed h hd hp key start).imp ?_
    rintro _ w ⟨choice', rfl, hselector⟩
    show choice'.selector.isPlural = true
    rw [hselector, hp]
  refine (follows_skipWhiteSpace _ rfl).bind fun _ u hu => .position_bind (.peek_bind ?_)
  split
  next hc => exact .pure hc rfl
  next hclose =>
    split
    next hc =>
      refine .decode_bind hc ?_
      have hstep : (s.become (.between (.key choice))).step l.limit u.position '=' =
          .ok (s.become (.between ((Use.key u.position).place choice))) := by
        rw [step_between_mark (by decide) (by decide), State.mark, hp]
        rfl
      rw [hstep]
      exact (follows_integer fun _ _ => Bool.and_false _).bind fun n v _ => hkeyed _ _ v
    next hexact =>
      refine (follows_key hu hclose fun _ => hexact).bind fun word v he => .peek_bind ?_
      split
      next hoffset =>
        simp only [Bool.and_eq_true, decide_eq_true_eq] at hoffset
        obtain ⟨⟨hc, rfl⟩, htakes⟩ := hoffset
        refine .decode_bind hc ?_
        have hstep : (s.become (.word offsetWord u.position (.key choice))).step l.limit
            v.position ':' = .ok (s.become (.between (Use.offset.place choice))) := by
          rw [State.step_word, State.readWord, if_neg (by decide)]
          simp only [Role.complete, htakes]
          rfl
        rw [hstep]
        refine (follows_skipWhiteSpace _ rfl).bind fun _ w hw => ?_
        refine (follows_integer hw).bind fun n x _ => .pure ?_ rfl
        show (choice.withOffset n).selector.isPlural = true
        unfold Choice.withOffset
        split
        next => exact hp
        next => rfl
      next hoffset =>
        have hends : (Role.key choice).EndsAt word v.unread := by
          rintro ⟨hc, hword, htakes⟩
          rw [Trail.peek_eq, hc, hword, htakes] at hoffset
          exact absurd rfl hoffset
        exact .of_eq (hkeyed word u.position v) (resume_word he hends)

/-- A selector, its comma, and the branches up to the brace behind them. -/
theorem follows_selector {a : String} {selector : Selector} {kept : Choice → Prop}
    {round : Choice → Reader (Option Choice)}
    (hround : FollowsRounds l.limit (atKey s) kept round fun u => u.cursor.peek = some '}')
    (hkept : kept ⟨a, selector, []⟩) (ht : Settled (.afterSelector a selector) t) :
    Follows l.limit (.ok (s.become (.between (.afterSelector a selector))))
      (expect ',' >>= fun _ => iterate round l.fuel ⟨a, selector, []⟩ >>= close) t
      (fun part => .ok (s.withPart part)) fun _ _ => True := by
  have hcomma : Follows l.limit (.ok (s.become (.between (.afterSelector a selector))))
      (expect ',') t (fun _ => atKey s ⟨a, selector, []⟩) fun _ _ => True := by
    refine follows_expect (fun _ => ?_) fun hc => ?_
    · rw [step_between_mark (by decide) (by decide)]
      rfl
    · refine resume_between_fault ht (fun _ _ _ => rfl) fun c hpeek => ?_
      rw [State.mark, if_neg fun h => hc (by rw [hpeek, h])]
  refine hcomma.bind fun _ u _ => ?_
  exact (hround.iterate l.fuel hkept).bind fun choice v hclose => follows_close hclose

theorem follows_kind (h : l.Followed) (hd : s.depth = l.depth) (a : String) :
    Follows l.limit (.ok (s.become (.between (.keyword a)))) (kind l a) t
      (fun part => .ok (s.withPart part)) fun _ _ => True := by
  refine (follows_skipWhiteSpace _ rfl).bind fun _ u hu => .position_bind ?_
  refine (follows_word (.keyword a) (fun _ => rfl) hu fun _ _ => rfl).bind fun keyword v he => ?_
  refine .of_eq ?_ (resume_word he trivial)
  by_cases hselect : keyword = selectWord
  · subst hselect
    refine (follows_skipWhiteSpace (.afterSelector a .select) rfl).bind fun _ w hw => ?_
    rw [if_pos rfl]
    exact follows_selector (followsRounds_select h hd) rfl hw
  by_cases hplural : keyword = pluralWord
  · subst hplural
    refine (follows_skipWhiteSpace (.afterSelector a (.plural false none)) rfl).bind
      fun _ w hw => ?_
    rw [if_neg (by decide), if_pos rfl]
    exact follows_selector (followsRounds_plural h hd) rfl hw
  by_cases hordinal : keyword = ordinalWord
  · subst hordinal
    refine (follows_skipWhiteSpace (.afterSelector a (.plural true none)) rfl).bind
      fun _ w hw => ?_
    rw [if_neg (by decide), if_neg (by decide), if_pos rfl]
    exact follows_selector (followsRounds_plural h hd) rfl hw
  have hnone : Selector.ofKeyword? keyword = none := by
    rw [Selector.ofKeyword?, if_neg hselect, if_neg hplural, if_neg hordinal]
  simp only [Role.complete, hnone, if_neg hselect, if_neg hplural, if_neg hordinal]
  by_cases htype : ArgumentType.ofKeyword keyword = .invalid
  · rw [if_pos htype]
    -- The white space is behind a word that the reader has refused already.
    have hskip : ∀ e, Follows l.limit (.error e) skipWhiteSpace v (fun _ => .error e)
        fun _ _ => True := fun e => ⟨rfl, trivial⟩
    refine (hskip _).bind fun _ w _ => ?_
    rw [simple, if_pos htype]
    exact .refuse rfl
  · rw [if_neg htype]
    refine (follows_skipWhiteSpace (.afterType a (.ofKeyword keyword)) rfl).bind fun _ w hw => ?_
    exact follows_simple htype hw

/-- An argument, from the state in front of its brace. -/
theorem follows_argument (h : l.Followed) (hd : s.depth = l.depth)
    (hc : t.cursor.peek = some '{') :
    Follows l.limit (.ok (s.become (.text "" .plain))) (argument l) t
      (fun part => .ok (s.withPart part)) fun _ _ => True := by
  have hopen : Follows l.limit (.ok (s.become (.text "" .plain))) (expect '{') t
      (fun _ => .ok (s.become (.between .opened))) fun _ _ => True :=
    follows_expect (fun _ => rfl) fun h => absurd hc h
  refine hopen.bind fun _ u _ => ?_
  refine (follows_skipWhiteSpace _ rfl).bind fun _ v hv => .position_bind ?_
  refine (follows_word .argument (fun _ => rfl) hv fun _ _ => rfl).bind fun a w he => ?_
  refine .of_eq ?_ (resume_word he trivial)
  by_cases hpadded : isPaddedNumber a = true
  · rw [if_pos hpadded, Role.complete, if_pos hpadded]
    exact .refuse rfl
  rw [if_neg hpadded, Role.complete, if_neg hpadded]
  refine (follows_skipWhiteSpace (.afterArgument a) rfl).bind fun _ x hx => .peek_bind ?_
  split
  next hclose =>
    refine .decode_bind hclose ?_
    rw [step_between_mark (by decide) (by decide)]
    exact .pure trivial rfl
  next hclose =>
    split
    next hcomma =>
      refine .decode_bind hcomma ?_
      rw [step_between_mark (by decide) (by decide)]
      exact follows_kind h hd a
    next hcomma =>
      refine .unexpected (resume_between_fault hx (fun _ _ _ => rfl) fun c hpeek => ?_)
      rw [hpeek] at hclose hcomma
      rw [State.mark, if_neg fun h => hclose (congrArg some h),
        if_neg fun h => hcomma (congrArg some h)]

end

/-! ### Text -/

/-- A text in front of which the reader stands, unless it is empty. -/
theorem follows_text {s : State} {t : Trail} {c : Char} (hc : t.cursor.peek = some c)
    (he : endsText s.isNested s.inPlural c = false) (fuel : Nat) :
    Follows limit (.ok (s.become (.text "" .plain))) (text fuel s.isNested s.inPlural) t
      (fun text => .ok (s.withPart (.text text))) fun _ _ => True := by
  have hsafe : Safe (fun _ => True) True (text fuel s.isNested s.inPlural) t fun _ _ => True :=
    safe_text fun _ => trivial
  refine Ends.mono ((scanned_text fuel).and hsafe) ?_ ?_
  · rintro text u ⟨hscan, hmoves, -⟩
    refine ⟨?_, trivial⟩
    obtain ⟨front, hfront, hread⟩ := @leads_scanText limit s "" .plain t.unread t.position
    rw [hscan] at hfront hread
    have hreads := readsText_iff.2 (hscan.trans (by rw [String.ofList_toList]))
    have hne : text ≠ "" := by
      intro hempty
      refine hreads.ne_nil (fun hstops => ?_) (by rw [hempty]; rfl)
      rw [hstops c ((Trail.peek_eq t).symm.trans hc)] at he
      cases he
    rw [State.withText_of_ne hne, ← hmoves.position_eq hfront] at hread
    exact hread
  · rintro e u ⟨rfl, -⟩ e' he'
    cases he'

/-! ### Messages -/

/-- The state behind parts, given newest first. -/
def behindParts (s : State) (parts : List Part) : Except ParseError State :=
  .ok (s.withParts parts.reverse)

theorem behindParts_cons (s : State) (part : Part) (parts : List Part) :
    behindParts s (part :: parts) = .ok ((s.withParts parts.reverse).withPart part) := by
  simp [behindParts, State.withParts, State.withPart]

section
variable {l : Scope} {s : State} {inPlural : Bool}

theorem isNested_eq (hd : s.depth = l.depth) : s.isNested = decide (l.depth ≠ 0) := by
  rw [← hd, State.isNested, State.depth]
  cases s.frames <;> rfl

/-- The end of the pattern is at fault in a branch. -/
theorem resume_end {t : Trail} (hs : s.depth ≠ 0) (hc : t.cursor.peek = none) :
    resume l.limit (.ok (s.become (.text "" .plain))) t = .error t.fault := by
  obtain ⟨f, outer, hframes⟩ : ∃ f outer, s.frames = f :: outer :=
    List.exists_cons_of_ne_nil fun hnil => hs (congrArg List.length hnil)
  show read l.limit t.position _ t.unread = _
  rw [unread_of_peek_none hc, read_nil, Trail.fault, hc, State.become, hframes]
  rfl

theorem step_marker (hs : s.inPlural = true) (p : Position) :
    (s.become (.text "" .plain)).step limit p '#' = .ok (s.withPart .marker) := by
  rw [State.step_plain, State.readPlain, if_neg (by decide), hs]
  rfl

theorem followsRounds_message (h : l.Followed) (hd : s.depth = l.depth)
    (hp : s.inPlural = inPlural) :
    FollowsRounds l.limit (behindParts s) (fun _ => True) (messageRound l inPlural)
      fun u => EndsMessage s.isNested u.unread := by
  intro parts t _
  have hnested := isNested_eq hd
  -- Behind its parts the reader is as deep as before, and in front of a text.
  have hd' : (s.withParts parts.reverse).depth = l.depth := hd
  have hp' : (s.withParts parts.reverse).inPlural = inPlural := hp
  have hn' : (s.withParts parts.reverse).isNested = decide (l.depth ≠ 0) := hnested
  refine .peek_bind ?_
  cases hc : t.cursor.peek with
  | none =>
    dsimp only
    split
    next hzero =>
      refine .pure ?_ rfl
      show t.unread.head? = if s.isNested then some '}' else none
      rw [hnested, hzero]
      exact (Trail.peek_eq t).symm.trans hc
    next hdeep =>
      rw [← hd'] at hdeep
      exact .unexpected (resume_end hdeep hc)
  | some c =>
    dsimp only
    split
    next hopen =>
      subst hopen
      refine (follows_argument h hd' hc).bind fun part u _ => .pure trivial ?_
      rw [Option.getD_some, behindParts_cons]
    next hopen =>
      split
      next hclose =>
        simp only [Bool.and_eq_true, decide_eq_true_eq] at hclose
        refine .pure ?_ rfl
        show t.unread.head? = if s.isNested then some '}' else none
        rw [hnested, decide_eq_true hclose.2, ← hclose.1]
        exact (Trail.peek_eq t).symm.trans hc
      next hclose =>
        split
        next hmark =>
          simp only [Bool.and_eq_true, decide_eq_true_eq] at hmark
          obtain ⟨rfl, hplural⟩ := hmark
          refine .decode_bind hc (.pure trivial ?_)
          rw [Option.getD_some, behindParts_cons]
          exact congrArg (resume l.limit · (t.skip 1)) (step_marker (hp'.trans hplural) t.position)
        next hmark =>
          have he : endsText (s.withParts parts.reverse).isNested
              (s.withParts parts.reverse).inPlural c = false := by
            rw [hn', hp']
            exact endsText_eq_false_of_ne hopen hclose hmark
          rw [← hn', ← hp']
          refine (follows_text hc he l.fuel).bind fun text u _ => .pure trivial ?_
          rw [Option.getD_some, behindParts_cons]

/-- **A message is followed** from every state that is as deep, in front of a text, up to the
brace that closes its branch or to the end. -/
theorem follows_message (limit fuel : Nat) (around : List Cursor) {s : State}
    (hd : s.depth = around.length) (hp : s.inPlural = inPlural) (t : Trail) :
    Follows limit (.ok (s.become (.text "" .plain))) (message limit fuel around inPlural) t
      (fun m => .ok (s.withParts m)) fun _ u => EndsMessage s.isNested u.unread := by
  induction fuel generalizing around inPlural s t with
  | zero => nofun
  | succ fuel ih =>
    have hbegin : Follows limit (.ok (s.become (.text "" .plain))) (begin around) t
        (fun _ => behindParts s []) fun start _ => start = t.cursor := ⟨rfl, rfl⟩
    refine hbegin.bind fun start u hstart => ?_
    have hfollowed : (scope limit fuel around start).Followed := by
      intro inPlural s t hd hp
      refine (ih (start :: around) hd hp t).imp fun m v hends => ?_
      rw [isNested_eq (l := scope limit fuel (start :: around) start) hd] at hends
      exact (Trail.peek_eq v).trans hends
    have hrounds := followsRounds_message hfollowed hd hp
    exact (hrounds.iterate (fuel + 1) trivial).bind fun parts v hends => .pure hends rfl

end

/-! ### Patterns -/

/-- **The two ways of reading agree.** Given more fuel than a pattern has characters, the
descent does not run out of it, and gives the message or the error that `parse` gives. -/
theorem message_agrees {limit fuel : Nat} {pattern : String} (h : pattern.toList.length < fuel) :
    ∃ u, message limit fuel [] false (.start pattern) =
      outcome (parse ⟨limit, none⟩ pattern) u := by
  have hparse : parse ⟨limit, none⟩ pattern =
      resume limit (.ok (State.initial.become (.text "" .plain))) (.start pattern) := by
    show read limit .start .initial pattern.toList =
      read limit .start .initial (Trail.start _).unread
    rw [Trail.unread_start]
  have hfollows : Follows limit (.ok (State.initial.become (.text "" .plain)))
      (message limit fuel [] false) (.start pattern) (fun m => .ok (State.initial.withParts m))
      fun _ u => EndsMessage false u.unread := follows_message limit fuel [] rfl rfl _
  have hends := hfollows.and (safe_message limit fuel [] false (.start pattern))
  rw [← Trail.unread_start] at h
  obtain ⟨e, u, heq⟩ := hends.exists_outcome fun u hfailed =>
    absurd (hfailed.2.2 rfl) (Nat.not_le_of_lt h)
  obtain ⟨hok, herror⟩ := hends.of_eq_outcome heq
  refine ⟨u, heq.trans (congrArg (outcome · u) ?_)⟩
  rw [hparse]
  cases e with
  | ok m =>
    obtain ⟨⟨hresume, hend⟩, -⟩ := hok m rfl
    have hnil : u.unread = [] := List.head?_eq_none_iff.1 hend
    have hfinish : resume limit (.ok (State.initial.withParts m)) u = .ok m := by
      show read limit u.position _ u.unread = _
      rw [hnil, read_nil]
      simp [State.withParts, State.finish, State.initial, State.message, State.finalText]
    rw [hresume, hfinish]
  | error e => exact ((herror e rfl).1 e rfl).symm

end MessagePattern.Pattern.Descent
