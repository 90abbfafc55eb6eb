import MessagePattern.Proofs.Limit
import MessagePattern.Proofs.Simulation

/-! Reading ends.

Three things are said of the functions of `Descent`, from wherever they are called:
`LeavesSuffix`, that what they leave unread is the end of what was unread, whether they
succeed or fail; `Shortens`, that a call that succeeds has read something; `Advances`, that a
round that does not leave its loop has. A message inside another begins on less than that
(`Within`), so the messages that are open at one time are no more than the characters of the
outermost, and one (`Nested`).

`descent_progresses` puts this together. For the reader that looks at single characters every
step is progress, and what is bounded is the number of branches it holds open. -/
namespace MessagePattern.Pattern.Descent

open Relation

variable {α σ : Type} {limit : Nat}

/-! ### Calls -/

/-- However `x` ends, what it leaves unread is the end of what was unread. -/
def LeavesSuffix (x : Reader α) (t : Trail) : Prop :=
  Ends x t (fun _ u => u.unread <:+ t.unread) fun _ u => u.unread <:+ t.unread

/-- If `x` succeeds, less is left unread. -/
def Shortens (x : Reader α) (t : Trail) : Prop :=
  Ends x t (fun _ u => Shorter t u) fun _ _ => True

/-- If the round does not leave its loop, less is left unread. -/
def Advances (round : Reader (Option σ)) (t : Trail) : Prop :=
  Ends round t (fun next u => next.isSome = true → Shorter t u) fun _ _ => True

section
variable {R : List Cursor → Prop} {scarce : Prop} {x : Reader α} {round : Reader (Option σ)}
  {t : Trail} {done : α → Trail → Prop}

theorem Safe.leavesSuffix (h : Safe R scarce x t done) : LeavesSuffix x t :=
  Ends.mono h (fun _ _ h => h.1.suffix) fun _ _ h => h.1.suffix

theorem Safe.shortens (h : Safe R scarce x t fun _ u => Shorter t u) : Shortens x t :=
  Ends.mono h (fun _ _ h => h.2) fun _ _ _ => trivial

theorem Safe.advances
    (h : Safe R scarce round t fun next u => next.isSome = true → Shorter t u) :
    Advances round t :=
  Ends.mono h (fun _ _ h => h.2) fun _ _ _ => trivial

end

/-- A call inside the message of `l`, with any arguments. -/
inductive Call (l : Scope) : {α : Type} → Reader α → Prop where
  | expect c : Call l (expect c)
  | skipWhiteSpace : Call l skipWhiteSpace
  | identifier : Call l identifier
  | requiredIdentifier : Call l requiredIdentifier
  | sign : Call l sign
  | integer : Call l integer
  | text fuel nested inPlural : Call l (text fuel nested inPlural)
  | style : Call l style
  | simple a keyword start : Call l (simple a keyword start)
  | insertBranch choice key start m : Call l (insertBranch choice key start m)
  | close choice : Call l (close choice)
  | branch inPlural : Call l (branch l inPlural)
  | keyed inPlural choice key start : Call l (keyed l inPlural choice key start)
  | select a : Call l (select l a)
  | plural a ordinal : Call l (plural l a ordinal)
  | kind a : Call l (kind l a)
  | argument : Call l (argument l)
  | message fuel around inPlural : Call l (message l.limit fuel around inPlural)

/-- The rounds of the four loops, with whatever has been read before them. -/
inductive Loop (l : Scope) : {σ : Type} → Reader (Option σ) → Prop where
  | message inPlural parts : Loop l (messageRound l inPlural parts)
  | text nested inPlural y : Loop l (textRound nested inPlural y)
  | select choice : Loop l (selectRound l choice)
  | plural choice : Loop l (pluralRound l choice)

/-- Inside a message, from wherever reading has come in it: no call goes back, arguments and
branches are not empty, and no loop goes round in place. -/
structure Progresses (l : Scope) (t : Trail) : Prop where
  call : ∀ {α : Type} {x : Reader α}, Call l x → LeavesSuffix x t
  argument : Shortens (argument l) t
  branch : ∀ inPlural, Shortens (branch l inPlural) t
  loop : ∀ {σ : Type} {round : Reader (Option σ)}, Loop l round → Advances round t

/-- In a scope of its own a message provides for what is inside it, if no more is asked than
that reading goes on. -/
theorem provides_any (limit fuel : Nat) (around : List Cursor) (start : Cursor) :
    (scope limit fuel around start).Provides (fun _ => True) True :=
  ⟨fun _ => trivial, fun t inPlural _ _ _ =>
    (safe_message limit fuel (start :: around) inPlural t).mono (fun _ _ => trivial)
      (fun _ => trivial) fun _ _ => id⟩

section
variable {l : Scope} {t : Trail}

theorem Call.safe {x : Reader α} (h : Call l x) (hl : l.Provides (fun _ => True) True)
    (ht : l.Covers t) : Safe (fun _ => True) True x t fun _ _ => True := by
  cases h with
  | expect c => exact (safe_expect c).weaken
  | skipWhiteSpace => exact safe_skipWhiteSpace
  | identifier => exact ⟨.skip _ t, trivial⟩
  | requiredIdentifier => exact safe_requiredIdentifier.weaken
  | sign => exact safe_sign
  | integer => exact safe_integer.weaken
  | text fuel nested inPlural => exact safe_text fun _ => trivial
  | style => exact safe_style
  | simple a keyword start => exact safe_simple a keyword start
  | insertBranch choice key start m => exact safe_insertBranch choice key start m
  | close choice => exact safe_close choice
  | branch inPlural => exact (safe_branch hl ht inPlural).weaken
  | keyed inPlural choice key start => exact (safe_keyed hl ht inPlural choice key start).weaken
  | select a => exact safe_choice hl ht (fun choice _ hu => safe_selectRound hl hu choice) _
  | plural a ordinal => exact safe_choice hl ht (fun choice _ hu => safe_pluralRound hl hu choice) _
  | kind a => exact safe_kind hl ht a
  | argument => exact (safe_argument hl ht).weaken
  | message fuel around inPlural =>
    exact (safe_message l.limit fuel around inPlural t).mono (fun _ _ => trivial)
      (fun _ => trivial) fun _ _ => id

theorem Loop.advances {round : Reader (Option σ)} (h : Loop l round)
    (hl : l.Provides (fun _ => True) True) (ht : l.Covers t) : Advances round t := by
  cases h with
  | message inPlural parts => exact (safe_messageRound hl ht inPlural parts).advances
  | text nested inPlural y =>
    have hround : Safe (fun _ => True) True (textRound nested inPlural y) t
        fun next u => next.isSome = true → Shorter t u := safe_textRound y
    exact hround.advances
  | select choice => exact (safe_selectRound hl ht choice).advances
  | plural choice => exact (safe_pluralRound hl ht choice).advances

theorem progresses_of_provides (hl : l.Provides (fun _ => True) True) (ht : l.Covers t) :
    Progresses l t :=
  ⟨fun h => (h.safe hl ht).leavesSuffix, (safe_argument hl ht).shortens,
    fun inPlural => (safe_branch hl ht inPlural).shortens, fun h => h.advances hl ht⟩

end

/-! ### Messages inside messages -/

/-- What begins at `inside` is on less than what begins at `outside`. -/
structure Within (inside outside : Cursor) : Prop where
  suffix : inside.rest <:+ outside.rest
  shorter : inside.rest.length < outside.rest.length

/-- The messages that began at `starts`, the innermost first, are open inside the one that
began at `start` inside those at `around`: each is on less than the next around it, and with
`around` they are no more than the limit. -/
inductive Nested (limit : Nat) (around : List Cursor) (start : Cursor) : List Cursor → Prop where
  | mk (inner) : (inner ++ [start]).IsChain Within → inner.length ≤ limit - around.length →
      Nested limit around start (inner ++ start :: around)

section
variable {around starts starts' : List Cursor} {start : Cursor}

theorem within_skip {k : Nat} (h : (start.skip k).rest.length < start.rest.length) :
    Within (start.skip k) start := by
  refine ⟨?_, h⟩
  rw [Cursor.rest_skip]
  exact List.drop_suffix k _

/-- Another message begins inside the innermost. -/
theorem Nested.opens (h : Nested limit around start starts) (ho : Opens limit starts starts') :
    Nested limit around start starts' := by
  cases h with
  | mk inner hchain hlen =>
    cases inner with
    | nil =>
      cases ho with
      | mk k hlt hdepth =>
        refine .mk [start.skip k] ?_ (Nat.le_sub_of_add_le' hdepth)
        exact .cons_cons (within_skip hlt) hchain
    | cons innermost inner =>
      cases ho with
      | mk k hlt hdepth =>
        refine .mk (innermost.skip k :: innermost :: inner) ?_ ?_
        · exact .cons_cons (within_skip hlt) hchain
        · have hlength : inner.length + (around.length + 1) < limit := by
            simpa using hdepth
          rw [List.length_cons, List.length_cons]
          omega

theorem nested_of_opens (h : ReflTransGen (Opens limit) (start :: around) starts) :
    Nested limit around start starts := by
  induction h with
  | refl => exact .mk [] (.singleton start) (Nat.zero_le _)
  | tail _ hopens ih => exact ih.opens hopens

/-- Of open messages each is on at least a character less than the next. -/
theorem length_lt_of_isChain {inside : Cursor} {between : List Cursor}
    (h : (inside :: between ++ [start]).IsChain Within) :
    inside.rest.length + between.length < start.rest.length := by
  induction between generalizing inside with
  | nil => exact (List.isChain_cons_cons.1 h).1.shorter
  | cons c between ih =>
    obtain ⟨hwithin, hchain⟩ := List.isChain_cons_cons.1 h
    have hlt := hwithin.shorter
    have hle := ih hchain
    rw [List.length_cons]
    omega

/-- Both the limit and what the outermost message is on bound how many are open in it. -/
theorem Nested.length_le (h : Nested limit around start starts) :
    starts.length ≤ min (limit - around.length) start.rest.length + 1 + around.length := by
  cases h with
  | mk inner hchain hlen =>
    have hle : inner.length ≤ start.rest.length := by
      cases inner with
      | nil => exact Nat.zero_le _
      | cons inside between =>
        have hlt := length_lt_of_isChain hchain
        rw [List.length_cons]
        omega
    have hlength : (inner ++ start :: around).length = inner.length + (around.length + 1) := by
      rw [List.length_append, List.length_cons]
    omega

end

/-- Between `t` and `u` messages are begun only inside the one that began at `t`. -/
def Begins (limit : Nat) (around : List Cursor) (t u : Trail) : Prop :=
  ∃ new, u.begun = new ++ t.begun ∧ ∀ starts ∈ new, Nested limit around t.cursor starts

/-- A message ends, given more fuel than characters, and nests what it opens. -/
theorem ends_message (limit fuel : Nat) (around : List Cursor) (inPlural : Bool) (t : Trail) :
    Ends (message limit fuel around inPlural) t (fun _ u => Begins limit around t u)
      fun e u => Begins limit around t u ∧ (e = .exhausted → fuel ≤ t.unread.length) := by
  have hbegins : ∀ u, Moves (ReflTransGen (Opens limit) (t.cursor :: around)) t u →
      Begins limit around t u := by
    intro u hmoves
    obtain ⟨new, hnew, hopens⟩ := hmoves.begun
    exact ⟨new, hnew, fun starts hstarts => nested_of_opens (hopens starts hstarts)⟩
  refine Ends.mono (safe_message limit fuel around inPlural t) ?_ ?_
  · exact fun _ u h => hbegins u h.1
  · exact fun _ u h => ⟨hbegins u h.1, h.2⟩

/-- In the record of a pattern no more messages are open at a time than the limit and the
length of the pattern allow, besides the pattern itself. -/
theorem begins_start {pattern : String} {u : Trail} (h : Begins limit [] (.start pattern) u) :
    ∀ starts ∈ u.begun, starts.length ≤ min limit pattern.toList.length + 1 := by
  obtain ⟨new, hnew, hnested⟩ := h
  intro starts hstarts
  rw [hnew, Trail.start, List.append_nil] at hstarts
  rw [← Trail.unread_start]
  exact (hnested starts hstarts).length_le

/-- The branch of a select is open inside the pattern, which was begun first. -/
example : (match message 1 20 [] false (.start "\x7ba,select,b\x7bx\x7d\x7d") with
    | .ok _ u => u.begun.map List.length
    | .error _ _ => []) = [2, 1] := by
  decide

/-! ### Branches held open -/

/-- The other reader holds open no more branches than its limit allows, and than it has read
characters. -/
theorem depth_le_of_run {cs : List Char} {t : State} (h : run limit .start .initial cs = .ok t) :
    t.depth ≤ min limit cs.length := by
  refine run_induction (motive := fun pre s => s.depth ≤ min limit pre.length) ?_ ?_ h
  · exact Nat.zero_le _
  · intro pre s c t hs hsteps
    rw [List.length_append, List.length_singleton]
    rcases hsteps.depth_le_or with hle | ⟨heq, hlimit⟩
    · omega
    · omega

/-! ### Termination -/

/-- **Reading goes on, and ends.** Under every limit, at every depth, in every context and from
wherever reading has come: no call leaves anything but an end of what it found, no loop goes
round in place, and arguments and branches are not empty. A message begins on less than the
one around it; it ends, given more fuel than there are characters, and no more messages are
open in it at a time than these and the limit allow. So every pattern is read to a result,
that of `parse`, with the limit and its length as bounds of how deep it is read; these are
also the bounds of what the other reader, which takes a step for each character, holds open. -/
theorem descent_progresses (limit : Nat) :
    (∀ fuel around start k begun,
      Progresses (scope limit fuel around start) ⟨start.skip k, begun⟩) ∧
    (∀ fuel around inPlural t, Ends (message limit fuel around inPlural) t
      (fun _ u => Begins limit around t u)
      fun e u => Begins limit around t u ∧ (e = .exhausted → fuel ≤ t.unread.length)) ∧
    (∀ pattern fuel, pattern.toList.length < fuel →
      ∃ u, message limit fuel [] false (.start pattern) = outcome (parse ⟨limit, none⟩ pattern) u ∧
        ∀ starts ∈ u.begun, starts.length ≤ min limit pattern.toList.length + 1) ∧
    ∀ cs s, run limit .start .initial cs = .ok s → s.depth ≤ min limit cs.length := by
  refine ⟨?_, ends_message limit, ?_, fun _ _ => depth_le_of_run⟩
  · intro fuel around start k begun
    exact progresses_of_provides (provides_any limit fuel around start) ⟨k, rfl⟩
  · intro pattern fuel hfuel
    obtain ⟨u, heq⟩ := @message_agrees limit fuel pattern hfuel
    refine ⟨u, heq, begins_start ?_⟩
    obtain ⟨hok, herror⟩ := (ends_message limit fuel [] false (.start pattern)).of_eq_outcome heq
    cases hparse : parse ⟨limit, none⟩ pattern with
    | ok m => exact hok m hparse
    | error e => exact (herror e hparse).1

end MessagePattern.Pattern.Descent
