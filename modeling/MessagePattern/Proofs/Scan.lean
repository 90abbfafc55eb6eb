import MessagePattern.Proofs.Progress
import MessagePattern.Proofs.RoundTrip

/-! Scanning a text.

The reader goes through a text character by character and does not know beforehand where
it stops. `scanText` is what that comes to: the text itself, with its quoting undone, and
what is left unread. It is taken apart three times. To the reader a text is its scan
(`leads_scanText`), in every state. To the grammar it is the phrase that the scan finds
(`readsText_iff`). To the descent it is a loop, and every round of it takes a piece off the
scan (`scanned_textRound`), so that with fuel enough the loop comes to the whole
(`exists_text_eq`).

`scanText_quote`: the scan of what is printed for a text gives the text back, and leaves
what stands behind it as it was. -/
namespace MessagePattern.Pattern

open Lexis

/-! ### The scan -/

variable {limit : Nat} {s : State} {nested inPlural : Bool}

/-- What a character outside of quoted spans makes of the text, `none` where the text stops
in front of it. -/
def scanPlain? (nested inPlural : Bool) (c : Char) (buffer : String) : Option (String × Quoting) :=
  if endsText nested inPlural c then none
  else if c = '\'' then some (buffer, .pending)
  else some (buffer.push c, .plain)

/-- What a character makes of the text. -/
def scanChar? (nested inPlural : Bool) (c : Char) (buffer : String) :
    Quoting → Option (String × Quoting)
  | .plain => scanPlain? nested inPlural c buffer
  | .pending =>
    if c = '\'' then some (buffer.push c, .plain)
    else if needsQuoting inPlural c then some (buffer.push c, .quoted)
    else scanPlain? nested inPlural c (buffer.push '\'')
  | .quoted => if c = '\'' then some (buffer, .closing) else some (buffer.push c, .quoted)
  | .closing =>
    if c = '\'' then some (buffer.push c, .quoted) else scanPlain? nested inPlural c buffer

/-- The text up to where it stops, and what is left. -/
def scanText (nested inPlural : Bool) (buffer : String) (quoting : Quoting) :
    List Char → String × List Char
  | [] => (State.finalText buffer quoting, [])
  | c :: rest =>
    match scanChar? nested inPlural c buffer quoting with
    | some (buffer, quoting) => scanText nested inPlural buffer quoting rest
    | none => (buffer, c :: rest)

section
variable {c : Char} {buffer : String}

theorem scanPlain?_char (hc : c ≠ '\'') (he : endsText nested inPlural c = false) :
    scanPlain? nested inPlural c buffer = some (buffer.push c, .plain) := by
  rw [scanPlain?, he, if_neg hc]
  rfl

theorem scanPlain?_stop (he : endsText nested inPlural c = true) :
    scanPlain? nested inPlural c buffer = none := if_pos he

theorem scanPlain?_apostrophe :
    scanPlain? nested inPlural '\'' buffer = some (buffer, .pending) := by
  rw [scanPlain?, endsText_apostrophe]
  rfl

theorem scanChar?_plain :
    scanChar? nested inPlural c buffer .plain = scanPlain? nested inPlural c buffer := rfl

theorem scanChar?_quoted (hc : c ≠ '\'') :
    scanChar? nested inPlural c buffer .quoted = some (buffer.push c, .quoted) := if_neg hc

theorem scanChar?_closing (hc : c ≠ '\'') :
    scanChar? nested inPlural c buffer .closing = scanPlain? nested inPlural c buffer := if_neg hc

/-- An apostrophe that stands for itself does so in front of more text. -/
theorem scanChar?_pending (hc : c ≠ '\'') (hq : needsQuoting inPlural c = false) :
    scanChar? nested inPlural c buffer .pending = some ((buffer.push '\'').push c, .plain) := by
  rw [← scanPlain?_char hc (endsText_eq_false hq nested)]
  unfold scanChar?
  rw [if_neg hc, hq]
  rfl

theorem scanChar?_pending_quoted (hq : needsQuoting inPlural c = true) :
    scanChar? nested inPlural c buffer .pending = some (buffer.push c, .quoted) := by
  unfold scanChar?
  rw [if_neg (ne_apostrophe_of_needsQuoting hq), if_pos hq]

theorem scanText_of_some {buffer' : String} {quoting quoting' : Quoting}
    (h : scanChar? nested inPlural c buffer quoting = some (buffer', quoting'))
    (rest : List Char) :
    scanText nested inPlural buffer quoting (c :: rest) =
      scanText nested inPlural buffer' quoting' rest := by
  rw [scanText, h]

theorem scanText_of_none {quoting : Quoting}
    (h : scanChar? nested inPlural c buffer quoting = none) (rest : List Char) :
    scanText nested inPlural buffer quoting (c :: rest) = (buffer, c :: rest) := by
  rw [scanText, h]

end

/-! ### The scan and the reader -/

/-- The reader does outside of quoted spans what the scan does, and where the scan stops what it
does in front of an empty text. -/
theorem readPlain_eq (s : State) (c : Char) (buffer : String) :
    s.readPlain c buffer =
      match scanPlain? s.isNested s.inPlural c buffer with
      | some (buffer, quoting) => .ok (s.become (.text buffer quoting))
      | none => (s.withText buffer).readPlain c "" := by
  by_cases hc : c = '\''
  · subst hc
    rw [scanPlain?_apostrophe]
    rfl
  cases he : endsText s.isNested s.inPlural c with
  | true => rw [scanPlain?_stop he, State.readPlain_stop he]
  | false => rw [scanPlain?_char hc he, State.readPlain_char hc he]

theorem step_text_eq (limit : Nat) (p : Position) (s : State) (c : Char) (buffer : String)
    (quoting : Quoting) :
    (s.become (.text buffer quoting)).step limit p c =
      match scanChar? s.isNested s.inPlural c buffer quoting with
      | some (buffer, quoting) => .ok (s.become (.text buffer quoting))
      | none => ((s.withText buffer).become (.text "" .plain)).step limit p c := by
  rw [State.step_plain]
  cases quoting with
  | plain =>
    rw [State.step_plain]
    exact readPlain_eq s c buffer
  | pending =>
    by_cases hc : c = '\''
    · subst hc
      rfl
    cases hq : needsQuoting s.inPlural c with
    | true =>
      rw [scanChar?_pending_quoted hq, State.step_text, State.readText, if_neg hc,
        State.inPlural_become, if_pos hq]
      rfl
    | false =>
      rw [scanChar?_pending hc hq, State.step_pending hc hq,
        State.readPlain_char hc (endsText_eq_false hq s.isNested)]
  | quoted =>
    by_cases hc : c = '\''
    · subst hc
      rfl
    · rw [State.step_quoted hc, scanChar?_quoted hc]
  | closing =>
    by_cases hc : c = '\''
    · subst hc
      rfl
    · rw [State.step_closing hc, scanChar?_closing hc]
      exact readPlain_eq s c buffer

/-- **A text is read as it is scanned**: reading it comes to reading what is left behind it,
with the text as a part. -/
theorem leads_scanText (s : State) (buffer : String) (quoting : Quoting) (cs : List Char) :
    Leads limit (s.become (.text buffer quoting)) cs
      ((s.withText (scanText s.isNested s.inPlural buffer quoting cs).1).become (.text "" .plain))
      (scanText s.isNested s.inPlural buffer quoting cs).2 := by
  induction cs generalizing buffer quoting with
  | nil =>
    intro p
    refine ⟨[], rfl, ?_⟩
    rw [scanText, read_nil, read_nil, State.finish_text, State.finish_text, State.frames_withText]
    rfl
  | cons c cs ih =>
    cases h : scanChar? s.isNested s.inPlural c buffer quoting with
    | some next =>
      obtain ⟨buffer', quoting'⟩ := next
      have hstep : ∀ p, (s.become (.text buffer quoting)).step limit p c =
          .ok (s.become (.text buffer' quoting')) := by
        intro p
        rw [step_text_eq, h]
      rw [scanText_of_some h]
      exact (leads_cons hstep cs).trans (ih buffer' quoting')
    | none =>
      rw [scanText_of_none h]
      intro p
      refine ⟨[], rfl, ?_⟩
      rw [read_cons, read_cons, step_text_eq, h]
      rfl

/-! ### The scan and the grammar -/

theorem scanText_closing {rest : List Char} (h : rest.head? ≠ some '\'') (buffer : String) :
    scanText nested inPlural buffer .closing rest =
      scanText nested inPlural buffer .plain rest := by
  cases rest with
  | nil => rfl
  | cons c rest =>
    have hc : c ≠ '\'' := fun hc => h (congrArg some hc)
    rw [scanText, scanText, scanChar?_closing hc, scanChar?]

theorem scanText_pending {rest : List Char}
    (h : ∀ c ∈ rest.head?, c ≠ '\'' ∧ needsQuoting inPlural c = false) (buffer : String) :
    scanText nested inPlural buffer .pending rest =
      scanText nested inPlural (buffer.push '\'') .plain rest := by
  cases rest with
  | nil => rfl
  | cons c rest =>
    obtain ⟨hc, hq⟩ := h c rfl
    rw [scanText_of_some (scanChar?_pending hc hq), scanText_of_some]
    exact scanPlain?_char hc (endsText_eq_false hq nested)

theorem scanText_pending_quoted {rest : List Char}
    (h : ∃ c ∈ rest.head?, needsQuoting inPlural c = true) (buffer : String) :
    scanText nested inPlural buffer .pending rest =
      scanText nested inPlural buffer .quoted rest := by
  obtain ⟨c, hc, hq⟩ := h
  obtain ⟨rest, rfl⟩ := List.head?_eq_some_iff.1 (Option.mem_def.1 hc)
  rw [scanText_of_some (scanChar?_pending_quoted hq),
    scanText_of_some (scanChar?_quoted (ne_apostrophe_of_needsQuoting hq))]

theorem ReadsSpan.scanText_eq {cs t rest : List Char} (h : ReadsSpan cs t rest)
    (buffer : String) :
    scanText nested inPlural buffer .quoted cs =
      scanText nested inPlural (buffer ++ String.ofList t) .plain rest := by
  induction h generalizing buffer with
  | unclosed =>
    rw [String.ofList_nil, String.append_empty]
    rfl
  | close h =>
    rw [String.ofList_nil, String.append_empty, ← scanText_closing h]
    rfl
  | doubled _ ih =>
    rw [← push_append_ofList, ← ih]
    rfl
  | @char c cs t rest hc _ ih =>
    rw [← push_append_ofList, ← ih]
    exact scanText_of_some (scanChar?_quoted hc) cs

/-- The scan finds what the grammar derives, behind any text read before. -/
theorem ReadsText.scanText_eq {cs t rest : List Char} (h : ReadsText nested inPlural cs t rest)
    (buffer : String) :
    scanText nested inPlural buffer .plain cs = (buffer ++ String.ofList t, rest) := by
  have hopen : ∀ (buffer : String) (cs : List Char),
      scanText nested inPlural buffer .plain ('\'' :: cs) =
        scanText nested inPlural buffer .pending cs :=
    fun _ cs => scanText_of_some (scanChar?_plain.trans scanPlain?_apostrophe) cs
  induction h generalizing buffer with
  | @stop rest hstops =>
    rw [String.ofList_nil, String.append_empty]
    cases rest with
    | nil => rfl
    | cons c rest =>
      exact scanText_of_none (scanChar?_plain.trans (scanPlain?_stop (hstops c rfl))) rest
  | @char c cs t rest hc he _ ih =>
    rw [← push_append_ofList, ← ih]
    exact scanText_of_some (scanChar?_plain.trans (scanPlain?_char hc he)) cs
  | doubled _ ih =>
    rw [← push_append_ofList, ← ih, hopen]
    rfl
  | lone hlone _ ih => rw [← push_append_ofList, ← ih, hopen, scanText_pending hlone]
  | quoted hq hspan _ ih =>
    rw [hopen, scanText_pending_quoted hq, hspan.scanText_eq, ih, String.ofList_append,
      String.append_assoc]

/-- **The scan finds the text that the grammar derives**, and stops where that stops. -/
theorem readsText_iff {cs t rest : List Char} :
    ReadsText nested inPlural cs t rest ↔
      scanText nested inPlural "" .plain cs = (String.ofList t, rest) := by
  apply Iff.intro
  · intro h
    rw [h.scanText_eq, String.empty_append]
  · intro h
    obtain ⟨t', rest', hread⟩ := exists_readsText nested inPlural cs
    rw [hread.scanText_eq, String.empty_append, Prod.mk.injEq, String.ofList_inj] at h
    obtain ⟨rfl, rfl⟩ := h
    exact hread

/-! ### The scan and the descent -/

namespace Descent

section
variable {t : Trail}

/-- What scanning comes to, given what the rounds before have read. -/
def scanned (nested inPlural : Bool) (y : String × Bool) (t : Trail) : String × List Char :=
  scanText nested inPlural y.1 (if y.2 then .quoted else .plain) t.unread

/-- What is scanned behind a round, given what was read in front of it. -/
def scannedBehind (nested inPlural : Bool) (y : String × Bool) (u : Trail) :
    Option (String × Bool) → String × List Char
  | some z => scanned nested inPlural z u
  | none => (y.1, u.unread)

theorem scanned_of_peek_none (hc : t.cursor.peek = none) (y : String × Bool) :
    scanned nested inPlural y t = (y.1, t.unread) := by
  rw [scanned, unread_of_peek_none hc]
  cases y.2 <;> rfl

theorem scanned_quoted {c : Char} (hc : t.cursor.peek = some c) (text : String) :
    Ends (textRound nested inPlural (text, true)) t
      (fun next u => scanned nested inPlural (text, true) t =
        scannedBehind nested inPlural (text, true) u next) fun e _ => e = .exhausted := by
  have hunread := unread_of_peek_some hc
  refine .peek_bind ?_
  rw [hc]
  refine .decode_bind ?_
  split
  next heq =>
    subst heq
    refine .peek_bind ?_
    split
    next hd =>
      refine .decode_bind (.pure ?_)
      rw [scanned, hunread, unread_of_peek_some hd]
      rfl
    next hd =>
      refine .pure ?_
      rw [Trail.peek_eq] at hd
      rw [scanned, hunread]
      exact scanText_closing hd text
  next hne =>
    refine .pure ?_
    rw [scanned, hunread]
    exact scanText_of_some (scanChar?_quoted hne) _

/-- What an apostrophe outside quoted spans means is told by the character behind it. -/
theorem scanned_apostrophe (hc : t.cursor.peek = some '\'') (text : String) :
    Ends (textRound nested inPlural (text, false)) t
      (fun next u => scanned nested inPlural (text, false) t =
        scannedBehind nested inPlural (text, false) u next) fun e _ => e = .exhausted := by
  have hpending : scanned nested inPlural (text, false) t =
      scanText nested inPlural text .pending (t.skip 1).unread := by
    rw [scanned, unread_of_peek_some hc]
    exact scanText_of_some (scanChar?_plain.trans scanPlain?_apostrophe) _
  rw [hpending]
  refine .peek_bind ?_
  rw [hc]
  dsimp only
  rw [if_neg (by rw [endsText_apostrophe]; decide), if_pos rfl]
  refine .decode_bind (.peek_bind ?_)
  cases hd : (t.skip 1).cursor.peek with
  | none =>
    refine .pure (scanText_pending ?_ text)
    rw [unread_of_peek_none hd]
    exact nofun
  | some d =>
    have hhead : (t.skip 1).unread.head? = some d := (Trail.peek_eq _).symm.trans hd
    dsimp only
    split
    next heq =>
      subst heq
      refine .decode_bind (.pure ?_)
      rw [unread_of_peek_some hd]
      rfl
    next hne =>
      split
      next hq => exact .pure (scanText_pending_quoted ⟨d, hhead, hq⟩ text)
      next hq =>
        refine .pure (scanText_pending (fun x hx => ?_) text)
        obtain rfl := Option.some.inj (hhead.symm.trans hx)
        exact ⟨hne, by simpa using hq⟩

theorem scanned_plain {c : Char} (hc : t.cursor.peek = some c) (hne : c ≠ '\'')
    (text : String) : Ends (textRound nested inPlural (text, false)) t
      (fun next u => scanned nested inPlural (text, false) t =
        scannedBehind nested inPlural (text, false) u next) fun e _ => e = .exhausted := by
  have hunread := unread_of_peek_some hc
  refine .peek_bind ?_
  rw [hc]
  dsimp only
  split
  next he =>
    refine .pure ?_
    show scanText _ _ text .plain t.unread = (text, t.unread)
    rw [hunread]
    exact scanText_of_none (scanChar?_plain.trans (scanPlain?_stop he)) _
  next he =>
    refine .decode_bind (.pure ?_)
    rw [scanned, hunread]
    exact scanText_of_some (scanChar?_plain.trans (scanPlain?_char hne (by simpa using he))) _

theorem scanned_textRound (y : String × Bool) :
    Ends (textRound nested inPlural y) t
      (fun next u => scanned nested inPlural y t = scannedBehind nested inPlural y u next)
      fun e _ => e = .exhausted := by
  obtain ⟨text, quoted⟩ := y
  cases hc : t.cursor.peek with
  | none =>
    have hend := @scanned_of_peek_none nested inPlural t hc
    cases quoted with
    | true =>
      refine .peek_bind ?_
      rw [hc]
      exact .pure (hend (text, true))
    | false =>
      refine .peek_bind ?_
      rw [hc]
      exact .pure (hend (text, false))
  | some c =>
    cases quoted with
    | true => exact scanned_quoted hc text
    | false =>
      by_cases heq : c = '\''
      · subst heq
        exact scanned_apostrophe hc text
      · exact scanned_plain hc heq text

/-- **The loop over a text is its scan**, and does not fail but for want of fuel. -/
theorem scanned_text (fuel : Nat) : Ends (text fuel nested inPlural) t
    (fun text u => scanText nested inPlural "" .plain t.unread = (text, u.unread))
    fun e _ => e = .exhausted := by
  have hloop : Ends (iterate (textRound nested inPlural) fuel ("", false)) t
      (fun y u => scanned nested inPlural ("", false) t = (y.1, u.unread))
      fun e _ => e = .exhausted := by
    refine Ends.iterate
      (fun _ y u => scanned nested inPlural ("", false) t = scanned nested inPlural y u) ?_ ?_ rfl
    · intro fuel y u heq
      refine Ends.mono (scanned_textRound y) ?_ fun _ _ => id
      intro next v hnext
      cases next with
      | none => exact heq.trans hnext
      | some z => exact heq.trans hnext
    · exact fun _ _ _ => rfl
  exact .bind (Ends.mono hloop (fun _ _ heq => heq) fun _ _ => id)

/-- With more fuel than there are characters a text is read to where its scan stops. -/
theorem exists_text_eq {fuel : Nat} (hfuel : t.unread.length < fuel) :
    ∃ text u, Descent.text fuel nested inPlural t = outcome (.ok text) u ∧
      scanText nested inPlural "" .plain t.unread = (text, u.unread) ∧
      Moves (fun _ => False) t u := by
  have hsafe : Safe (fun _ => False) (fuel ≤ t.unread.length) (Descent.text fuel nested inPlural) t
      fun _ _ => True := safe_text id
  have hends := (@scanned_text nested inPlural t fuel).and hsafe
  obtain ⟨e, u, heq⟩ := hends.exists_outcome fun u h => Nat.not_le.2 hfuel (h.2.2 rfl)
  obtain ⟨hok, herror⟩ := hends.of_eq_outcome heq
  cases e with
  | ok text =>
    obtain ⟨hscan, hmoves, -⟩ := hok text rfl
    exact ⟨text, u, heq, hscan, hmoves⟩
  | error e => exact absurd (herror e rfl).1 nofun

end

end Descent

/-! ### What is printed -/

/-- **Scanning undoes quoting.** From what is printed for a text in front of anything a text
stops at, the scan gets the text, and leaves what stands behind. So does the descent, from
everywhere, and the reader, in every state that is as nested. -/
theorem scanText_quote {nested inPlural : Bool} {rest : List Char}
    (hstops : StopsText nested inPlural rest) (text : String) :
    scanText nested inPlural "" .plain (quote inPlural false text.toList ++ rest) = (text, rest) ∧
      (∀ (fuel : Nat) (t : Descent.Trail),
        t.unread = quote inPlural false text.toList ++ rest → t.unread.length < fuel →
          ∃ u, Descent.text fuel nested inPlural t = Descent.outcome (.ok text) u ∧
            u.unread = rest ∧
            u.position = t.position.after (quote inPlural false text.toList)) ∧
      ∀ (limit : Nat) (s : State) (p : Position), s.isNested = nested → s.inPlural = inPlural →
        read limit p (s.become (.text "" .plain)) (quote inPlural false text.toList ++ rest) =
          read limit (p.after (quote inPlural false text.toList))
            ((s.withText text).become (.text "" .plain)) rest := by
  have hscan : scanText nested inPlural "" .plain (quote inPlural false text.toList ++ rest) =
      (text, rest) := by
    rw [readsText_iff.1 (reads_quote hstops text.toList).1, String.ofList_toList]
  refine ⟨hscan, fun fuel t ht hfuel => ?_, fun limit s p hnested hplural => ?_⟩
  · obtain ⟨text', u, heq, hscan', hmoves⟩ :=
      @Descent.exists_text_eq nested inPlural t fuel hfuel
    rw [ht, hscan, Prod.mk.injEq] at hscan'
    obtain ⟨rfl, rfl⟩ := hscan'
    exact ⟨u, heq, rfl, hmoves.position_eq ht⟩
  · subst hnested hplural
    obtain ⟨pre, hpre, hread⟩ :=
      @leads_scanText limit s "" .plain (quote s.inPlural false text.toList ++ rest) p
    rw [hscan] at hpre hread
    obtain rfl := List.append_cancel_right hpre
    exact hread

theorem scanText_quote_brace :
    scanText true true "" .plain
          (quote true false "it's '\x7b#\x7d'".toList ++ "#\x7d '\x7b".toList) =
        ("it's '\x7b#\x7d'", "#\x7d '\x7b".toList) ∧
      (∃ u, Descent.text 32 true true (.start "it''s '''\x7b#\x7d'''#\x7d '\x7b") =
          Descent.outcome (.ok "it's '\x7b#\x7d'") u ∧
        u.unread = "#\x7d '\x7b".toList) ∧
      read 3 .start ((State.initial.entered ⟨"n", .plural false none, []⟩ "one" .start).become
          (.text "" .plain)) (quote true false "".toList ++ "\x7b".toList) =
        read 3 .start ((State.initial.entered ⟨"n", .plural false none, []⟩ "one" .start).become
          (.text "" .plain)) "\x7b".toList := by
  have hmark : StopsText true true "#\x7d '\x7b".toList := by
    intro c hc
    cases hc
    rfl
  have hbrace : StopsText true true "\x7b".toList := by
    intro c hc
    cases hc
    rfl
  have hunread : (Descent.Trail.start "it''s '''\x7b#\x7d'''#\x7d '\x7b").unread =
      quote true false "it's '\x7b#\x7d'".toList ++ "#\x7d '\x7b".toList := by
    rw [Descent.Trail.unread_start]
    decide
  have hlength : (Descent.Trail.start "it''s '''\x7b#\x7d'''#\x7d '\x7b").unread.length < 32 := by
    rw [hunread]
    decide
  obtain ⟨u, htext, hrest, -⟩ := (scanText_quote hmark _).2.1 32 _ hunread hlength
  exact ⟨(scanText_quote hmark _).1, ⟨u, htext, hrest⟩,
    (scanText_quote hbrace "").2.2 3 _ .start rfl rfl⟩

end MessagePattern.Pattern
