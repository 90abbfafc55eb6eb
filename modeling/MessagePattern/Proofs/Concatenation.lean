import MessagePattern.Proofs.Blame
import MessagePattern.Proofs.Relocation
import MessagePattern.Proofs.Soundness

/-! Patterns one behind the other.

A pattern that ends outside of quoted spans (`endsInSpan_iff`), and not with an apostrophe,
leaves the reader inside a plain text of the outermost message (`exists_run_of_parse`). What
is read next goes on with this text up to where it stops (`exists_read_text`), and from there
on is read as it would be alone, only at other positions and with other parts below its own
(`read_relocate`). So the messages of the two patterns are joined, with the texts that touch
made one (`parse_append`). -/
namespace MessagePattern

/-! ### Messages one behind the other -/

/-- The text that was read into `buffer`; an empty one is no part. -/
def Message.ofBuffer (buffer : String) : Message :=
  if buffer.isEmpty then [] else [.text buffer]

/-- The parts of `m` and then those of `n`, but two texts that touch are one. -/
def Message.join (m n : Message) : Message :=
  match m.getLast?, n with
  | some (.text a), .text b :: rest => m.dropLast ++ .text (a ++ b) :: rest
  | _, _ => m ++ n

namespace Message

@[simp] theorem ofBuffer_empty : ofBuffer "" = [] := rfl

theorem ofBuffer_of_ne {buffer : String} (h : buffer ≠ "") : ofBuffer buffer = [.text buffer] :=
  if_neg (by simpa using h)

theorem ofBuffer_inj {a b : String} (h : ofBuffer a = ofBuffer b) : a = b := by
  by_cases ha : a = ""
  · by_cases hb : b = ""
    · rw [ha, hb]
    · rw [ha, ofBuffer_of_ne hb] at h
      cases h
  · by_cases hb : b = ""
    · rw [hb, ofBuffer_of_ne ha] at h
      cases h
    · rw [ofBuffer_of_ne ha, ofBuffer_of_ne hb] at h
      cases h
      rfl

theorem reverse_ofBuffer (buffer : String) : (ofBuffer buffer).reverse = ofBuffer buffer := by
  unfold ofBuffer
  split <;> rfl

theorem join_of_left {m : Message} (h : ∀ p ∈ m.getLast?, p.isText = false) (n : Message) :
    m.join n = m ++ n := by
  unfold join
  split
  next a _ _ hm => exact nomatch h _ hm
  next => rfl

theorem join_of_right {n : Message} (h : ∀ p ∈ n.head?, p.isText = false) (m : Message) :
    m.join n = m ++ n := by
  unfold join
  split
  next b _ _ => exact nomatch h (.text b) rfl
  next => rfl

theorem join_text (m : Message) (a b : String) (n : Message) :
    join (m ++ [.text a]) (.text b :: n) = m ++ .text (a ++ b) :: n := by
  simp [join]

/-- Where two messages meet in a text it may be cut anywhere. -/
theorem join_ofBuffer {m n : Message} (hm : ∀ p ∈ m.getLast?, p.isText = false)
    (hn : ∀ p ∈ n.head?, p.isText = false) (a b : String) :
    join (m ++ ofBuffer a) (ofBuffer b ++ n) = m ++ (ofBuffer (a ++ b) ++ n) := by
  by_cases ha : a = ""
  · subst ha
    rw [ofBuffer_empty, List.append_nil, String.empty_append, join_of_left hm]
  by_cases hb : b = ""
  · subst hb
    rw [ofBuffer_empty, List.nil_append, String.append_empty, join_of_right hn, List.append_assoc]
  have hab : a ++ b ≠ "" := by simp [ha]
  rw [ofBuffer_of_ne ha, ofBuffer_of_ne hb, ofBuffer_of_ne hab]
  exact join_text m a b n

end Message

namespace Pattern

open Lexis

variable {limit : Nat} {p : Position} {c : Char} {s t : State}

/-! ### How a pattern ends -/

/-- The pattern ends inside a quoted span. -/
def EndsInSpan (limit : Nat) (pattern : String) : Prop :=
  ∃ s buffer, run limit .start .initial pattern.toList = .ok s ∧ s.mode = .text buffer .quoted

/-- What stands in front of a text is another kind of part. -/
def State.Divided (s : State) : Prop :=
  ∀ buffer quoting, s.mode = .text buffer quoting → ∀ r ∈ s.parts.head?, r.isText = false

theorem divided_initial : State.initial.Divided := fun _ _ _ _ h => nomatch h

theorem Place.isText_of_part? {place : Place} {r : Part} (h : place.part? = some r) :
    r.isText = false := by
  cases place with
  | afterArgument a =>
    cases h
    rfl
  | afterType a type =>
    cases h
    rfl
  | afterStyle a type style =>
    cases h
    rfl
  | key choice =>
    simp only [Place.part?] at h
    split at h
    next => cases h
    next =>
      cases h
      unfold Choice.part
      split <;> rfl
  | _ => cases h

/-- **Every character keeps texts apart.** -/
theorem State.Steps.divided (hs : s.Divided) (h : s.Steps limit p c (.ok t)) : t.Divided := by
  intro buffer quoting hmode r hr
  cases h with
  | text _ _ htext => exact hs _ _ htext r hr
  | opened => cases hmode
  | marker =>
    cases hr
    rfl
  | closed => cases hmode
  | continued => cases hmode
  | offset => cases hmode
  | @begun place _ _ _ hbegun => cases place <;> cases hbegun <;> cases hmode
  | skipped => cases hmode
  | moved => cases hmode
  | ended _ _ hpart =>
    cases hr
    exact Place.isText_of_part? hpart
  | entered => cases hr

theorem divided_of_run {cs : List Char} (h : run limit .start .initial cs = .ok t) : t.Divided :=
  run_induction (motive := fun _ s => s.Divided) divided_initial (fun hs h => h.divided hs) h

/-- Apart from an apostrophe, no character outside of quoted spans leaves the meaning of
another open. -/
theorem State.readPlain_quoting {buffer buffer' : String} {quoting : Quoting} (hc : c ≠ '\'')
    (h : s.readPlain c buffer = .ok t) (hmode : t.mode = .text buffer' quoting) :
    quoting = .plain := by
  unfold readPlain at h
  split at h
  next =>
    cases h
    cases hmode
  next =>
    split at h
    next =>
      cases h
      cases hmode
      rfl
    next =>
      split at h
      next =>
        cases h
        cases hmode
        rfl
      next =>
        split at h
        next =>
          unfold closeBranch at h
          split at h
          next => cases h
          next =>
            cases h
            cases hmode
        next =>
          cases h
          cases hmode
          rfl

theorem State.readText_quoting {buffer buffer' : String} {quoting quoting' : Quoting}
    (hc : c ≠ '\'') (h : s.readText c buffer quoting = .ok t)
    (hmode : t.mode = .text buffer' quoting') : quoting' = .plain ∨ quoting' = .quoted := by
  cases quoting with
  | plain => exact .inl (readPlain_quoting hc h hmode)
  | pending =>
    rw [readText, if_neg hc] at h
    split at h
    next =>
      cases h
      cases hmode
      exact .inr rfl
    next => exact .inl (readPlain_quoting hc h hmode)
  | quoted =>
    rw [readText, if_neg hc] at h
    cases h
    cases hmode
    exact .inr rfl
  | closing =>
    rw [readText, if_neg hc] at h
    exact .inl (readPlain_quoting hc h hmode)

theorem State.step_quoting {buffer : String} {quoting : Quoting} (hc : c ≠ '\'')
    (h : s.step limit p c = .ok t) (hmode : t.mode = .text buffer quoting) :
    quoting = .plain ∨ quoting = .quoted := by
  have hsteps := s.steps limit p c
  rw [h] at hsteps
  cases hsteps with
  | text _ _ htext =>
    rw [step, htext] at h
    exact readText_quoting hc h hmode
  | opened => cases hmode
  | marker =>
    cases hmode
    exact .inl rfl
  | closed => cases hmode
  | continued => cases hmode
  | offset => cases hmode
  | @begun place _ _ _ hbegun => cases place <;> cases hbegun <;> cases hmode
  | skipped => cases hmode
  | moved => cases hmode
  | ended =>
    cases hmode
    exact .inl rfl
  | entered =>
    cases hmode
    exact .inl rfl

theorem quoting_of_run {cs : List Char} {buffer : String} {quoting : Quoting}
    (hlast : cs.getLast? ≠ some '\'') (h : run limit p .initial cs = .ok t)
    (hmode : t.mode = .text buffer quoting) : quoting = .plain ∨ quoting = .quoted := by
  rcases cs.eq_nil_or_concat with rfl | ⟨init, c, rfl⟩
  · cases h
    cases hmode
    exact .inl rfl
  rw [List.concat_eq_append] at h hlast
  obtain ⟨u, -, hstep⟩ := exists_step_of_run h
  refine State.step_quoting (fun hc => hlast ?_) hstep hmode
  rw [List.getLast?_concat, hc]

theorem withText_eq (s : State) (buffer : String) :
    s.withText buffer = { s with parts := Message.ofBuffer buffer ++ s.parts } := by
  unfold State.withText Message.ofBuffer
  split <;> rfl

theorem message_withText (s : State) (buffer : String) :
    (s.withText buffer).message = s.message ++ Message.ofBuffer buffer := by
  rw [withText_eq, State.message, State.message, List.reverse_append, Message.reverse_ofBuffer]

/-- A pattern may end in a text of the outermost message and nowhere else. -/
theorem State.finish_eq_ok {m : Message} (h : s.finish p = .ok m) :
    ∃ buffer quoting, s.frames = [] ∧ s.mode = .text buffer quoting ∧
      m = s.message ++ Message.ofBuffer (finalText buffer quoting) := by
  unfold finish at h
  split at h
  next buffer quoting hmode =>
    split at h
    next hframes =>
      rw [message_withText] at h
      cases h
      exact ⟨buffer, quoting, hframes, hmode, rfl⟩
    next => cases h
  next => split at h <;> cases h
  next => cases h

/-- Behind a pattern the reader is inside a text. -/
theorem exists_run_of_parse {d : Nat} {pattern : String} {m : Message}
    (h : parse ⟨d, none⟩ pattern = .ok m) (hlast : pattern.toList.getLast? ≠ some '\'')
    (hspan : ¬ EndsInSpan d pattern) :
    ∃ parts buffer, run d .start .initial pattern.toList = .ok ⟨[], parts, .text buffer .plain⟩ ∧
      m = parts.reverse ++ Message.ofBuffer buffer ∧ ∀ r ∈ parts.head?, r.isText = false := by
  have hread : read d .start .initial pattern.toList = .ok m := read_of_parse h
  unfold read at hread
  split at hread
  next => cases hread
  next t hrun =>
    obtain ⟨buffer, quoting, hframes, hmode, rfl⟩ := State.finish_eq_ok hread
    have hdivided := divided_of_run hrun buffer quoting hmode
    rcases quoting_of_run hlast hrun hmode with rfl | rfl
    · refine ⟨t.parts, buffer, ?_, rfl, hdivided⟩
      rw [hrun, ← hframes, ← hmode]
    · exact absurd ⟨t, buffer, hrun, hmode⟩ hspan

/-- An apostrophe behind a pattern closes the span that is open there, and is text where none
is. -/
theorem endsInSpan_iff {d : Nat} {pattern : String} {m : Message}
    (h : parse ⟨d, none⟩ pattern = .ok m) (hlast : pattern.toList.getLast? ≠ some '\'') :
    EndsInSpan d pattern ↔ parse ⟨d, none⟩ (pattern ++ "'") = .ok m := by
  have hparse : parse ⟨d, none⟩ (pattern ++ "'") = (run d .start .initial pattern.toList).bind
      fun t => read d (Position.start.after pattern.toList) t ['\''] := by
    show read d .start .initial (pattern ++ "'").toList = _
    rw [String.toList_append, read_append]
    rfl
  apply Iff.intro
  · rintro ⟨t, buffer, hrun, hmode⟩
    have hread : read d .start .initial pattern.toList = .ok m := read_of_parse h
    rw [read, hrun] at hread
    obtain ⟨buffer', quoting, hframes, hmode', rfl⟩ := State.finish_eq_ok hread
    obtain ⟨frames, parts, mode⟩ := t
    dsimp only at hframes hmode hmode'
    subst hframes hmode
    cases hmode'
    rw [hparse, hrun]
    exact congrArg Except.ok (message_withText _ buffer)
  · intro happend
    by_contra hspan
    obtain ⟨parts, buffer, hrun, rfl, -⟩ := exists_run_of_parse h hlast hspan
    have hpending : parse ⟨d, none⟩ (pattern ++ "'") =
        .ok (parts.reverse ++ Message.ofBuffer (buffer.push '\'')) := by
      rw [hparse, hrun]
      exact congrArg Except.ok (message_withText _ _)
    have hbuffer := List.append_cancel_left (Except.ok.inj (hpending.symm.trans happend))
    have hlength := congrArg String.length (Message.ofBuffer_inj hbuffer)
    rw [String.length_push] at hlength
    omega

/-! ### What is read behind a text -/

/-- In front of any characters stands a text, which goes on with the one before. -/
theorem exists_read_text (limit : Nat) (cs : List Char) :
    ∃ pre t rest, cs = pre ++ rest ∧ StopsText false false rest ∧ ∀ p parts buffer,
      read limit p ⟨[], parts, .text buffer .plain⟩ cs =
        read limit (p.after pre) ⟨[], Message.ofBuffer (buffer ++ t) ++ parts, .text "" .plain⟩
          rest := by
  obtain ⟨t, rest, ht⟩ := exists_readsText false false cs
  have hleads : ∀ parts buffer, Leads limit ⟨[], parts, .text buffer .plain⟩ cs
      ⟨[], Message.ofBuffer (buffer ++ String.ofList t) ++ parts, .text "" .plain⟩ rest := by
    intro parts buffer
    have hbegin : Leads limit ⟨[], parts, .text buffer .plain⟩ cs _ rest :=
      ReadsText.leads (s := ⟨[], parts, .text "" .plain⟩) ht buffer
    have hstop := hbegin.trans (stop_leads (s := ⟨[], parts, .text "" .plain⟩) ht.stops _)
    rw [withText_eq] at hstop
    exact hstop
  obtain ⟨pre, rfl, -⟩ := hleads [] "" .start
  refine ⟨pre, String.ofList t, rest, rfl, ht.stops, fun p parts buffer => ?_⟩
  obtain ⟨pre', heq, hread⟩ := hleads parts buffer p
  obtain rfl := List.append_cancel_right heq
  exact hread

/-- What is read behind parts and a text is what is read alone, joined to them, and what is
refused there is refused with the same error elsewhere. -/
theorem read_behind {d : Nat} {q : Position} {parts : List Part} {buffer : String}
    (hparts : ∀ r ∈ parts.head?, r.isText = false) {f : Position → Position}
    (hf : ∀ cs, f (Position.start.after cs) = q.after cs) (cs : List Char) :
    read d q ⟨[], parts, .text buffer .plain⟩ cs =
      relocateError f (Message.join (parts.reverse ++ Message.ofBuffer buffer))
        (read d .start .initial cs) := by
  obtain ⟨pre, t, rest, rfl, hstops, hread⟩ := exists_read_text d cs
  -- Where the text stops the readers differ by what `read_relocate` allows for.
  have hbelow : ∀ {q' : Position} {below : List Part} {g : Position → Position},
      (∀ cs, g (Position.start.after cs) = q'.after cs) →
      read d (q'.after pre) ⟨[], below, .text "" .plain⟩ rest =
        relocateError g (below.reverse ++ ·)
          (read d (Position.start.after pre) .initial rest) := by
    intro q' below g hg
    rw [← hg pre]
    refine read_relocate d .initial fun cs => ?_
    rw [hg pre, ← Position.after_append, hg, Position.after_append]
  have halone : read d .start .initial (pre ++ rest) =
      relocateError id (Message.ofBuffer t ++ ·)
        (read d (Position.start.after pre) .initial rest) := by
    show read d .start ⟨[], [], .text "" .plain⟩ (pre ++ rest) = _
    rw [hread, hbelow (g := id) fun _ => rfl, String.empty_append, List.append_nil,
      Message.reverse_ofBuffer]
  rw [hread, hbelow hf, halone]
  cases hbase : read d (Position.start.after pre) .initial rest with
  | error e =>
    show Except.error _ = Except.error ((e.relocate id).relocate f)
    rw [ParseError.relocate_id]
  | ok n =>
    have hhead : ∀ r ∈ n.head?, r.isText = false :=
      (Accepts.readsMessage ⟨_, hbase⟩).1.head_isText hstops
    have hlast : ∀ r ∈ parts.reverse.getLast?, r.isText = false := by
      rwa [List.getLast?_reverse]
    have hjoin := Message.join_ofBuffer hlast hhead buffer t
    show Except.ok ((Message.ofBuffer (buffer ++ t) ++ parts).reverse ++ n) =
      Except.ok (Message.join (parts.reverse ++ Message.ofBuffer buffer) (Message.ofBuffer t ++ n))
    rw [hjoin, List.reverse_append, Message.reverse_ofBuffer, List.append_assoc]

/-- **Behind a pattern another is read as it is alone.** Unless the first ends with an
apostrophe or inside a quoted span, the message of the two is that of the one joined to that of
the other, and an error of the second is the same error, so much further on. -/
theorem parse_append {d : Nat} {pattern : String} {m : Message}
    (h : parse ⟨d, none⟩ pattern = .ok m) (hlast : pattern.toList.getLast? ≠ some '\'')
    (hspan : ¬ EndsInSpan d pattern) (rest : String) :
    (∀ n, parse ⟨d, none⟩ rest = .ok n → parse ⟨d, none⟩ (pattern ++ rest) = .ok (m.join n)) ∧
    ∀ e, parse ⟨d, none⟩ rest = .error e →
      (∃ pre, pre <+: rest.toList ∧ e.position? = some (Position.start.after pre)) ∧
      ∀ pre, e.position? = some (Position.start.after pre) →
        parse ⟨d, none⟩ (pattern ++ rest) =
          .error (e.relocate fun _ => Position.start.after (pattern.toList ++ pre)) := by
  obtain ⟨parts, buffer, hrun, rfl, hparts⟩ := exists_run_of_parse h hlast hspan
  have hshift : ∀ cs, (Position.start.after pattern.toList).shift (Position.start.after cs) =
      (Position.start.after pattern.toList).after cs :=
    fun cs => Position.shift_after Position.counts_start _ cs
  have hparse : parse ⟨d, none⟩ (pattern ++ rest) =
      relocateError (Position.start.after pattern.toList).shift
        (Message.join (parts.reverse ++ Message.ofBuffer buffer)) (parse ⟨d, none⟩ rest) := by
    show read d .start .initial (pattern ++ rest).toList = _
    rw [String.toList_append, read_append, hrun]
    exact read_behind hparts hshift rest.toList
  refine ⟨fun n hn => by rw [hparse, hn]; rfl, fun e he => ⟨?_, fun pre hpre => ?_⟩⟩
  · have hread : read d .start .initial rest.toList = .error e := he
    obtain ⟨pre, post, heq, hblames⟩ := tracks_initial.read_blamed hread
    refine ⟨pre, ⟨post, heq.symm⟩, ?_⟩
    cases hblames <;> rfl
  · rw [hparse, he, Position.after_append, ← hshift]
    exact congrArg Except.error (ParseError.relocate_congr hpre rfl)

theorem parse_append_newline :
    parse ⟨64, none⟩ ("\x7ba\x7d é\n" ++ "b\x7bc\x7d") =
      .ok [.plain "a", .text " é\nb", .plain "c"] ∧
    parse ⟨64, none⟩ ("\x7ba\x7d é\n" ++ "b\x7bn, selct\x7d") =
      .error (.unexpectedToken "selct" ⟨2, 6, 6⟩ ["select"]) := by
  have h : parse ⟨64, none⟩ "\x7ba\x7d é\n" = .ok [.plain "a", .text " é\n"] := rfl
  have hspan : ¬ EndsInSpan 64 "\x7ba\x7d é\n" := by
    rintro ⟨s, buffer, hrun, hmode⟩
    have hplain : run 64 .start .initial "\x7ba\x7d é\n".toList =
        .ok ⟨[], [.plain "a"], .text " é\n" .plain⟩ := rfl
    rw [hplain] at hrun
    cases hrun
    cases hmode
  have hok : parse ⟨64, none⟩ "b\x7bc\x7d" = .ok [.text "b", .plain "c"] := rfl
  have herror : parse ⟨64, none⟩ "b\x7bn, selct\x7d" =
      .error (.unexpectedToken "selct" ⟨1, 6, 6⟩ ["select"]) := rfl
  refine ⟨(parse_append h (by decide) hspan _).1 _ hok, ?_⟩
  exact ((parse_append h (by decide) hspan _).2 _ herror).2 "b\x7bn, ".toList rfl

end Pattern

end MessagePattern
