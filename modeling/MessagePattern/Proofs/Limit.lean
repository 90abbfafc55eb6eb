import MessagePattern.Proofs.Blame
import MessagePattern.Proofs.Nesting
import MessagePattern.Proofs.Opening
import MessagePattern.Proofs.Soundness

/-! Limits are thresholds.

The limit of depth is looked at in one place, where a brace opens a branch. So readers with
two limits do the same until the lower one is met (`read_of_le`), and a limit of as many
levels as there are characters is never met (`read_ne_tooDeep`). The limit of length is
looked at first of all, and then no more.

`limits_cut_off` says what follows for patterns that are read, for patterns that are refused
and for messages that are compiled. -/
namespace MessagePattern.Pattern

open Lexis

/-! ### Two limits -/

section
variable {d d' : Nat} {p : Position} {c : Char} {s : State}

theorem State.mark_of_le (h : d ≤ d') (place : Place) :
    s.mark d p c place = s.mark d' p c place ∨ s.mark d p c place = .error (.tooDeep d p) := by
  cases place with
  | branch choice key start =>
    rw [mark, mark]
    split
    next =>
      rw [openBranch, openBranch]
      by_cases hd : d ≤ s.depth
      · exact .inr (if_pos hd)
      · exact .inl (by rw [if_neg hd, if_neg fun hd' => hd (Nat.le_trans h hd')])
    next => exact .inl rfl
  | _ => exact .inl rfl

theorem State.readBetween_of_le (h : d ≤ d') (place : Place) :
    s.readBetween d p c place = s.readBetween d' p c place ∨
      s.readBetween d p c place = .error (.tooDeep d p) := by
  rw [readBetween, readBetween]
  split
  next => exact .inl rfl
  next =>
    split
    next => exact .inl rfl
    next => exact mark_of_le h place

theorem State.readWord_of_le (h : d ≤ d') (word : String) (start : Position) (role : Role) :
    s.readWord d p c word start role = s.readWord d' p c word start role ∨
      s.readWord d p c word start role = .error (.tooDeep d p) := by
  rw [readWord, readWord]
  split
  next => exact .inl rfl
  next =>
    split
    next => exact .inl rfl
    next place _ =>
      split
      next =>
        split
        next => exact .inl rfl
        next => exact readBetween_of_le h place
      next => exact readBetween_of_le h place

/-- Under a lower limit a character does the same, or opens a branch that is too deep. -/
theorem State.step_of_le (h : d ≤ d') :
    s.step d p c = s.step d' p c ∨ s.step d p c = .error (.tooDeep d p) := by
  rw [step, step]
  split
  next => exact .inl rfl
  next => exact readWord_of_le h _ _ _
  next => exact readBetween_of_le h _

end

/-- **Under a lower limit a pattern is read alike, or found too deep.** -/
theorem read_of_le {d d' : Nat} (h : d ≤ d') (p : Position) (s : State) (cs : List Char) :
    read d p s cs = read d' p s cs ∨ ∃ q, read d p s cs = .error (.tooDeep d q) := by
  induction cs generalizing p s with
  | nil => exact .inl rfl
  | cons c cs ih =>
    rw [read_cons, read_cons]
    rcases State.step_of_le h with hstep | hstep
    · rw [hstep]
      cases s.step d' p c with
      | error e => exact .inl rfl
      | ok t => exact ih (p.advance c) t
    · rw [hstep]
      exact .inr ⟨p, rfl⟩

/-! ### Limits that are not met -/

section
variable {limit : Nat} {p : Position} {c : Char} {s t : State}

/-- A character opens one branch at most, and none where the limit is met. -/
theorem State.Steps.depth_le_or (h : s.Steps limit p c (.ok t)) :
    t.depth ≤ s.depth ∨ t.depth = s.depth + 1 ∧ s.depth < limit := by
  have hbecome : ∀ mode, (s.become mode).depth ≤ s.depth := fun _ => Nat.le_refl _
  have htext : ∀ buffer, (s.withText buffer).depth ≤ s.depth :=
    fun buffer => Nat.le_of_eq (congrArg List.length (frames_withText s buffer))
  cases h with
  | opened => exact .inl (htext _)
  | marker => exact .inl (htext _)
  | @closed _ _ f outer _ _ hf =>
    have hs : s.depth = outer.length + 1 := congrArg List.length hf
    exact .inl (Nat.le_trans (Nat.le_succ _) (Nat.le_of_eq hs.symm))
  | entered _ _ hlimit => exact .inr ⟨rfl, hlimit⟩
  | text => exact .inl (hbecome _)
  | continued => exact .inl (hbecome _)
  | offset => exact .inl (hbecome _)
  | begun => exact .inl (hbecome _)
  | skipped => exact .inl (hbecome _)
  | moved => exact .inl (hbecome _)
  | ended => exact .inl (Nat.le_refl _)

theorem State.Steps.depth_le (h : s.Steps limit p c (.ok t)) : t.depth ≤ s.depth + 1 := by
  rcases h.depth_le_or with hle | ⟨heq, -⟩
  · exact Nat.le_succ_of_le hle
  · exact Nat.le_of_eq heq

/-- A branch is too deep only where the limit is met. -/
theorem State.Steps.limit_le {l : Nat} {q : Position}
    (h : s.Steps limit p c (.error (.tooDeep l q))) : limit ≤ s.depth := by
  generalize he : ParseError.tooDeep l q = e at h
  generalize hr : Except.error e = r at h
  cases h with
  | tooDeep _ _ hd => exact hd
  | refused _ _ hcomplete =>
    cases hr
    obtain ⟨_, rfl⟩ := Role.complete_eq_error hcomplete
    cases he
  | repeated =>
    cases hr
    cases he
  | unexpected =>
    cases hr
    cases he
  | _ => cases hr

theorem State.finish_ne_tooDeep (s : State) (l : Nat) (q : Position) :
    s.finish p ≠ .error (.tooDeep l q) := by
  intro h
  unfold finish at h
  split at h
  next => split at h <;> cases h
  next =>
    split at h
    next hcomplete =>
      cases h
      obtain ⟨_, he⟩ := Role.complete_eq_error hcomplete
      cases he
    next => cases h
  next => cases h

/-- **Where there are no more characters than levels, no branch is too deep.** -/
theorem read_ne_tooDeep {cs : List Char} (h : s.depth + cs.length ≤ limit) (p : Position) (l : Nat)
    (q : Position) : read limit p s cs ≠ .error (.tooDeep l q) := by
  induction cs generalizing s p with
  | nil => exact s.finish_ne_tooDeep l q
  | cons c cs ih =>
    rw [List.length_cons] at h
    rw [read_cons]
    have hsteps := s.steps limit p c
    cases hstep : s.step limit p c with
    | error e =>
      intro he
      cases he
      rw [hstep] at hsteps
      have := hsteps.limit_le
      omega
    | ok t =>
      rw [hstep] at hsteps
      have := hsteps.depth_le
      exact ih (by omega) (p.advance c)

end

/-! ### Whole patterns -/

section
variable {pattern : String} {m : Message}

theorem parse_of_le {d d' : Nat} (h : d ≤ d') : parse ⟨d, none⟩ pattern = parse ⟨d', none⟩ pattern ∨
    ∃ q, parse ⟨d, none⟩ pattern = .error (.tooDeep d q) :=
  read_of_le h .start .initial pattern.toList

theorem parse_ne_tooDeep {d : Nat} (h : pattern.length ≤ d) (l : Nat) (q : Position) :
    parse ⟨d, none⟩ pattern ≠ .error (.tooDeep l q) := by
  refine read_ne_tooDeep ?_ .start l q
  rw [String.length_toList]
  exact (Nat.zero_add pattern.length).symm ▸ h

theorem parse_some (d L : Nat) : parse ⟨d, some L⟩ pattern =
    if L < pattern.utf8ByteSize then .error (.tooLong pattern.utf8ByteSize L)
    else parse ⟨d, none⟩ pattern := rfl

/-- Without a limit no pattern is too long. -/
theorem parse_ne_tooLong (d n l : Nat) : parse ⟨d, none⟩ pattern ≠ .error (.tooLong n l) := by
  intro h
  obtain ⟨_, _, -, hblames⟩ := tracks_initial.read_blamed h
  cases hblames

/-- A pattern that is too deep is cut off at the first brace of the level below the limit. -/
theorem parse_eq_tooDeep {d : Nat} {os : List Opening}
    (h : OpensMessage false false pattern.toList m [] os) (hd : d < Message.depth m) :
    ∃ o ∈ os, o.level = d + 1 ∧ (∀ x ∈ os, x.level = d + 1 → x.behind.length ≤ o.behind.length) ∧
      ∃ pre, pattern.toList = pre ++ '{' :: o.behind ∧
        parse ⟨d, none⟩ pattern = .error (.tooDeep d (Position.start.after pre)) := by
  have hdepth : State.initial.depth = 0 := rfl
  obtain ⟨front, o, back, pre, rfl, hfront, ho, hcs, hread⟩ :=
    h.cutsOff .start .initial rfl rfl (Nat.zero_le d) (by rw [hdepth]; omega)
  have hbecome : (State.initial.become (.text "" .plain)).depth = 0 := rfl
  rw [hbecome, Nat.zero_add] at ho
  refine ⟨o, by simp, ho, fun x hx hlevel => ?_, pre, hcs, hread⟩
  obtain ⟨-, hback, -⟩ := List.pairwise_append.1 h.ranged.pairwise
  rcases List.mem_append.1 hx with hx | hx
  · have := hfront x hx
    omega
  · rcases List.mem_cons.1 hx with rfl | hx
    · exact Nat.le_refl _
    · exact Nat.le_of_lt ((List.pairwise_cons.1 hback).1 x hx)

end

end MessagePattern.Pattern

namespace MessagePattern

open Pattern

/-- A compiled message nests within the limit. -/
theorem Message.depth_le_of_compileFor {limits : Limits} {locale : Locale} {m : Message}
    {compiled : CompiledMessage} (h : m.compileFor limits locale = .ok compiled) :
    Block.depth compiled.root ≤ limits.maxDepth := by
  have hvalid := (reports_compileFor limits locale m).exists_ok_iff.1 ⟨compiled, h⟩
  obtain ⟨root, hroot, rfl⟩ := Message.compileFor_eq_ok h
  exact Nat.le_trans (depth_le_of_compileParts hroot) (Message.valid_iff.2 hvalid).depth

theorem Message.compile_eq_ok {reader : Locale.Reader} {limits : Limits} {tag : String}
    {m : Message} {compiled : CompiledMessage} (h : m.compile reader limits tag = .ok compiled) :
    ∃ locale, reader tag = some locale ∧ m.compileFor limits locale = .ok compiled := by
  unfold Message.compile at h
  split at h
  next => cases h
  next locale hlocale => exact ⟨locale, hlocale, h⟩

/-- **Limits only cut off, at an exact threshold.** A pattern that is read is read under every
limit that its message nests within, and cut off under the others at the first brace that
opens a branch too deep. A pattern that is refused without a limit is refused for the same
reason or as too deep, and for the same reason under all limits above one where it is. A
pattern is too long exactly when it has too many bytes. A message that compiles, for a locale
or for a tag however tags are read, does so alike under every limit that it nests within and
under no other, and its compiled form nests no deeper. -/
theorem limits_cut_off :
    (∀ {pattern D m}, parse ⟨D, none⟩ pattern = .ok m →
      (∃ os, OpensMessage false false pattern.toList m [] os) ∧ ∀ d,
        (Message.depth m ≤ d → parse ⟨d, none⟩ pattern = .ok m) ∧
        (d < Message.depth m → ∀ os, OpensMessage false false pattern.toList m [] os →
          ∃ o ∈ os, o.level = d + 1 ∧
            (∀ x ∈ os, x.level = d + 1 → x.behind.length ≤ o.behind.length) ∧
            ∃ pre, pattern.toList = pre ++ '{' :: o.behind ∧
              parse ⟨d, none⟩ pattern = .error (.tooDeep d (Position.start.after pre)))) ∧
    (∀ {pattern : String} {D e}, pattern.length ≤ D → parse ⟨D, none⟩ pattern = .error e →
      (∀ l q, e ≠ .tooDeep l q) ∧ ∀ d,
        (parse ⟨d, none⟩ pattern = .error e ∨
          ∃ q, parse ⟨d, none⟩ pattern = .error (.tooDeep d q)) ∧
        (parse ⟨d, none⟩ pattern = .error e → ∀ d', d ≤ d' →
          parse ⟨d', none⟩ pattern = .error e)) ∧
    (∀ pattern d L,
      (∀ n l, parse ⟨d, some L⟩ pattern = .error (.tooLong n l) ↔
        L < pattern.utf8ByteSize ∧ n = pattern.utf8ByteSize ∧ l = L) ∧
      (pattern.utf8ByteSize ≤ L → parse ⟨d, some L⟩ pattern = parse ⟨d, none⟩ pattern)) ∧
    (∀ {limits locale} {m : Message} {compiled}, m.compileFor limits locale = .ok compiled →
      Block.depth compiled.root ≤ limits.maxDepth ∧ ∀ limits' : Limits,
        m.compileFor limits' locale = if Message.depth m ≤ limits'.maxDepth then .ok compiled
          else .error (.tooDeep limits'.maxDepth)) ∧
    ∀ {reader limits tag} {m : Message} {compiled}, m.compile reader limits tag = .ok compiled →
      Block.depth compiled.root ≤ limits.maxDepth ∧ ∀ limits' : Limits,
        m.compile reader limits' tag = if Message.depth m ≤ limits'.maxDepth then .ok compiled
          else .error (.tooDeep limits'.maxDepth) := by
  refine ⟨fun {pattern D m} h => ?_, fun {pattern D e} hD h => ?_, fun pattern d L => ?_,
    fun h => ⟨Message.depth_le_of_compileFor h, fun limits' => compileFor_eq_of_ok h⟩,
    fun {reader limits tag m compiled} h => ?_⟩
  · obtain ⟨hreads, -⟩ := readsMessage_of_parse h
    exact ⟨hreads.exists_opens, fun d => ⟨parse_of_readsMessage hreads,
      fun hd os hos => parse_eq_tooDeep hos hd⟩⟩
  · have hdeep : ∀ l q, e ≠ .tooDeep l q := by
      rintro l q rfl
      exact parse_ne_tooDeep hD l q h
    refine ⟨hdeep, fun d => ⟨?_, fun hd d' hle => ?_⟩⟩
    · rcases Nat.le_total d D with hle | hle
      · exact (parse_of_le hle).imp_left fun heq => heq.trans h
      · rcases parse_of_le hle with heq | ⟨q, hq⟩
        · exact .inl (heq.symm.trans h)
        · exact absurd hq (parse_ne_tooDeep hD D q)
    · rcases parse_of_le hle with heq | ⟨q, hq⟩
      · exact heq.symm.trans hd
      · exact absurd (Except.error.inj (hd.symm.trans hq)) (hdeep d q)
  · rw [parse_some]
    by_cases hL : L < pattern.utf8ByteSize
    · rw [if_pos hL]
      refine ⟨fun n l => ⟨?_, ?_⟩, fun hle => absurd hL (Nat.not_lt.2 hle)⟩
      · intro h
        cases h
        exact ⟨hL, rfl, rfl⟩
      · rintro ⟨-, rfl, rfl⟩
        rfl
    · rw [if_neg hL]
      exact ⟨fun n l => iff_of_false (parse_ne_tooLong d n l) fun h => hL h.1, fun _ => rfl⟩
  · obtain ⟨locale, hlocale, hcompiled⟩ := Message.compile_eq_ok h
    refine ⟨Message.depth_le_of_compileFor hcompiled, fun limits' => ?_⟩
    rw [Message.compile, hlocale]
    exact compileFor_eq_of_ok hcompiled

theorem limits_cut_off_nested :
    parse ⟨2, none⟩ "\x7bn, plural, other \x7b\x7bg, select, a \x7bx\x7d\x7d\x7d\x7d" =
      .ok [.plural "n" false 0 [("other", [.select "g" [("a", [.text "x"])]])]] ∧
    (∃ pre behind, "\x7bn, plural, other \x7b\x7bg, select, a \x7bx\x7d\x7d\x7d\x7d".toList =
        pre ++ '{' :: behind ∧
      parse ⟨1, none⟩ "\x7bn, plural, other \x7b\x7bg, select, a \x7bx\x7d\x7d\x7d\x7d" =
        .error (.tooDeep 1 (Position.start.after pre))) ∧
    parse ⟨0, some 1⟩ "'\x7b" = .error (.tooLong 2 1) ∧
    Message.compileFor ⟨1, none⟩ ⟨⟨"en", none, none, []⟩, [], [], [], []⟩
        [.plural "n" false 0 [("other", [.select "g" [("a", [.text "x"])]])]] =
      .error (.tooDeep 1) := by
  have hread : parse .standard "\x7bn, plural, other \x7b\x7bg, select, a \x7bx\x7d\x7d\x7d\x7d" =
      .ok [.plural "n" false 0 [("other", [.select "g" [("a", [.text "x"])]])]] := rfl
  have hcompile : Message.compileFor .standard ⟨⟨"en", none, none, []⟩, [], [], [], []⟩
      [.plural "n" false 0 [("other", [.select "g" [("a", [.text "x"])]])]] = .ok _ := rfl
  obtain ⟨⟨os, hos⟩, hdepth⟩ := limits_cut_off.1 hread
  obtain ⟨o, -, -, -, pre, hcs, hcut⟩ := (hdepth 1).2 (by decide) os hos
  exact ⟨(hdepth 2).1 (by decide), ⟨pre, o.behind, hcs, hcut⟩,
    ((limits_cut_off.2.2.1 "'\x7b" 0 1).1 2 1).2 ⟨by decide, by decide, rfl⟩,
    (limits_cut_off.2.2.2.1 hcompile).2 ⟨1, none⟩⟩

end MessagePattern
