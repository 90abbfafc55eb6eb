import MessagePattern.Format.Evaluate

/-! What a run is asked and answered.

A run that asks for categories comes to its result along one of many paths, one for
each way to answer. A log holds the questions of such a path with their answers, so what
a run does under every resolver, one that remembers or changes its mind included, is
which results it yields along which logs.

`yields_map_iff`: along the answers of a resolver a run yields its result under that
resolver, and the log holds just the questions it asks. -/
namespace MessagePattern

open Plural (Category Question)

/-- Questions and their answers, in the order in which they were asked. -/
abbrev Log := List (Question × Category)

namespace Run

variable {α β : Type}

/-- Answered as the log says, the run asks what the log says and has this result. -/
inductive Yields : Run α → Log → Except FormatError α → Prop where
  | done {result} : Yields (done result) [] result
  | ask {q next category log result} : Yields (next category) log result →
      Yields (ask q next) ((q, category) :: log) result

theorem yields_done_iff {x r : Except FormatError α} {log : Log} :
    (done x).Yields log r ↔ log = [] ∧ r = x := by
  apply Iff.intro
  · intro h
    cases h
    exact ⟨rfl, rfl⟩
  · intro h
    obtain ⟨rfl, rfl⟩ := h
    exact .done

/-- What is not in doubt is not asked for. -/
theorem yields_done_bind_iff {x : Except FormatError α} {f : α → Run β} {log : Log}
    {r : Except FormatError β} : ((done x).bind f).Yields log r ↔
      (∃ e, x = .error e ∧ log = [] ∧ r = .error e) ∨ ∃ a, x = .ok a ∧ (f a).Yields log r := by
  cases x with
  | error e =>
    show (done (.error e)).Yields log r ↔ _
    rw [yields_done_iff]
    simp
  | ok a =>
    show (f a).Yields log r ↔ _
    simp

/-- A question is the first of the log. -/
theorem yields_category_bind_iff {q : Question} {f : Category → Run β} {log : Log}
    {r : Except FormatError β} : ((category q).bind f).Yields log r ↔
      ∃ c log', log = (q, c) :: log' ∧ (f c).Yields log' r := by
  show (ask q f).Yields log r ↔ _
  apply Iff.intro
  · intro h
    cases h
    next c log h => exact ⟨c, log, rfl, h⟩
  · intro h
    obtain ⟨c, log', rfl, h⟩ := h
    exact .ask h

/-- One run behind the other yields their logs one behind the other, up to an error. -/
theorem yields_bind_iff {x : Run α} {f : α → Run β} {log : Log} {r : Except FormatError β} :
    (x.bind f).Yields log r ↔ (∃ e, x.Yields log (.error e) ∧ r = .error e) ∨
      ∃ a log₁ log₂, x.Yields log₁ (.ok a) ∧ (f a).Yields log₂ r ∧ log = log₁ ++ log₂ := by
  induction x generalizing log with
  | done x =>
    rw [yields_done_bind_iff]
    apply Iff.intro
    · intro h
      rcases h with ⟨e, rfl, rfl, rfl⟩ | ⟨a, rfl, h⟩
      · exact .inl ⟨e, .done, rfl⟩
      · exact .inr ⟨a, [], log, .done, h, rfl⟩
    · intro h
      rcases h with ⟨e, h, rfl⟩ | ⟨a, log₁, log₂, h, hf, rfl⟩
      · obtain ⟨rfl, rfl⟩ := yields_done_iff.1 h
        exact .inl ⟨e, rfl, rfl, rfl⟩
      · obtain ⟨rfl, rfl⟩ := yields_done_iff.1 h
        exact .inr ⟨a, rfl, hf⟩
  | ask q next ih =>
    apply Iff.intro
    · intro h
      cases h with
      | ask h =>
        rcases (ih _).1 h with ⟨e, hx, rfl⟩ | ⟨a, log₁, log₂, hx, hf, rfl⟩
        · exact .inl ⟨e, .ask hx, rfl⟩
        · exact .inr ⟨a, _ :: log₁, log₂, .ask hx, hf, rfl⟩
    · intro h
      rcases h with ⟨e, h, rfl⟩ | ⟨a, log₁, log₂, h, hf, rfl⟩
      · cases h with
        | ask h => exact .ask ((ih _).2 (.inl ⟨e, h, rfl⟩))
      · cases h with
        | ask h => exact .ask ((ih _).2 (.inr ⟨a, _, log₂, h, hf, rfl⟩))

/-- **Along the answers of a resolver a run yields its result under the resolver**, and
asks just its questions under it. -/
theorem yields_map_iff {resolve : Question → Category} {x : Run α} {qs : List Question}
    {r : Except FormatError α} :
    x.Yields (qs.map fun q => (q, resolve q)) r ↔
      x.answer resolve = r ∧ x.questions resolve = qs := by
  induction x generalizing qs with
  | done x =>
    rw [yields_done_iff, List.map_eq_nil_iff]
    apply Iff.intro
    · intro h
      obtain ⟨rfl, rfl⟩ := h
      exact ⟨rfl, rfl⟩
    · intro h
      obtain ⟨rfl, rfl⟩ := h
      exact ⟨rfl, rfl⟩
  | ask q next ih =>
    cases qs with
    | nil =>
      apply Iff.intro
      · intro h
        cases h
      · intro h
        obtain ⟨-, ⟨⟩⟩ := h
    | cons q' qs =>
      apply Iff.intro
      · intro h
        cases h with
        | ask h =>
          obtain ⟨rfl, rfl⟩ := (ih _).1 h
          exact ⟨rfl, rfl⟩
      · intro h
        obtain ⟨rfl, h⟩ := h
        obtain ⟨rfl, rfl⟩ := List.cons.inj h
        exact .ask ((ih _).2 ⟨rfl, rfl⟩)

theorem yields_answer (resolve : Question → Category) (x : Run α) :
    x.Yields ((x.questions resolve).map fun q => (q, resolve q)) (x.answer resolve) :=
  yields_map_iff.2 ⟨rfl, rfl⟩

/-- A resolver with a memory answers as some log says. -/
theorem exists_yields_remember {σ : Type} (respond : σ → Question → Category × σ) (memory : σ)
    (x : Run α) : ∃ log, x.Yields log (x.remember respond memory).1 := by
  induction x generalizing memory with
  | done x => exact ⟨[], .done⟩
  | ask q next ih =>
    obtain ⟨log, h⟩ := ih (respond memory q).1 (respond memory q).2
    exact ⟨_ :: log, .ask h⟩

end Run

/-- A block yields what its first node yields and behind it what the others do, up to an error. -/
theorem Block.yields_cons_iff {c : Context} {n : Node} {rest : Block} {out : String} {log : Log}
    {r : Except FormatError String} : (Block.run c (n :: rest) out).Yields log r ↔
      (∃ e, (n.run c out).Yields log (.error e) ∧ r = .error e) ∨ ∃ out' log₁ log₂,
        (n.run c out).Yields log₁ (.ok out') ∧ (Block.run c rest out').Yields log₂ r ∧
          log = log₁ ++ log₂ := by
  rw [Block.run, Run.yields_bind_iff]

end MessagePattern
