import MessagePattern.Format.Error
import MessagePattern.Plural.Resolver

/-! Runs that ask for plural categories.

Formatting does not know how categories are chosen. It is a `Run`: either it is done, or
it asks a question and goes on with the answer. Equal runs agree under every resolver,
in their result and in the questions they ask (`answer`, `questions`), and a resolver
with a memory is one more way to answer (`remember`).

`remember_eq_answer`: a resolver whose memory never changes its answers gives what the
plain resolver gives. -/
namespace MessagePattern

open Plural (Category Question)

inductive Run (α : Type) where
  | done (result : Except FormatError α)
  | ask (question : Question) (next : Category → Run α)

namespace Run

variable {α β σ : Type}

def bind (f : α → Run β) : Run α → Run β
  | done (.ok a) => f a
  | done (.error e) => done (.error e)
  | ask q next => ask q fun c => (next c).bind f

instance : Monad Run where
  pure a := done (.ok a)
  bind r f := r.bind f

def fail (e : FormatError) : Run α := done (.error e)

/-- Ask for a category. -/
def category (q : Question) : Run Category := ask q pure

/-! ### Answering -/

/-- The result under a resolver. -/
def answer (resolve : Question → Category) : Run α → Except FormatError α
  | done result => result
  | ask q next => (next (resolve q)).answer resolve

/-- The questions asked under a resolver, in order. -/
def questions (resolve : Question → Category) : Run α → List Question
  | done _ => []
  | ask q next => q :: (next (resolve q)).questions resolve

/-- The result under a resolver with a memory, and its memory afterwards. -/
def remember (resolve : σ → Question → Category × σ) (memory : σ) :
    Run α → Except FormatError α × σ
  | done result => (result, memory)
  | ask q next =>
    let (c, memory) := resolve memory q
    (next c).remember resolve memory

/-! ### Laws -/

theorem bind_pure (r : Run α) : r.bind pure = r := by
  induction r with
  | done result => cases result <;> rfl
  | ask q next ih => exact congrArg (ask q) (funext ih)

theorem bind_assoc {γ : Type} (r : Run α) (f : α → Run β) (g : β → Run γ) :
    (r.bind f).bind g = r.bind fun a => (f a).bind g := by
  induction r with
  | done result => cases result <;> rfl
  | ask q next ih => exact congrArg (ask q) (funext ih)

instance : LawfulMonad Run :=
  LawfulMonad.mk' Run (fun r => bind_pure r) (fun _ _ => rfl) (fun r f g => bind_assoc r f g)

theorem answer_bind (resolve : Question → Category) (r : Run α) (f : α → Run β) :
    (r.bind f).answer resolve = (r.answer resolve).bind fun a => (f a).answer resolve := by
  induction r with
  | done result => cases result <;> rfl
  | ask q next ih => exact ih _

/-- A memory that satisfies `sound`, and under which the answers are those of `resolve`,
changes no result and stays sound. -/
theorem remember_eq_answer {sound : σ → Prop} {resolve : Question → Category}
    {respond : σ → Question → Category × σ} (answers : ∀ m q, sound m → (respond m q).1 = resolve q)
    (keeps : ∀ m q, sound m → sound (respond m q).2) (r : Run α) {memory : σ} (h : sound memory) :
    (r.remember respond memory).1 = r.answer resolve ∧ sound (r.remember respond memory).2 := by
  induction r generalizing memory with
  | done result => exact ⟨rfl, h⟩
  | ask q next ih =>
    have := ih (respond memory q).1 (keeps memory q h)
    rw [answers memory q h] at this
    simpa only [remember, answer, answers memory q h] using this

end Run

end MessagePattern
