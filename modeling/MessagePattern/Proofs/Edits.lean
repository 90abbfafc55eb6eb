import Mathlib.Order.Bounds.Defs
import Mathlib.Order.MinMax
import MessagePattern.Suggestion

/-! How far words are apart.

An edit changes one character of a word: it puts one in, takes one out or replaces one.
Edits may follow each other in any order and undo each other, whereas a row of distances
goes through two words once, from their ends to their beginnings. `isLeast_editDistance`
says that nothing is lost by that: what it comes to is the least number of edits.

That so many are enough is shown by doing them (`edits_distance`). That fewer are not is
shown edit by edit: none brings a word nearer to another by more than one (`Close.of_edit`). -/
namespace MessagePattern.Suggestion

/-! ### Edits -/

/-- One character is put in, taken out or replaced. -/
inductive Edit : List Char → List Char → Prop where
  | insert (u v : List Char) (c : Char) : Edit (u ++ v) (u ++ c :: v)
  | delete (u v : List Char) (c : Char) : Edit (u ++ c :: v) (u ++ v)
  | substitute (u v : List Char) (c d : Char) : Edit (u ++ c :: v) (u ++ d :: v)

/-- That many edits, one after the other, turn one word into another. -/
inductive Edits : Nat → List Char → List Char → Prop where
  | refl {a} : Edits 0 a a
  | step {n a b c} : Edit a b → Edits n b c → Edits (n + 1) a c

theorem Edit.cons {a b : List Char} (h : Edit a b) (x : Char) : Edit (x :: a) (x :: b) := by
  cases h with
  | insert u v c => exact .insert (x :: u) v c
  | delete u v c => exact .delete (x :: u) v c
  | substitute u v c d => exact .substitute (x :: u) v c d

theorem Edits.cons {n : Nat} {a b : List Char} (h : Edits n a b) (x : Char) :
    Edits n (x :: a) (x :: b) := by
  induction h with
  | refl => exact .refl
  | step hedit _ ih => exact .step (hedit.cons x) ih

/-! ### Rows -/

/-- The distance of `a` to `b` stands first in the row of the distances of `a`. -/
def distance (a b : List Char) : Nat := (distances b a).headD 0

/-- Behind it stand the distances to the shorter suffixes. -/
theorem tail_distances (a b : List Char) (y : Char) :
    (distances (y :: b) a).tail = distances b a := by
  induction a with
  | nil => rfl
  | cons x a ih =>
    show extendRow x b (distances (y :: b) a).tail = extendRow x b (distances b a)
    rw [ih]

theorem distance_nil (b : List Char) : distance [] b = b.length := by
  cases b <;> rfl

theorem distance_cons_nil (x : Char) (a : List Char) :
    distance (x :: a) [] = distance a [] + 1 := rfl

theorem distance_cons_cons (x y : Char) (a b : List Char) :
    distance (x :: a) (y :: b) = min (min (distance a (y :: b) + 1) (distance (x :: a) b + 1))
      (distance a b + if x = y then 0 else 1) := by
  have hrow : distance (x :: a) (y :: b) = (extendRow x (y :: b) (distances (y :: b) a)).headD 0 :=
    rfl
  rw [hrow, extendRow, tail_distances]
  rfl

/-! ### So many edits are enough -/

theorem edits_distance_nil (a : List Char) : Edits (distance a []) a [] := by
  induction a with
  | nil => exact .refl
  | cons x a ih => exact .step (.delete [] a x) ih

theorem edits_distance (a b : List Char) : Edits (distance a b) a b := by
  induction a generalizing b with
  | nil =>
    rw [distance_nil]
    induction b with
    | nil => exact .refl
    | cons y b ih => exact .step (.insert [] [] y) (ih.cons y)
  | cons x a iha =>
    induction b with
    | nil => exact edits_distance_nil (x :: a)
    | cons y b ihb =>
      have hdelete : Edits (distance a (y :: b) + 1) (x :: a) (y :: b) :=
        .step (.delete [] a x) (iha (y :: b))
      have hinsert : Edits (distance (x :: a) b + 1) (x :: a) (y :: b) :=
        .step (.insert [] (x :: a) y) (ihb.cons y)
      have hkeep : Edits (distance a b + if x = y then 0 else 1) (x :: a) (y :: b) := by
        split
        next h => exact h ▸ (iha b).cons x
        next => exact .step (.substitute [] a x y) ((iha b).cons y)
      rw [distance_cons_cons]
      rcases min_choice (min (distance a (y :: b) + 1) (distance (x :: a) b + 1))
        (distance a b + if x = y then 0 else 1) with h | h
      · rw [h]
        rcases min_choice (distance a (y :: b) + 1) (distance (x :: a) b + 1) with h | h
        · rw [h]
          exact hdelete
        · rw [h]
          exact hinsert
      · rw [h]
        exact hkeep

/-! ### Fewer are not -/

/-- No word is farther from `a` than from `b` by more than one edit. -/
def Close (a b : List Char) : Prop := ∀ c, distance a c ≤ distance b c + 1

theorem distance_cons_right_le (y : Char) (a c : List Char) :
    distance a (y :: c) ≤ distance a c + 1 := by
  cases a with
  | nil =>
    rw [distance_nil, distance_nil, List.length_cons]
  | cons x a =>
    rw [distance_cons_cons]
    omega

theorem close_delete (x : Char) (a : List Char) : Close (x :: a) a := by
  intro c
  cases c with
  | nil =>
    rw [distance_cons_nil]
  | cons y c =>
    rw [distance_cons_cons]
    omega

theorem close_insert (x : Char) (a : List Char) : Close a (x :: a) := by
  intro c
  induction c with
  | nil =>
    rw [distance_cons_nil]
    omega
  | cons y c ih =>
    have := distance_cons_right_le y a c
    rw [distance_cons_cons]
    omega

theorem close_substitute (x y : Char) (a : List Char) : Close (x :: a) (y :: a) := by
  intro c
  induction c with
  | nil =>
    rw [distance_cons_nil, distance_cons_nil]
    omega
  | cons z c ih =>
    rw [distance_cons_cons, distance_cons_cons]
    split <;> omega

theorem Close.cons {a b : List Char} (h : Close a b) (x : Char) : Close (x :: a) (x :: b) := by
  intro c
  have hnil := h []
  induction c with
  | nil =>
    rw [distance_cons_nil, distance_cons_nil]
    omega
  | cons y c ih =>
    have hbehind := h c
    have hall := h (y :: c)
    rw [distance_cons_cons, distance_cons_cons]
    omega

theorem Close.append {a b : List Char} (h : Close a b) (u : List Char) :
    Close (u ++ a) (u ++ b) := by
  induction u with
  | nil => exact h
  | cons x u ih => exact ih.cons x

/-- **An edit brings a word nearer to any other by at most one.** -/
theorem Close.of_edit {a b : List Char} (h : Edit a b) : Close a b := by
  cases h with
  | insert u v c => exact (close_insert c v).append u
  | delete u v c => exact (close_delete c v).append u
  | substitute u v c d => exact (close_substitute c d v).append u

theorem distance_self (a : List Char) : distance a a = 0 := by
  induction a with
  | nil => rfl
  | cons x a ih =>
    rw [distance_cons_cons, ih, if_pos rfl]
    omega

theorem distance_le_of_edits {n : Nat} {a b : List Char} (h : Edits n a b) : distance a b ≤ n := by
  induction h with
  | refl =>
    rw [distance_self]
  | @step n a b c hedit _ ih =>
    have := Close.of_edit hedit c
    omega

/-- **The distance of two words is the least number of edits** that turn one into the other. -/
theorem isLeast_editDistance (a b : String) :
    IsLeast {n | Edits n a.toList b.toList} (editDistance a b) :=
  ⟨edits_distance a.toList b.toList, fun _ h => distance_le_of_edits h⟩

/-- A letter is one character, however it is stored. -/
example : editDistance "straße" "strasse" = 2 := by decide

/-- Only a word itself takes no edits. -/
theorem editDistance_eq_zero_iff {a b : String} : editDistance a b = 0 ↔ a = b := by
  apply Iff.intro
  · intro h
    have hedits : Edits 0 a.toList b.toList := h ▸ (isLeast_editDistance a b).1
    generalize ha : a.toList = as at hedits
    generalize hb : b.toList = bs at hedits
    cases hedits
    exact String.toList_inj.1 (ha.trans hb.symm)
  · intro h
    subst h
    exact distance_self a.toList

end MessagePattern.Suggestion
