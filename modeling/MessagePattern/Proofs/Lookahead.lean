import MessagePattern.Cursor
import MessagePattern.Proofs.Positions

/-! What a cursor shows.

A cursor keeps four things that must not drift apart: the next character, those behind it, the
character read last and the place of the next one. `Cursor.skip` reads on; of a cursor that has
read `k` characters the four are given outright by the text and by its first `k` characters
(`peek_skip`, `chars_skip`, `last_skip`, `position_skip`).

A *session* asks a cursor anything, in any order, and keeps copies to return to. How far it
has come is counted from its own answers (`Count.note`), a copy remembering the count at
which it was taken.

`session_answers`: whatever a session has done, the count alone says what it answers next,
and no two counts share a position. -/
namespace MessagePattern.Cursor

/-! ### Reading on -/

/-- The cursor `k` characters further on, but not beyond the end. -/
def skip : Nat → Cursor → Cursor
  | 0, c => c
  | k + 1, c =>
    match c.next? with
    | none => c
    | some d => skip k d

@[simp] theorem skip_zero (c : Cursor) : c.skip 0 = c := rfl

theorem skip_load_nil (k : Nat) (x : Char) (p : Position) :
    skip k (load [] x p) = load [] x p := by
  cases k <;> rfl

theorem skip_load_cons (k : Nat) (y : Char) (rest : List Char) (x : Char) (p : Position) :
    skip (k + 1) (load (y :: rest) x p) = skip k (load rest y (p.advance y)) := rfl

theorem skip_add (j k : Nat) (c : Cursor) : c.skip (j + k) = (c.skip j).skip k := by
  induction j generalizing c with
  | zero => rw [Nat.zero_add, skip_zero]
  | succ j ih =>
    obtain ⟨rest, x, p, rfl⟩ := c.exists_eq_load
    rw [Nat.succ_add]
    cases rest with
    | nil => rw [skip_load_nil, skip_load_nil, skip_load_nil]
    | cons y rest => rw [skip_load_cons, skip_load_cons, ih]

@[simp] theorem rest_skip (k : Nat) (c : Cursor) : (c.skip k).rest = c.rest.drop k := by
  induction k generalizing c with
  | zero => rfl
  | succ k ih =>
    obtain ⟨rest, x, p, rfl⟩ := c.exists_eq_load
    cases rest with
    | nil => rfl
    | cons y rest => rw [skip_load_cons, ih, rest_load, rest_load, List.drop_succ_cons]

@[simp] theorem position_skip (k : Nat) (c : Cursor) :
    (c.skip k).position = c.position.after (c.rest.take k) := by
  induction k generalizing c with
  | zero => rfl
  | succ k ih =>
    obtain ⟨rest, x, p, rfl⟩ := c.exists_eq_load
    cases rest with
    | nil => rfl
    | cons y rest =>
      rw [skip_load_cons, ih, rest_load, rest_load, List.take_succ_cons, Position.after_cons]
      rfl

theorem last_skip (k : Nat) (c : Cursor) :
    (c.skip k).last = (c.rest.take k).getLast?.getD c.last := by
  induction k generalizing c with
  | zero => rfl
  | succ k ih =>
    obtain ⟨rest, x, p, rfl⟩ := c.exists_eq_load
    cases rest with
    | nil => rfl
    | cons y rest =>
      rw [skip_load_cons, ih, rest_load, rest_load, List.take_succ_cons, List.getLast?_cons,
        Option.getD_some]
      rfl

theorem peek_skip (k : Nat) (c : Cursor) : (c.skip k).peek = c.rest[k]? := by
  rw [peek_eq, rest_skip, List.head?_drop]

/-- What is kept behind the next character is always one further on. -/
theorem chars_skip (k : Nat) (c : Cursor) : (c.skip k).chars = c.rest.drop (k + 1) := by
  rw [← (c.skip k).load_rest, rest_skip, ← List.tail_drop]
  rfl

theorem next?_eq_some {c : Cursor} (h : c.rest ≠ []) : c.next? = some (c.skip 1) := by
  obtain ⟨rest, x, p, rfl⟩ := c.exists_eq_load
  cases rest with
  | nil => exact absurd rfl h
  | cons y rest => rfl

/-- Of a cursor that has read `k` characters, reading one more gives the cursor that has read
`k + 1`, where there is one more. -/
theorem next?_skip (k : Nat) (c : Cursor) :
    (c.skip k).next? = if k < c.rest.length then some (c.skip (k + 1)) else none := by
  split
  next h =>
    rw [next?_eq_some, ← skip_add]
    rw [rest_skip, ne_eq, List.drop_eq_nil_iff]
    omega
  next h =>
    rw [next?_eq_none_iff, peek_skip, List.getElem?_eq_none_iff]
    omega

/-! ### Sessions -/

inductive Operation where
  | decode
  | decoded
  | peek
  | position
  /-- Keep a copy of the cursor. -/
  | save
  /-- Go on from the copy kept as the `slot`-th. -/
  | restore (slot : Nat)

inductive Answer where
  /-- Whether a character was read. -/
  | moved (success : Bool)
  | last (c : Char)
  | next (c : Option Char)
  | at (p : Position)
  /-- Copies are kept and taken up without an answer. -/
  | silent

/-- A cursor and the copies kept of it, oldest first. -/
structure Session where
  cursor : Cursor
  saved : List Cursor

namespace Session

def start (text : String) : Session := ⟨.ofString text, []⟩

/-- A slot that holds no copy changes nothing. -/
def perform (s : Session) : Operation → Answer × Session
  | .decode =>
    match s.cursor.next? with
    | some c => (.moved true, { s with cursor := c })
    | none => (.moved false, s)
  | .decoded => (.last s.cursor.last, s)
  | .peek => (.next s.cursor.peek, s)
  | .position => (.at s.cursor.position, s)
  | .save => (.silent, { s with saved := s.saved ++ [s.cursor] })
  | .restore slot => (.silent, { s with cursor := s.saved[slot]?.getD s.cursor })

/-- How far a session has come: its successful readings, less those that a return to a copy
has undone, and the same count for each copy. -/
structure Count where
  net : Nat
  saved : List Nat

/-- What an operation and its answer add to the count. -/
def Count.note (k : Count) : Operation → Answer → Count
  | .decode, .moved true => { k with net := k.net + 1 }
  | .save, _ => { k with saved := k.saved ++ [k.net] }
  | .restore slot, _ => { k with net := k.saved[slot]?.getD k.net }
  | _, _ => k

/-- The session and its count behind a run of operations. -/
def run (s : Session) (k : Count) : List Operation → Session × Count
  | [] => (s, k)
  | op :: ops => run (s.perform op).2 (k.note op (s.perform op).1) ops

end Session

/-- What is answered behind the first `k` characters of a text. -/
def Operation.answer (cs : List Char) (k : Nat) : Operation → Answer
  | .decode => .moved (k < cs.length)
  | .decoded =>
    .last (match k with
      | 0 => '\uFFFD'
      | j + 1 => cs.getD j '\uFFFD')
  | .peek => .next cs[k]?
  | .position =>
    .at ⟨1 + (cs.take k).count '\n', 1 + (String.ofList (lastLine (cs.take k))).utf8ByteSize,
      1 + (lastLine (cs.take k)).length⟩
  | .save | .restore _ => .silent

namespace Session

/-- The session has come as far as counted, and so have its copies. -/
structure Counted (text : String) (s : Session) (k : Count) : Prop where
  cursor : s.cursor = (ofString text).skip k.net
  saved : s.saved = k.saved.map fun j => (ofString text).skip j
  net_le : k.net ≤ text.toList.length
  saved_le : ∀ j ∈ k.saved, j ≤ text.toList.length

variable {text : String} {s : Session} {k : Count}

theorem counted_start (text : String) : Counted text (start text) ⟨0, []⟩ :=
  ⟨rfl, rfl, Nat.zero_le _, nofun⟩

theorem Counted.next?_eq (h : s.Counted text k) : s.cursor.next? =
    if k.net < text.toList.length then some ((ofString text).skip (k.net + 1)) else none := by
  rw [h.cursor, next?_skip, rest_ofString]

/-- The last character is that of the count, and the replacement character before all. -/
theorem Counted.last_eq (h : s.Counted text k) : s.cursor.last =
    match k.net with
    | 0 => '\uFFFD'
    | j + 1 => text.toList.getD j '\uFFFD' := by
  have hle := h.net_le
  rw [h.cursor, last_skip, rest_ofString]
  cases hk : k.net with
  | zero => rfl
  | succ j =>
    rw [hk] at hle
    have hj : (text.toList.take (j + 1)).getLast? = text.toList[j]? := by
      rw [List.getLast?_take]
      simp [List.getElem?_eq_getElem (show j < text.toList.length from hle)]
    show (text.toList.take (j + 1)).getLast?.getD '\uFFFD' = _
    rw [hj]
    exact List.getD_eq_getElem?_getD.symm

/-- **The count says what is answered.** -/
theorem Counted.answer_eq (h : s.Counted text k) (op : Operation) :
    (s.perform op).1 = op.answer text.toList k.net := by
  cases op with
  | decode =>
    rw [perform, h.next?_eq]
    split
    next c hc =>
      split at hc
      next hlt => simp only [Operation.answer, hlt, decide_true]
      next => cases hc
    next hc =>
      split at hc
      next => cases hc
      next hlt => simp only [Operation.answer, hlt, decide_false]
  | decoded => exact congrArg Answer.last h.last_eq
  | peek =>
    have hpeek : s.cursor.peek = text.toList[k.net]? := by
      rw [h.cursor, peek_skip, rest_ofString]
    exact congrArg Answer.next hpeek
  | position =>
    have hposition : s.cursor.position = Position.start.after (text.toList.take k.net) := by
      rw [h.cursor, position_skip, rest_ofString]
      rfl
    rw [Position.start_after] at hposition
    exact congrArg Answer.at hposition
  | save => rfl
  | restore slot => rfl

/-- Each operation keeps session and count together. -/
theorem Counted.perform (h : s.Counted text k) (op : Operation) :
    (s.perform op).2.Counted text (k.note op (s.perform op).1) := by
  cases op with
  | decode =>
    rw [Session.perform, h.next?_eq]
    by_cases hlt : k.net < text.toList.length
    · rw [if_pos hlt]
      exact ⟨rfl, h.saved, hlt, h.saved_le⟩
    · rw [if_neg hlt]
      exact h
  | decoded => exact h
  | peek => exact h
  | position => exact h
  | save =>
    refine ⟨h.cursor, ?_, h.net_le, ?_⟩
    · show s.saved ++ [s.cursor] = (k.saved ++ [k.net]).map fun j => (ofString text).skip j
      rw [List.map_append, h.saved, h.cursor]
      rfl
    · intro j hj
      rcases List.mem_append.1 hj with hj | hj
      · exact h.saved_le j hj
      · rw [List.mem_singleton.1 hj]
        exact h.net_le
  | restore slot =>
    have hslot : s.saved[slot]? = k.saved[slot]?.map fun j => (ofString text).skip j := by
      rw [h.saved, List.getElem?_map]
    refine ⟨?_, h.saved, ?_, h.saved_le⟩
    · show s.saved[slot]?.getD s.cursor = (ofString text).skip (k.saved[slot]?.getD k.net)
      rw [hslot]
      cases k.saved[slot]? with
      | none => exact h.cursor
      | some j => rfl
    · show k.saved[slot]?.getD k.net ≤ _
      cases hj : k.saved[slot]? with
      | none => exact h.net_le
      | some j => exact h.saved_le j (List.mem_of_getElem? hj)

theorem Counted.run (h : s.Counted text k) (ops : List Operation) :
    (s.run k ops).1.Counted text (s.run k ops).2 := by
  induction ops generalizing s k with
  | nil => exact h
  | cons op ops ih => exact ih (h.perform op)

end Session

/-! ### Positions along a text -/

/-- Further on in a text the position is later. -/
theorem before_position_skip {c : Cursor} {j k : Nat} (h : j < k) (hk : k ≤ c.rest.length) :
    (c.skip j).position.Before (c.skip k).position := by
  obtain ⟨d, rfl⟩ : ∃ d, k = j + (d + 1) := ⟨k - j - 1, by omega⟩
  rw [skip_add, position_skip (d + 1)]
  refine Position.before_after ?_ _
  rw [rest_skip, ne_eq, List.take_eq_nil_iff, List.drop_eq_nil_iff]
  omega

theorem eq_of_position_skip_eq {c : Cursor} {j k : Nat}
    (h : (c.skip j).position = (c.skip k).position) (hj : j ≤ c.rest.length)
    (hk : k ≤ c.rest.length) : j = k := by
  rcases Nat.lt_trichotomy j k with hlt | heq | hlt
  · exact absurd h (before_position_skip hlt hk).ne
  · exact heq
  · exact absurd h.symm (before_position_skip hlt hj).ne

namespace Session

/-- The session on `text` behind the operations `ops`. -/
def reached (text : String) (ops : List Operation) : Session := ((start text).run ⟨0, []⟩ ops).1

/-- The net number of characters it has read. -/
def net (text : String) (ops : List Operation) : Nat := ((start text).run ⟨0, []⟩ ops).2.net

end Session

open Session

/-- **A session is told by its count.** Behind any operations on a cursor over `text`, copies
kept and taken up again among them, the next answer is that of the first `net` characters:
the next character or none, the character read last, the place that lines and columns count,
and whether there is one more to read. The next character is kept apart from those behind it and
stays one ahead of them. Reading where nothing is left changes nothing. Of two moments on the
same text the one further on has the later position, so that a position says how much has been
read. -/
theorem session_answers (text : String) (ops : List Operation) :
    net text ops ≤ text.toList.length ∧
      (∀ op, ((reached text ops).perform op).1 = op.answer text.toList (net text ops)) ∧
      ((reached text ops).cursor.next = text.toList[net text ops]? ∧
        (reached text ops).cursor.chars = text.toList.drop (net text ops + 1)) ∧
      (((reached text ops).perform .decode).1 = .moved false →
        ((reached text ops).perform .decode).2 = reached text ops) ∧
      ∀ ops',
        (net text ops < net text ops' →
          (reached text ops).cursor.position.Before (reached text ops').cursor.position) ∧
        ((reached text ops).cursor.position = (reached text ops').cursor.position →
          net text ops = net text ops') := by
  have hcounted : ∀ ops, (reached text ops).Counted text _ := (counted_start text).run
  have hlength : ∀ ops, net text ops ≤ (ofString text).rest.length := by
    intro ops
    rw [rest_ofString]
    exact (hcounted ops).net_le
  refine ⟨(hcounted ops).net_le, (hcounted ops).answer_eq, ⟨?_, ?_⟩, fun hfail => ?_,
    fun ops' => ⟨?_, ?_⟩⟩
  · rw [(hcounted ops).cursor, ← rest_ofString]
    exact peek_skip _ _
  · rw [(hcounted ops).cursor, chars_skip, rest_ofString]
    rfl
  · unfold perform at hfail ⊢
    cases hnext : (reached text ops).cursor.next? with
    | none => rfl
    | some c => rw [hnext] at hfail; cases hfail
  · intro hlt
    rw [(hcounted ops).cursor, (hcounted ops').cursor]
    exact before_position_skip hlt (hlength ops')
  · intro heq
    rw [(hcounted ops).cursor, (hcounted ops').cursor] at heq
    exact eq_of_position_skip_eq heq (hlength ops) (hlength ops')

/-- A copy taken behind the first line, and taken up again at the end. -/
example : ((reached "é\nab" [.decode, .decode, .save, .decode, .decode, .decode,
    .restore 0]).perform .position).1 = .at ⟨2, 1, 1⟩ := by rfl

end MessagePattern.Cursor
