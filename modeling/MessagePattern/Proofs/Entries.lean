import MessagePattern.Ascending

/-! Association lists up to the order of their entries.

An ascending list is determined by its entries (`Ascending.eq_of_perm`), and adding an
entry under a new key adds just that entry (`insertEntry_perm`). -/
namespace MessagePattern

variable {κ α : Type}

theorem lookup_eq_none_iff_forall_ne [BEq κ] [LawfulBEq κ] {key : κ}
    {entries : List (κ × α)} : entries.lookup key = none ↔ ∀ e ∈ entries, e.1 ≠ key := by
  rw [List.lookup_eq_none_iff]
  refine forall₂_congr fun e _ => ?_
  rw [bne_iff_ne, ne_comm]

theorem mem_of_lookup_eq_some [BEq κ] [LawfulBEq κ] {key : κ} {value : α}
    {entries : List (κ × α)} (h : entries.lookup key = some value) : (key, value) ∈ entries := by
  obtain ⟨before, behind, rfl, -⟩ := List.lookup_eq_some_iff.1 h
  exact List.mem_append_right before List.mem_cons_self

theorem isSome_lookup_iff [BEq κ] [LawfulBEq κ] {key : κ} {entries : List (κ × α)} :
    (entries.lookup key).isSome = true ↔ key ∈ entries.map (·.1) := by
  rw [List.lookup_isSome_iff, List.mem_map]
  refine exists_congr fun e => and_congr_right fun _ => ?_
  rw [beq_iff_eq, eq_comm]

/-- One entry fewer is left without the key, if no key is there twice. -/
theorem length_filter_ne [DecidableEq κ] {key : κ} {entries : List (κ × α)}
    (hkeys : (entries.map (·.1)).Nodup) (h : key ∈ entries.map (·.1)) :
    (entries.filter (·.1 ≠ key)).length + 1 = entries.length := by
  induction entries with
  | nil => cases h
  | cons e rest ih =>
    obtain ⟨hnew, hrest⟩ := List.nodup_cons.1 hkeys
    by_cases he : e.1 = key
    · subst he
      have hothers : ∀ x ∈ rest, decide (x.1 ≠ e.1) = true := fun x hx =>
        decide_eq_true fun hsame => hnew (List.mem_map.2 ⟨x, hx, hsame⟩)
      rw [List.filter_cons_of_neg (by simp), List.filter_eq_self.2 hothers, List.length_cons]
    · have hmem := (List.mem_cons.1 h).resolve_left (Ne.symm he)
      rw [List.filter_cons_of_pos (by simpa using he), List.length_cons, List.length_cons,
        ih hrest hmem]

/-- Without the entries under one key the others are still found. -/
theorem lookup_filter_ne [DecidableEq κ] {key dropped : κ} {entries : List (κ × α)} :
    (entries.filter (·.1 ≠ dropped)).lookup key =
      if key = dropped then none else entries.lookup key := by
  induction entries with
  | nil => simp
  | cons e rest ih =>
    obtain ⟨k, v⟩ := e
    have hbeq : (key == k) = decide (key = k) := rfl
    by_cases hk : k = dropped
    · rw [List.filter_cons_of_neg (by simpa using hk), ih, List.lookup_cons, hbeq]
      by_cases hkey : key = dropped
      · rw [if_pos hkey, if_pos hkey]
      · rw [if_neg hkey, if_neg hkey, decide_eq_false fun h => hkey (h.trans hk)]
    · rw [List.filter_cons_of_pos (by simpa using hk), List.lookup_cons, List.lookup_cons, ih, hbeq]
      by_cases hkey : key = k
      · subst hkey
        rw [if_neg hk, if_neg hk]
      · rw [decide_eq_false hkey]

/-- An entry under a key below all others comes first. -/
theorem insertEntry_of_lt [LT κ] [DecidableLT κ] {key : κ} {value : α}
    {entries : List (κ × α)} (h : ∀ e ∈ entries, key < e.1) :
    insertEntry key value entries = (key, value) :: entries := by
  cases entries with
  | nil => rfl
  | cons e rest => exact if_pos (h e List.mem_cons_self)

section
variable [BEq κ] [LT κ] [DecidableLT κ] {key : κ} {value : α} {entries : List (κ × α)}

theorem mem_insertMissing {e : κ × α} (h : e ∈ insertMissing key value entries) :
    e = (key, value) ∨ e ∈ entries := by
  unfold insertMissing at h
  split at h
  next => exact .inr h
  next => exact mem_insertEntry h

theorem insertMissing_of_lt [LawfulBEq κ] [LE κ] [Std.LawfulOrderLT κ]
    (h : ∀ e ∈ entries, key < e.1) :
    insertMissing key value entries = (key, value) :: entries := by
  have hnone : entries.lookup key = none := by
    refine lookup_eq_none_iff_forall_ne.2 fun e he heq => ?_
    exact Std.lt_irrefl (heq ▸ h e he)
  rw [insertMissing, hnone]
  exact insertEntry_of_lt h

theorem Ascending.insertMissing [LE κ] [Std.LawfulOrderLT κ] [Std.IsLinearOrder κ]
    (h : Ascending entries) : Ascending (insertMissing key value entries) := by
  unfold MessagePattern.insertMissing
  split
  next => exact h
  next => exact h.insertEntry

/-- A look-up finds what was there before the new value. -/
theorem lookup_insertMissing [LawfulBEq κ] [LE κ] [Std.LawfulOrderLT κ] [Std.IsLinearOrder κ]
    {k : κ} :
    (insertMissing key value entries).lookup k =
      (entries.lookup k).or (if k == key then some value else none) := by
  unfold insertMissing
  by_cases hk : k = key
  · subst hk
    cases hlookup : entries.lookup k with
    | some v => simp [hlookup]
    | none => simp [lookup_insertEntry]
  · have hne : (k == key) = false := beq_eq_false_iff_ne.2 hk
    split
    next => simp [hne]
    next => simp [lookup_insertEntry, hne]

end

theorem Ascending.pairwise_ne [LE κ] [LT κ] [Std.LawfulOrderLT κ] {entries : List (κ × α)}
    (h : Ascending entries) : entries.Pairwise fun a b => a.1 ≠ b.1 := by
  apply h.imp
  intro a b hlt heq
  rw [heq] at hlt
  exact Std.lt_irrefl hlt

section
variable [LE κ] [LT κ] [Std.LawfulOrderLT κ] [Std.IsLinearOrder κ]

/-- Ascending lists of the same entries are the same list. -/
theorem Ascending.eq_of_perm {as bs : List (κ × α)} (ha : Ascending as) (hb : Ascending bs)
    (h : as.Perm bs) : as = bs := by
  refine h.eq_of_pairwise (fun a b _ _ hab hba => ?_) ha hb
  exact absurd (Std.lt_trans hab hba) Std.lt_irrefl

variable [DecidableLT κ]

/-- An entry under a new key is added to the others. -/
theorem insertEntry_perm {key : κ} {value : α} {entries : List (κ × α)}
    (h : ∀ e ∈ entries, e.1 ≠ key) :
    (insertEntry key value entries).Perm ((key, value) :: entries) := by
  induction entries with
  | nil => exact .refl _
  | cons b rest ih =>
    obtain ⟨k, v⟩ := b
    unfold insertEntry
    split
    next => exact .refl _
    next hnlt =>
      split
      next =>
        have := ih fun e he => h e (List.mem_cons_of_mem _ he)
        exact (this.cons (k, v)).trans (.swap _ _ _)
      next hnlt' =>
        exact absurd (eq_of_not_lt hnlt hnlt').symm (h (k, v) List.mem_cons_self)

end

end MessagePattern
