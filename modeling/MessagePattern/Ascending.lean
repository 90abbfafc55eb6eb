/-! Association lists in strictly ascending key order.

A list of entries is `Ascending` when each key lies below all later ones, so no key
occurs twice. `insertEntry` adds an entry or replaces the one with its key;
`Ascending.insertEntry` says that the order is kept, and `lookup_insertEntry` what the
change does to a look-up. `insertMissing` adds an entry only under a new key. -/
namespace MessagePattern

variable {κ α : Type}

/-- Keys rise strictly from each entry to every later one. -/
def Ascending [LT κ] (entries : List (κ × α)) : Prop := entries.Pairwise fun a b => a.1 < b.1

instance [LT κ] [DecidableLT κ] (entries : List (κ × α)) : Decidable (Ascending entries) :=
  inferInstanceAs (Decidable (entries.Pairwise _))

/-- Add an entry at its place, or put the new value where its key already stands. -/
def insertEntry [LT κ] [DecidableLT κ] (key : κ) (value : α) : List (κ × α) → List (κ × α)
  | [] => [(key, value)]
  | (k, v) :: rest =>
    if key < k then (key, value) :: (k, v) :: rest
    else if k < key then (k, v) :: insertEntry key value rest
    else (key, value) :: rest

/-- Add an entry unless one with its key stands already. -/
def insertMissing [BEq κ] [LT κ] [DecidableLT κ] (key : κ) (value : α)
    (entries : List (κ × α)) : List (κ × α) :=
  if (entries.lookup key).isSome then entries else insertEntry key value entries

/-- Add a key to an ascending list of keys, once. -/
def insertKey [LT κ] [DecidableLT κ] (key : κ) : List κ → List κ
  | [] => [key]
  | k :: rest =>
    if key < k then key :: k :: rest
    else if k < key then k :: insertKey key rest
    else k :: rest

/-! ### Laws -/

theorem mem_insertEntry [LT κ] [DecidableLT κ] {key : κ} {value : α} {entries : List (κ × α)}
    {e : κ × α} (h : e ∈ insertEntry key value entries) : e = (key, value) ∨ e ∈ entries := by
  induction entries with
  | nil => exact .inl (by simpa [insertEntry] using h)
  | cons b rest ih => grind [insertEntry]

/-- Keys of which neither lies below the other are the same. -/
theorem eq_of_not_lt [LE κ] [LT κ] [Std.LawfulOrderLT κ] [Std.IsLinearOrder κ] {a b : κ}
    (h : ¬ a < b) (h' : ¬ b < a) : a = b :=
  (inferInstance : Std.Trichotomous fun a b : κ => a < b).trichotomous a b h h'

section
variable [LE κ] [LT κ] [DecidableLT κ] [Std.LawfulOrderLT κ] [Std.IsLinearOrder κ]

theorem Ascending.insertEntry {key : κ} {value : α} {entries : List (κ × α)}
    (h : Ascending entries) : Ascending (insertEntry key value entries) := by
  induction entries with
  | nil => simp [Ascending, MessagePattern.insertEntry]
  | cons b rest ih =>
    obtain ⟨k, v⟩ := b
    have hrest := List.pairwise_cons.1 h
    unfold MessagePattern.insertEntry
    split
    next hlt =>
      refine List.pairwise_cons.2 ⟨fun e he => ?_, h⟩
      rcases List.mem_cons.1 he with rfl | he
      · exact hlt
      · exact Std.lt_trans hlt (hrest.1 e he)
    next hnlt =>
      split
      next hlt =>
        refine List.pairwise_cons.2 ⟨fun e he => ?_, ih hrest.2⟩
        rcases mem_insertEntry he with rfl | he
        · exact hlt
        · exact hrest.1 e he
      next hnlt' => exact List.pairwise_cons.2 ⟨eq_of_not_lt hnlt hnlt' ▸ hrest.1, hrest.2⟩

/-- A look-up finds the new value under its key and the old ones elsewhere. -/
theorem lookup_insertEntry [BEq κ] [LawfulBEq κ] {key k : κ} {value : α}
    {entries : List (κ × α)} :
    (MessagePattern.insertEntry key value entries).lookup k =
      if k == key then some value else entries.lookup k := by
  induction entries with
  | nil => rw [MessagePattern.insertEntry, List.lookup_cons]; cases k == key <;> rfl
  | cons b rest ih =>
    obtain ⟨x, v⟩ := b
    unfold MessagePattern.insertEntry
    split
    next => rw [List.lookup_cons]; cases k == key <;> rfl
    next hnlt =>
      split
      next hlt =>
        rw [List.lookup_cons, List.lookup_cons, ih]
        cases hx : k == x
        · rfl
        · have hk : k ≠ key := by
            rintro rfl
            exact hnlt (eq_of_beq hx ▸ hlt)
          simp [hk]
      next hnlt' =>
        rw [List.lookup_cons, List.lookup_cons, eq_of_not_lt hnlt hnlt']
        cases k == x <;> rfl

theorem mem_insertKey {key k : κ} {keys : List κ} :
    k ∈ insertKey key keys ↔ k = key ∨ k ∈ keys := by
  induction keys with
  | nil => simp [insertKey]
  | cons x rest ih =>
    unfold insertKey
    split
    next => simp
    next hnlt =>
      split
      next => simp [ih]; grind
      next hnlt' => simp [eq_of_not_lt hnlt hnlt']

end

end MessagePattern
