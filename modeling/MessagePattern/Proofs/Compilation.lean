import MessagePattern.Compiled.Compile
import MessagePattern.Proofs.Entries
import MessagePattern.Proofs.Evaluation
import MessagePattern.Proofs.Occurrence

/-! What compilation makes of its parts.

For each piece that compiles this file says from what and to what: keys are read as what
they denote, parts compile to nodes, branches to branches. `exists_part_of_holds` is the
whole of it for a compiled message: every node in it comes from a part that stands in the
message under the same plural. -/
namespace MessagePattern

open Plural (Category)

variable {limit depth : Nat} {binding? : Option Binding}

/-! ### Keys -/

theorem PluralKey.ofString?_eq_exact_iff {n : Int64} {key : String} :
    PluralKey.ofString? key = some (.exact n) ↔ IsExactKey n key := by
  unfold PluralKey.ofString? IsExactKey
  split
  next literal h =>
    rw [h, Option.map_eq_some_iff]
    apply Iff.intro
    · intro h
      obtain ⟨k, hk, heq⟩ := h
      cases heq
      exact ⟨literal, rfl, hk⟩
    · intro h
      obtain ⟨_, hl, hn⟩ := h
      cases hl
      exact ⟨n, hn, rfl⟩
  next hne =>
    apply Iff.intro
    · intro h
      obtain ⟨_, -, heq⟩ := Option.map_eq_some_iff.1 h
      cases heq
    · intro h
      obtain ⟨literal, hl, -⟩ := h
      exact absurd hl (hne literal)

theorem PluralKey.ofString?_eq_category_iff {answer : Category} {key : String} :
    PluralKey.ofString? key = some (.category answer) ↔ key = answer.keyword := by
  unfold PluralKey.ofString?
  split
  next literal h =>
    apply Iff.intro
    · intro hm
      obtain ⟨_, -, heq⟩ := Option.map_eq_some_iff.1 hm
      cases heq
    · intro h
      subst h
      cases answer <;> exact absurd h (by simp [Category.keyword])
  next =>
    rw [Option.map_eq_some_iff]
    apply Iff.intro
    · intro h
      obtain ⟨d, hd, heq⟩ := h
      cases heq
      exact Category.ofKeyword?_eq_some_iff.1 hd
    · intro h
      subst h
      exact ⟨answer, Category.ofKeyword?_keyword answer, rfl⟩

/-- A key that a plural may have: the keyword of a category, or an equals sign and an
integer. -/
def IsPluralKey (key : String) : Prop := key ∈ Category.keywords ∨ ∃ n, IsExactKey n key

theorem PluralKey.isSome_ofString?_iff {key : String} :
    (PluralKey.ofString? key).isSome = true ↔ IsPluralKey key := by
  rw [Option.isSome_iff_exists]
  apply Iff.intro
  · intro h
    obtain ⟨k, hk⟩ := h
    cases k with
    | exact n => exact .inr ⟨n, PluralKey.ofString?_eq_exact_iff.1 hk⟩
    | category c =>
      obtain rfl := PluralKey.ofString?_eq_category_iff.1 hk
      exact .inl (Category.mem_keywords_iff.2 ⟨c, rfl⟩)
  · intro h
    rcases h with h | ⟨n, hn⟩
    · obtain ⟨c, rfl⟩ := Category.mem_keywords_iff.1 h
      exact ⟨_, PluralKey.ofString?_eq_category_iff.2 rfl⟩
    · exact ⟨_, PluralKey.ofString?_eq_exact_iff.2 hn⟩

instance (key : String) : Decidable (IsPluralKey key) :=
  decidable_of_iff _ PluralKey.isSome_ofString?_iff

/-! ### Messages and parts that compile -/

theorem Message.compileParts_cons_eq_ok {limit depth : Nat} {p : Part} {ps : Message}
    {block : Block}
    (h : Message.compileParts limit binding? depth (p :: ps) = .ok block) :
    ∃ node rest, p.compile limit binding? depth = .ok node ∧
      Message.compileParts limit binding? depth ps = .ok rest ∧ block = node :: rest := by
  rw [Message.compileParts] at h
  split at h
  next => cases h
  next node hnode =>
    split at h
    next => cases h
    next rest hrest =>
      cases h
      exact ⟨node, rest, hnode, hrest, rfl⟩

theorem Message.compileFor_eq_ok {limits : Limits} {locale : Locale} {m : Message}
    {compiled : CompiledMessage} (h : m.compileFor limits locale = .ok compiled) :
    ∃ root, Message.compileParts limits.maxDepth none 0 m = .ok root ∧
      compiled = ⟨locale, root⟩ := by
  rw [Message.compileFor] at h
  split at h
  next => cases h
  next root hroot =>
    cases h
    exact ⟨root, hroot, rfl⟩

theorem Part.compile_select_eq_ok {limit depth : Nat} {a : String} {bs : Branches} {node : Node}
    (h : (Part.select a bs).compile limit binding? depth = .ok node) :
    ∃ entries, Branches.compileSelect limit depth bs = .ok entries ∧ node = .select a entries := by
  rw [Part.compile] at h
  split at h
  next => cases h
  next entries hentries =>
    cases h
    exact ⟨entries, hentries, rfl⟩

theorem Part.compile_plural_eq_ok {limit depth : Nat} {a : String} {o : Bool} {offset : Int64}
    {bs : Branches} {node : Node}
    (h : (Part.plural a o offset bs).compile limit binding? depth = .ok node) :
    ∃ entries other, Branches.compilePlural limit ⟨a, offset⟩ depth bs = .ok entries ∧
      entries.lookup otherKey = some other ∧
      node = .plural ⟨a, offset⟩ o (entries.filter (·.1 ≠ otherKey)) other := by
  rw [Part.compile] at h
  split at h
  next => cases h
  next =>
    split at h
    next => cases h
    next entries hentries =>
      rw [Node.ofEntries] at h
      split at h
      next other hother =>
        cases h
        exact ⟨entries, other, hentries, hother, rfl⟩
      next => cases h

theorem Branches.compileSelect_cons_eq_ok {k : String} {m : Message} {bs : Branches}
    {entries : List (String × Block)}
    (h : Branches.compileSelect limit depth ((k, m) :: bs) = .ok entries) :
    ∃ block rest, Message.compileParts limit none (depth + 1) m = .ok block ∧
      Branches.compileSelect limit depth bs = .ok rest ∧ entries = (k, block) :: rest := by
  rw [Branches.compileSelect] at h
  split at h
  next => cases h
  next =>
    split at h
    next => cases h
    next block hblock =>
      split at h
      next => cases h
      next rest hrest =>
        cases h
        exact ⟨block, rest, hblock, hrest, rfl⟩

theorem Branches.compilePlural_cons_eq_ok {b : Binding} {k : String} {m : Message}
    {bs : Branches} {entries : List (PluralKey × Block)}
    (h : Branches.compilePlural limit b depth ((k, m) :: bs) = .ok entries) :
    ∃ key block rest, PluralKey.ofString? k = some key ∧
      Message.compileParts limit (some b) (depth + 1) m = .ok block ∧
      Branches.compilePlural limit b depth bs = .ok rest ∧
      entries = pushUnlessGiven key block rest := by
  rw [Branches.compilePlural] at h
  split at h
  next => cases h
  next key hkey =>
    split at h
    next => cases h
    next =>
      split at h
      next => cases h
      next block hblock =>
        split at h
        next => cases h
        next rest hrest =>
          cases h
          exact ⟨key, block, rest, hkey, hblock, hrest, rfl⟩

/-! ### Branches that compile -/

theorem keys_compileSelect {bs : Branches} {entries : List (String × Block)}
    (h : Branches.compileSelect limit depth bs = .ok entries) :
    entries.map (·.1) = bs.map (·.1) := by
  induction bs generalizing entries with
  | nil =>
    cases h
    rfl
  | cons b bs ih =>
    obtain ⟨block, rest, -, hrest, rfl⟩ := Branches.compileSelect_cons_eq_ok h
    rw [List.map_cons, List.map_cons, ih hrest]

theorem exists_mem_of_mem_compileSelect {bs : Branches} {entries : List (String × Block)}
    (h : Branches.compileSelect limit depth bs = .ok entries) {k : String} {block : Block}
    (hk : (k, block) ∈ entries) :
    ∃ m, (k, m) ∈ bs ∧ Message.compileParts limit none (depth + 1) m = .ok block := by
  induction bs generalizing entries with
  | nil =>
    cases h
    cases hk
  | cons b bs ih =>
    obtain ⟨first, rest, hfirst, hrest, rfl⟩ := Branches.compileSelect_cons_eq_ok h
    rcases List.mem_cons.1 hk with heq | hk
    · cases heq
      exact ⟨b.2, List.mem_cons_self, hfirst⟩
    · obtain ⟨m, hm, hblock⟩ := ih hrest hk
      exact ⟨m, List.mem_cons_of_mem _ hm, hblock⟩

theorem mem_pushUnlessGiven {key : PluralKey} {block : Block}
    {entries : List (PluralKey × Block)} {e : PluralKey × Block}
    (h : e ∈ pushUnlessGiven key block entries) : e = (key, block) ∨ e ∈ entries := by
  unfold pushUnlessGiven at h
  split at h
  next => exact .inr h
  next => exact List.mem_cons.1 h

theorem exists_mem_of_mem_compilePlural {b : Binding} {bs : Branches}
    {entries : List (PluralKey × Block)}
    (h : Branches.compilePlural limit b depth bs = .ok entries) {key : PluralKey} {block : Block}
    (hkey : (key, block) ∈ entries) :
    ∃ k m, (k, m) ∈ bs ∧ Message.compileParts limit (some b) (depth + 1) m = .ok block := by
  induction bs generalizing entries with
  | nil =>
    cases h
    cases hkey
  | cons e bs ih =>
    obtain ⟨key', first, rest, -, hfirst, hrest, rfl⟩ := Branches.compilePlural_cons_eq_ok h
    rcases mem_pushUnlessGiven hkey with heq | hkey
    · cases heq
      exact ⟨e.1, e.2, List.mem_cons_self, hfirst⟩
    · obtain ⟨k, m, hm, hblock⟩ := ih hrest hkey
      exact ⟨k, m, List.mem_cons_of_mem _ hm, hblock⟩

/-- The branches of a node come from branches of its part, and keep what the marker
stands for in them. -/
theorem exists_branch_of_compile {p : Part} {node : Node}
    (h : p.compile limit binding? depth = .ok node) {inner? : Option Binding} {block : Block}
    (hb : node.HasBranch inner? block) :
    ∃ m, p.HasBranch inner? m ∧ Message.compileParts limit inner? (depth + 1) m = .ok block := by
  cases p with
  | text value => cases h; cases hb
  | plain a => cases h; cases hb
  | simple a t s =>
    rw [Part.compile] at h
    split at h
    next => cases h
    next => cases h; cases hb
  | select a bs =>
    obtain ⟨entries, hentries, rfl⟩ := Part.compile_select_eq_ok h
    cases hb with
    | select hk =>
      obtain ⟨m, hm, hblock⟩ := exists_mem_of_mem_compileSelect hentries hk
      exact ⟨m, .select hm, hblock⟩
  | plural a o offset bs =>
    obtain ⟨entries, other, hentries, hother, rfl⟩ := Part.compile_plural_eq_ok h
    have hmem : ∀ {key block}, (key, block) ∈ entries → ∃ m,
        (Part.plural a o offset bs).HasBranch (some ⟨a, offset⟩) m ∧
          Message.compileParts limit (some ⟨a, offset⟩) (depth + 1) m = .ok block := by
      intro key block hkey
      obtain ⟨k, m, hm, hblock⟩ := exists_mem_of_mem_compilePlural hentries hkey
      exact ⟨m, .plural hm, hblock⟩
    cases hb with
    | plural hkey => exact hmem (List.mem_filter.1 hkey).1
    | other => exact hmem (mem_of_lookup_eq_some hother)
  | marker =>
    cases binding? with
    | none => cases h
    | some b => cases h; cases hb

theorem exists_part_of_mem {m : Message} {block : Block}
    (h : Message.compileParts limit binding? depth m = .ok block) {n : Node} (hn : n ∈ block) :
    ∃ p ∈ m, p.compile limit binding? depth = .ok n := by
  induction m generalizing block with
  | nil =>
    cases h
    cases hn
  | cons p ps ih =>
    obtain ⟨first, rest, hfirst, hrest, rfl⟩ := Message.compileParts_cons_eq_ok h
    rcases List.mem_cons.1 hn with rfl | hn
    · exact ⟨p, List.mem_cons_self, hfirst⟩
    · obtain ⟨q, hq, hcompile⟩ := ih hrest hn
      exact ⟨q, List.mem_cons_of_mem p hq, hcompile⟩

/-- **Every node of a compiled message comes from a part of the message**, which stands
under the same plural. -/
theorem exists_part_of_holds {site : Site} {m : Message} {block : Block}
    (h : Message.compileParts limit site.binding? site.depth m = .ok block)
    {around? : Option Binding} {n : Node} (hn : Block.Holds site.binding? block around? n) :
    ∃ site' p, Message.Stands site m site' p ∧ site'.binding? = around? ∧
      p.compile limit site'.binding? site'.depth = .ok n := by
  -- Down to the node, branch by branch: what a branch came from stands one step deeper.
  generalize hsite : site.binding? = binding? at hn
  induction hn generalizing site m with
  | here hn =>
    obtain ⟨p, hp, hcompile⟩ := exists_part_of_mem h hn
    exact ⟨site, p, .here hp, hsite, hcompile⟩
  | @inside _ _ _ inner? branch _ _ hn hbranch _ ih =>
    obtain ⟨p, hp, hcompile⟩ := exists_part_of_mem h hn
    obtain ⟨inner, hinner, hblock⟩ := exists_branch_of_compile hcompile hbranch
    obtain ⟨site', q, hq, haround, hcompile⟩ := ih hblock (site.binding?_inside inner?)
    exact ⟨site', q, .inside hp hinner hq, haround, hcompile⟩

end MessagePattern
