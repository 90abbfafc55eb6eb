import MessagePattern.Proofs.Validity

/-! How deep compiled messages nest.

The limit of a compilation is looked at in front of every branch and changes nothing else:
what compiles under one limit compiles to the same nodes under every limit that it nests
within (`compileParts_of_ok`) and is too deep for every other (`compileFor_eq_of_ok`). The
nodes nest no deeper than the parts that they come from (`depth_le_of_compileParts`). -/
namespace MessagePattern

open Plural (Category)

/-! ### Depth of nodes -/

mutual

/-- How deep blocks nest inside a node. -/
def Node.depth : Node → Nat
  | .text _ | .plain _ | .simple _ _ _ | .marker _ => 0
  | .select _ branches => Block.selectDepth branches
  | .plural _ _ branches other => max (Block.pluralDepth branches) (Block.depth other + 1)

/-- How deep blocks nest inside a block, which itself is at depth zero. -/
def Block.depth : List Node → Nat
  | [] => 0
  | n :: rest => max n.depth (Block.depth rest)

def Block.selectDepth : List (String × List Node) → Nat
  | [] => 0
  | (_, block) :: rest => max (Block.depth block + 1) (Block.selectDepth rest)

def Block.pluralDepth : List (PluralKey × List Node) → Nat
  | [] => 0
  | (_, block) :: rest => max (Block.depth block + 1) (Block.pluralDepth rest)

end

section
variable {d : Nat}

theorem Block.selectDepth_le_iff {branches : List (String × Block)} :
    Block.selectDepth branches ≤ d ↔ ∀ e ∈ branches, Block.depth e.2 + 1 ≤ d := by
  induction branches with
  | nil => simp [Block.selectDepth]
  | cons e rest ih => rw [Block.selectDepth, Nat.max_le, ih, List.forall_mem_cons]

theorem Block.pluralDepth_le_iff {branches : List (PluralKey × Block)} :
    Block.pluralDepth branches ≤ d ↔ ∀ e ∈ branches, Block.depth e.2 + 1 ≤ d := by
  induction branches with
  | nil => simp [Block.pluralDepth]
  | cons e rest ih => rw [Block.pluralDepth, Nat.max_le, ih, List.forall_mem_cons]

/-- A node whose branches all nest one less deep. -/
theorem Node.depth_le {n : Node}
    (h : ∀ binding? block, n.HasBranch binding? block → Block.depth block + 1 ≤ d) :
    n.depth ≤ d := by
  cases n with
  | select a branches =>
    rw [Node.depth, Block.selectDepth_le_iff]
    exact fun e he => h none e.2 (.select he)
  | plural b o branches other =>
    rw [Node.depth, Nat.max_le, Block.pluralDepth_le_iff]
    exact ⟨fun e he => h (some b) e.2 (.plural he), h (some b) other .other⟩
  | _ => exact Nat.zero_le d

end

/-- **Compiled blocks nest no deeper than the message.** -/
theorem depth_le_of_compileParts {limit depth : Nat} {binding? : Option Binding} {m : Message}
    {block : Block} (h : Message.compileParts limit binding? depth m = .ok block) :
    Block.depth block ≤ Message.depth m := by
  induction m using Message.branch_induction generalizing binding? depth block with
  | nil =>
    cases h
    exact Nat.le_refl 0
  | cons p ps ihb ih =>
    obtain ⟨node, rest, hnode, hrest, rfl⟩ := Message.compileParts_cons_eq_ok h
    have hdepth : node.depth ≤ p.depth := by
      refine Node.depth_le fun inner? block hb => ?_
      obtain ⟨branch, hbranch, hblock⟩ := exists_branch_of_compile hnode hb
      have := ihb _ _ hbranch hblock
      have := Part.depth_le_iff.1 (Nat.le_refl p.depth) _ _ hbranch
      omega
    have := ih hrest
    rw [Block.depth, Message.depth]
    omega

/-! ### Compiling under another limit -/

section
variable {limit limit' depth : Nat} {binding? : Option Binding}

/-- What compiles under the one limit compiles to the same under the other, if it nests
within it. -/
def Message.Carries (limit limit' : Nat) (m : Message) : Prop :=
  ∀ binding? depth block, Message.compileParts limit binding? depth m = .ok block →
    depth + Message.depth m ≤ limit' → Message.compileParts limit' binding? depth m = .ok block

theorem compileSelect_of_ok {bs : Branches} {entries : List (String × Block)}
    (hbs : ∀ b ∈ bs, Message.Carries limit limit' b.2) (hd : depth + Branches.depth bs ≤ limit')
    (h : Branches.compileSelect limit depth bs = .ok entries) :
    Branches.compileSelect limit' depth bs = .ok entries := by
  induction bs generalizing entries with
  | nil => exact h
  | cons b bs ih =>
    obtain ⟨k, m⟩ := b
    obtain ⟨hm, hbs⟩ := List.forall_mem_cons.1 hbs
    have hm : Message.Carries limit limit' m := hm
    obtain ⟨block, rest, hblock, hrest, rfl⟩ := Branches.compileSelect_cons_eq_ok h
    rw [Branches.depth] at hd
    have hblock := hm none (depth + 1) block hblock (by omega)
    have hrest := ih hbs (by omega) hrest
    simp only [Branches.compileSelect, if_neg (by omega : ¬ limit' ≤ depth), hblock, hrest]

theorem compilePlural_of_ok {b : Binding} {bs : Branches} {entries : List (PluralKey × Block)}
    (hbs : ∀ e ∈ bs, Message.Carries limit limit' e.2) (hd : depth + Branches.depth bs ≤ limit')
    (h : Branches.compilePlural limit b depth bs = .ok entries) :
    Branches.compilePlural limit' b depth bs = .ok entries := by
  induction bs generalizing entries with
  | nil => exact h
  | cons e bs ih =>
    obtain ⟨k, m⟩ := e
    obtain ⟨hm, hbs⟩ := List.forall_mem_cons.1 hbs
    have hm : Message.Carries limit limit' m := hm
    obtain ⟨key, block, rest, hkey, hblock, hrest, rfl⟩ := Branches.compilePlural_cons_eq_ok h
    rw [Branches.depth] at hd
    have hblock := hm (some b) (depth + 1) block hblock (by omega)
    have hrest := ih hbs (by omega) hrest
    simp only [Branches.compilePlural, hkey, if_neg (by omega : ¬ limit' ≤ depth), hblock, hrest]

theorem Part.compile_of_ok {p : Part} {node : Node}
    (hp : ∀ binding? m, p.HasBranch binding? m → Message.Carries limit limit' m)
    (hd : depth + p.depth ≤ limit') (h : p.compile limit binding? depth = .ok node) :
    p.compile limit' binding? depth = .ok node := by
  cases p with
  | text value => exact h
  | plain a => exact h
  | simple a t s =>
    rw [Part.compile] at h ⊢
    exact h
  | select a bs =>
    obtain ⟨entries, hentries, rfl⟩ := Part.compile_select_eq_ok h
    rw [Part.compile, compileSelect_of_ok (fun b hb => hp none b.2 (.select hb)) hd hentries]
  | plural a o offset bs =>
    obtain ⟨entries, -, hentries, -, -⟩ := Part.compile_plural_eq_ok h
    rw [Part.compile, hentries] at h
    rwa [Part.compile, compilePlural_of_ok (fun b hb => hp _ b.2 (.plural hb)) hd hentries]
  | marker => exact h

/-- **A message that compiles does so alike under every limit that it nests within.** -/
theorem compileParts_of_ok (limit limit' : Nat) (m : Message) : Message.Carries limit limit' m := by
  induction m using Message.branch_induction with
  | nil => exact fun _ _ _ h _ => h
  | cons p ps ihb ih =>
    intro binding? depth block h hd
    obtain ⟨node, rest, hnode, hrest, rfl⟩ := Message.compileParts_cons_eq_ok h
    obtain ⟨hp, hps⟩ := Message.add_depth_cons_le_iff.1 hd
    have hnode := Part.compile_of_ok ihb hp hnode
    have hrest := ih binding? depth rest hrest hps
    simp only [Message.compileParts, hnode, hrest]

end

/-- Nothing can be wrong with a message that compiles but its depth. -/
theorem Part.Violates.eq_tooDeep {limit limit' : Nat} {site : Site} {p : Part} {e : CompileError}
    (h : p.Violates limit' site e) (hnone : ∀ e, ¬ p.Violates limit site e) :
    e = .tooDeep limit' := by
  cases h with
  | shape hshape => exact absurd (.shape hshape) (hnone _)
  | other hother => exact absurd (.other hother) (hnone _)
  | key hb hkey => exact absurd (.key hb hkey) (hnone _)
  | depth => rfl
  | stray hstray => exact absurd (.stray hstray) (hnone _)

/-- **The limit is a threshold**: what compiles under one limit compiles alike under every
limit that it nests within, and is too deep for the others. -/
theorem compileFor_eq_of_ok {limits limits' : Limits} {locale : Locale} {m : Message}
    {compiled : CompiledMessage} (h : m.compileFor limits locale = .ok compiled) :
    m.compileFor limits' locale =
      if Message.depth m ≤ limits'.maxDepth then .ok compiled
      else .error (.tooDeep limits'.maxDepth) := by
  split
  next hd =>
    obtain ⟨root, hroot, rfl⟩ := Message.compileFor_eq_ok h
    rw [Message.compileFor, compileParts_of_ok _ limits'.maxDepth m none 0 root hroot (by omega)]
  next hd =>
    have hvalid := (reports_compileFor limits locale m).exists_ok_iff.1 ⟨compiled, h⟩
    have hnone := Message.violations_eq_nil_iff.1 hvalid
    have hreports := reports_compileFor limits' locale m
    cases hcompile : m.compileFor limits' locale with
    | ok compiled' =>
      have hvalid' := Message.valid_iff.2 (hreports.exists_ok_iff.1 ⟨compiled', hcompile⟩)
      exact absurd hvalid'.depth hd
    | error e =>
      have he := List.mem_of_mem_head? ((hreports e).1 hcompile)
      obtain ⟨site, p, hp, hviolates⟩ := Message.mem_violations_iff.1 he
      rw [hviolates.eq_tooDeep fun e => hnone site p e hp]

end MessagePattern
