import Mathlib.Data.List.Dedup
import MessagePattern.Proofs.Refinement

/-! The branches that a compiled plural keeps.

A plural is compiled branch by branch in the order of its keys, and an integer can be
spelled in several ways: of the branches for one integer the last one is kept. So a branch
is kept when its key prevails over the other spellings (`Branches.Prevails`), and then it is
the one that runs for what its key denotes (`Node.Takes`).

The decimal of an integer lies above its other spellings, since a plus sign and a padding
zero lie below every digit that a decimal begins with (`Integer.not_digits_lt`). Zero is the
exception: its decimal is a zero, and a spelling with more of them lies above
(`Integer.digits_zero_lt_iff`).

`plural_keeps_prevailing` counts the branches that are kept and says what they are for. -/
namespace MessagePattern

open Plural (Category Question)

/-! ### Spellings of an integer -/

namespace Integer

open Lexis

/-- What is read as an integer with any sign are its literals and digits behind a plus sign. -/
theorem ofSigned?_eq_some_iff {n : Int64} {cs : List Char} : ofSigned? cs = some n ↔
    IsLiteral n cs ∨ ∃ ds m, cs = '+' :: ds ∧ IsDigits ds m ∧ n.toInt = m := by
  unfold ofSigned?
  split
  next ds =>
    rw [Option.bind_eq_some_iff]
    apply Iff.intro
    · intro h
      obtain ⟨m, hm, hn⟩ := h
      exact .inr ⟨ds, m, rfl, natOfDigits?_eq_some_iff.1 hm, ofInt?_eq_some_iff.1 hn⟩
    · intro h
      rcases h with h | ⟨_, m, hds, hm, hn⟩
      · cases h with
        | unsigned hd => exact absurd (hd.digits '+' List.mem_cons_self) (by decide)
      · cases hds
        exact ⟨m, natOfDigits?_eq_some_iff.2 hm, ofInt?_eq_some_iff.2 hn⟩
  next hplus =>
    rw [isLiteral_iff]
    apply Iff.intro
    · exact .inl
    · intro h
      rcases h with h | ⟨ds, m, rfl, -⟩
      · exact h
      · exact absurd rfl (hplus ds)

theorem digits_of_toInt_eq {n : Int64} {m : Nat} (h : n.toInt = m) :
    digits n = Nat.toDigits 10 m :=
  (isDecimal_iff.1 (.unsigned (isDigits_toDigits m) (not_isPadded_toDigits m) h)).symm

theorem digits_of_toInt_eq_neg {n : Int64} {m : Nat} (hm : m ≠ 0) (h : n.toInt = -m) :
    digits n = '-' :: Nat.toDigits 10 m :=
  (isDecimal_iff.1 (.negative (isDigits_toDigits m) (head_toDigits hm) h)).symm

theorem lt_of_isDigit {c : Char} (h : c.isDigit = true) : '+' < c ∧ (c ≠ '0' → '0' < c) := by
  obtain ⟨k, hk, rfl⟩ := exists_digitChar h
  have hall : ∀ k < 10, '+' < k.digitChar ∧ (k.digitChar ≠ '0' → '0' < k.digitChar) := by decide
  exact hall k hk

theorem not_cons_lt_cons {c d : Char} (h : d < c) (cs ds : List Char) : ¬ c :: cs < d :: ds :=
  fun hlt => List.lt_asymm (List.cons_lt_cons_iff.2 (.inl h)) hlt

/-- Padding comes first. -/
theorem not_toDigits_lt {m : Nat} (hm : m ≠ 0) (ds : List Char) :
    ¬ Nat.toDigits 10 m < '0' :: ds := by
  have hd := isDigits_toDigits m
  have hz := head_toDigits hm
  obtain ⟨c, cs, hcs⟩ := List.exists_cons_of_ne_nil hd.ne_nil
  rw [hcs] at hd hz ⊢
  have hc : c ≠ '0' := fun h => hz (congrArg some h)
  exact not_cons_lt_cons ((lt_of_isDigit (hd.digits c List.mem_cons_self)).2 hc) cs ds

/-- So does a plus sign. -/
theorem not_digits_lt_plus (n : Int64) (ds : List Char) : ¬ digits n < '+' :: ds := by
  have hdecimal : IsDecimal n (digits n) := isDecimal_iff.2 rfl
  generalize digits n = own at hdecimal
  cases hdecimal with
  | unsigned hd =>
    obtain ⟨c, cs, rfl⟩ := List.exists_cons_of_ne_nil hd.ne_nil
    exact not_cons_lt_cons (lt_of_isDigit (hd.digits c List.mem_cons_self)).1 cs ds
  | negative => exact not_cons_lt_cons (by decide) _ ds

/-- **No spelling of an integer other than zero lies above its decimal.** -/
theorem not_digits_lt {n : Int64} (hn : n ≠ 0) {cs : List Char} (h : ofSigned? cs = some n) :
    ¬ digits n < cs := by
  have hpos : ∀ m : Nat, n.toInt = m ∨ n.toInt = -m → m ≠ 0 := by
    rintro m hm rfl
    refine hn (Int64.toInt_inj.1 ?_)
    simpa using hm
  rcases ofSigned?_eq_some_iff.1 h with hl | ⟨ds, m, rfl, -⟩
  · cases hl with
    | @unsigned _ m hd hm =>
      by_cases hp : IsPadded cs
      · obtain ⟨-, hz, -⟩ := hp
        obtain ⟨rest, rfl⟩ := List.head?_eq_some_iff.1 hz
        rw [digits_of_toInt_eq hm]
        exact not_toDigits_lt (hpos m (.inl hm)) rest
      · rw [isDecimal_iff.1 (.unsigned hd hp hm)]
        exact List.lt_irrefl _
    | @negative ds m hd hm =>
      by_cases hz : ds.head? = some '0'
      · obtain ⟨rest, rfl⟩ := List.head?_eq_some_iff.1 hz
        have hm0 := hpos m (.inr hm)
        rw [digits_of_toInt_eq_neg hm0 hm, List.cons_lt_cons_iff]
        rintro (hlt | ⟨-, hlt⟩)
        · exact absurd hlt (by decide)
        · exact not_toDigits_lt hm0 rest hlt
      · rw [isDecimal_iff.1 (.negative hd hz hm)]
        exact List.lt_irrefl _
  · exact not_digits_lt_plus n ds

/-- The digits of zero are zeros. -/
theorem isDigits_zero_iff {ds : List Char} :
    IsDigits ds 0 ↔ ∃ k, ds = List.replicate (k + 1) '0' := by
  apply Iff.intro
  · intro h
    induction ds with
    | nil => exact absurd rfl h.ne_nil
    | cons c ds ih =>
      by_cases hc : c = '0'
      · subst hc
        by_cases hds : ds = []
        · subst hds
          exact ⟨0, rfl⟩
        · obtain ⟨k, rfl⟩ := ih ⟨hds, fun d hd => h.digits d (List.mem_cons_of_mem _ hd), h.value⟩
          exact ⟨k + 1, rfl⟩
      · have hpos := (toDigits_ofDigitChars h.ne_nil h.digits fun hz => hc (Option.some.inj hz)).1
        rw [h.value] at hpos
        exact absurd hpos (Nat.lt_irrefl 0)
  · intro h
    obtain ⟨k, rfl⟩ := h
    refine ⟨by simp, fun d hd => ?_, ?_⟩
    · rw [List.eq_of_mem_replicate hd]
      rfl
    · induction k with
      | zero => rfl
      | succ k ih => exact ih

/-- Above the decimal of zero lie the spellings with more zeros. -/
theorem digits_zero_lt_iff {cs : List Char} :
    ofSigned? cs = some 0 ∧ digits 0 < cs ↔ ∃ k, cs = List.replicate (k + 2) '0' := by
  apply Iff.intro
  · intro h
    obtain ⟨hcs, hlt⟩ := h
    rcases ofSigned?_eq_some_iff.1 hcs with hl | ⟨ds, m, rfl, -⟩
    · cases hl with
      | @unsigned _ m hd hm =>
        obtain rfl : m = 0 := Int.natCast_eq_zero.1 hm.symm
        obtain ⟨k, rfl⟩ := isDigits_zero_iff.1 hd
        cases k with
        | zero => exact absurd hlt (List.lt_irrefl _)
        | succ k => exact ⟨k, rfl⟩
      | negative => exact absurd hlt (not_cons_lt_cons (by decide) _ _)
    · exact absurd hlt (not_digits_lt_plus 0 ds)
  · intro h
    obtain ⟨k, rfl⟩ := h
    have hd : IsDigits (List.replicate (k + 2) '0') 0 := isDigits_zero_iff.2 ⟨k + 1, rfl⟩
    refine ⟨ofSigned?_eq_some_iff.2 (.inl (.unsigned hd rfl)), ?_⟩
    show ['0'] < '0' :: List.replicate (k + 1) '0'
    exact List.cons_lt_cons_iff.2 (.inr ⟨rfl, List.nil_lt_cons _ _⟩)

end Integer

/-! ### Keys that prevail -/

/-- No branch under a higher key is for the same numbers. -/
def Branches.Prevails (bs : Branches) (k : String) : Prop :=
  ∀ b ∈ bs, PluralKey.ofString? b.1 = PluralKey.ofString? k → ¬ k < b.1

instance (bs : Branches) (k : String) : Decidable (bs.Prevails k) :=
  inferInstanceAs (Decidable (∀ b ∈ bs, _ → _))

theorem ofString?_exactKey (n : Int64) : PluralKey.ofString? (exactKey n) = some (.exact n) :=
  PluralKey.ofString?_eq_exact_iff.2 ⟨_, toList_exactKey n, ofSigned?_digits n⟩

theorem exactKey_lt_iff {n : Int64} {k : String} {literal : List Char}
    (h : k.toList = '=' :: literal) : exactKey n < k ↔ Integer.digits n < literal := by
  show (exactKey n).toList < k.toList ↔ _
  rw [toList_exactKey, h, List.cons_lt_cons_iff]
  simp

/-- **The decimal of an integer prevails, unless it is zero.** -/
theorem Branches.prevails_exactKey {n : Int64} (hn : n ≠ 0) (bs : Branches) :
    bs.Prevails (exactKey n) := by
  intro b hb hsame hlt
  obtain ⟨literal, hliteral, hspells⟩ :=
    PluralKey.ofString?_eq_exact_iff.1 (hsame.trans (ofString?_exactKey n))
  exact Integer.not_digits_lt hn hspells ((exactKey_lt_iff hliteral).1 hlt)

/-- That of zero prevails unless a key has more zeros. -/
theorem Branches.prevails_exactKey_zero_iff {bs : Branches} : bs.Prevails (exactKey 0) ↔
    ∀ b ∈ bs, ∀ k, b.1.toList ≠ '=' :: List.replicate (k + 2) '0' := by
  apply Iff.intro
  · intro h b hb k hk
    obtain ⟨hspells, hlt⟩ := Integer.digits_zero_lt_iff.2 ⟨k, rfl⟩
    refine h b hb ?_ ((exactKey_lt_iff hk).2 hlt)
    rw [ofString?_exactKey]
    exact PluralKey.ofString?_eq_exact_iff.2 ⟨_, hk, hspells⟩
  · intro h b hb hsame hlt
    obtain ⟨literal, hliteral, hspells⟩ :=
      PluralKey.ofString?_eq_exact_iff.1 (hsame.trans (ofString?_exactKey 0))
    obtain ⟨k, rfl⟩ :=
      Integer.digits_zero_lt_iff.1 ⟨hspells, (exactKey_lt_iff hliteral).1 hlt⟩
    exact h b hb k hliteral

/-! ### Branches that are kept -/

variable {limit depth : Nat} {binding? : Option Binding} {b : Binding} {bs : Branches}
  {entries : List (PluralKey × Block)}

theorem isSome_lookup_iff_of_dedup {keys : List (Option PluralKey)}
    (h : (entries.map (·.1)).map some = keys.dedup) {key : PluralKey} :
    (entries.lookup key).isSome = true ↔ some key ∈ keys := by
  have hmem : some key ∈ keys.dedup ↔ some key ∈ keys := List.mem_dedup
  rw [isSome_lookup_iff, ← hmem, ← h]
  simp

/-- The entries have what the keys are read as, each once. -/
theorem keys_compilePlural (h : Branches.compilePlural limit b depth bs = .ok entries) :
    (entries.map (·.1)).map some = (bs.map fun b => PluralKey.ofString? b.1).dedup := by
  induction bs generalizing entries with
  | nil =>
    cases h
    rfl
  | cons e bs ih =>
    obtain ⟨key, block, rest, hkey, -, hrest, rfl⟩ := Branches.compilePlural_cons_eq_ok h
    have hkeys := ih hrest
    have hgiven : (rest.lookup key).isSome = true ↔
        some key ∈ bs.map fun b => PluralKey.ofString? b.1 := isSome_lookup_iff_of_dedup hkeys
    rw [List.map_cons, hkey, pushUnlessGiven]
    by_cases hmem : some key ∈ bs.map fun b => PluralKey.ofString? b.1
    · rw [if_pos (hgiven.2 hmem), List.dedup_cons_of_mem hmem, hkeys]
    · rw [if_neg fun h => hmem (hgiven.1 h), List.dedup_cons_of_notMem hmem, ← hkeys]
      rfl

theorem nodup_keys_compilePlural (h : Branches.compilePlural limit b depth bs = .ok entries) :
    (entries.map (·.1)).Nodup := by
  have hnodup := List.nodup_dedup (bs.map fun b => PluralKey.ofString? b.1)
  rw [← keys_compilePlural h] at hnodup
  exact hnodup.of_map _

theorem length_compilePlural (h : Branches.compilePlural limit b depth bs = .ok entries) :
    entries.length = (bs.map fun b => PluralKey.ofString? b.1).dedup.length := by
  rw [← keys_compilePlural h, List.length_map, List.length_map]

/-- What no key denotes has no entry. -/
theorem lookup_compilePlural_eq_none (h : Branches.compilePlural limit b depth bs = .ok entries)
    {key : PluralKey} (hnew : ∀ b ∈ bs, PluralKey.ofString? b.1 ≠ some key) :
    entries.lookup key = none := by
  rw [← Option.not_isSome_iff_eq_none, isSome_lookup_iff_of_dedup (keys_compilePlural h),
    List.mem_map]
  rintro ⟨e, he, hkey⟩
  exact hnew e he hkey

/-- **A branch whose key prevails has the entry of what its key denotes.** -/
theorem lookup_compilePlural_of_prevails (hbs : Ascending bs)
    (h : Branches.compilePlural limit b depth bs = .ok entries) {k : String} {m : Message}
    (hm : (k, m) ∈ bs) (hk : bs.Prevails k) : ∃ key block, PluralKey.ofString? k = some key ∧
      Message.compileParts limit (some b) (depth + 1) m = .ok block ∧
      entries.lookup key = some block := by
  induction bs generalizing entries with
  | nil => cases hm
  | cons e bs ih =>
    obtain ⟨key, block, rest, hkey, hblock, hrest, rfl⟩ := Branches.compilePlural_cons_eq_ok h
    obtain ⟨hbelow, hbs⟩ := List.pairwise_cons.1 hbs
    rcases List.mem_cons.1 hm with rfl | hm
    · have hnone : rest.lookup key = none := by
        refine lookup_compilePlural_eq_none hrest fun b hb hsame => ?_
        exact hk b (List.mem_cons_of_mem _ hb) (hsame.trans hkey.symm) (hbelow b hb)
      refine ⟨key, block, hkey, hblock, ?_⟩
      rw [pushUnlessGiven, hnone]
      exact List.lookup_cons_self
    · obtain ⟨key', block', hkey', hblock', hlookup⟩ :=
        ih hbs hrest hm fun b hb => hk b (List.mem_cons_of_mem _ hb)
      refine ⟨key', block', hkey', hblock', ?_⟩
      rw [pushUnlessGiven]
      split
      next => exact hlookup
      next hgiven =>
        have hne : (key' == key) = false := by
          rw [beq_eq_false_iff_ne]
          rintro rfl
          exact hgiven (by rw [hlookup]; rfl)
        rw [List.lookup_cons, hne]
        exact hlookup

/-- Every branch is kept just when every key prevails. -/
theorem length_dedup_eq_iff (hbs : Ascending bs) :
    (bs.map fun b => PluralKey.ofString? b.1).dedup.length = bs.length ↔
      ∀ b ∈ bs, bs.Prevails b.1 := by
  have hnodup : bs.Nodup := hbs.imp fun hlt heq => absurd (heq ▸ hlt) (String.lt_irrefl _)
  have hlength : (bs.map fun b => PluralKey.ofString? b.1).length = bs.length := List.length_map _
  rw [← hlength, (List.dedup_sublist _).length_eq, List.dedup_eq_self]
  apply Iff.intro
  · intro h b hb b' hb' hsame hlt
    obtain rfl := (List.nodup_map_iff_inj_on hnodup).1 h b' hb' b hb hsame
    exact absurd hlt (String.lt_irrefl _)
  · intro h
    refine List.pairwise_map.2 (hbs.imp_of_mem fun {a b} ha hb hlt hsame => ?_)
    exact h a ha b hb hsame.symm hlt

/-! ### Branches that run -/

/-- For what the key denotes the node runs the block: for the integer itself, or for any
integer that no key denotes if the category of its operand is the one answered. -/
def Node.Takes (node : Node) (a : String) (o : Bool) (offset : Int64) (bs : Branches)
    (block : Block) : PluralKey → Prop
  | .exact n => ∀ (c : Context) (out : String), c.args.integer a = .ok n →
      node.run c out = Block.run c block out
  | .category answer => ∀ (c : Context) (out : String) (n x : Int64)
      (resolve : Question → Category),
      c.args.integer a = .ok n → (∀ b ∈ bs, ¬ IsExactKey n b.1) →
      Integer.sub? n offset = some x → resolve ⟨c.locale, x, o⟩ = answer →
      (node.run c out).answer resolve = (Block.run c block out).answer resolve

theorem takes_of_lookup {a : String} {o : Bool} {offset : Int64}
    (h : Branches.compilePlural limit ⟨a, offset⟩ depth bs = .ok entries) {other : Block}
    (hother : entries.lookup otherKey = some other) {key : PluralKey} {block : Block}
    (hblock : entries.lookup key = some block) :
    (Node.plural ⟨a, offset⟩ o (entries.filter (·.1 ≠ otherKey)) other).Takes a o offset bs
      block key := by
  cases key with
  | exact n =>
    intro c out hn
    rw [Node.run_plural_filter hother, hn]
    show ((entries.lookup (.exact n)).map fun block => Block.run c block out).getD _ = _
    rw [hblock]
    rfl
  | category answer =>
    intro c out n x resolve hn hnone hx hanswer
    have hexact : entries.lookup (.exact n) = none := by
      refine lookup_compilePlural_eq_none h fun b hb hkey => ?_
      exact hnone b hb (PluralKey.ofString?_eq_exact_iff.1 hkey)
    have hoperand : Binding.operand ⟨a, offset⟩ n = .ok x := Binding.operand_eq_ok_iff.2 hx
    rw [Node.run_plural_filter hother, hn]
    show (((entries.lookup (.exact n)).map fun block => Block.run c block out).getD _).answer
      resolve = _
    rw [hexact, hoperand]
    show (Block.run c ((entries.lookup (.category (resolve ⟨c.locale, x, o⟩))).getD other)
      out).answer resolve = _
    rw [hanswer, hblock]
    rfl

/-- **A compiled plural keeps of the branches for the same numbers the one that prevails**, and
runs it for what its key denotes. It keeps all of them just when all prevail, and the branch under
the decimal of an integer always, unless that is zero and spelled with more zeros as well. -/
theorem plural_keeps_prevailing {limit depth : Nat} {binding? : Option Binding} {a : String}
    {o : Bool} {offset : Int64} {bs : Branches} {node : Node} (hbs : Ascending bs)
    (h : (Part.plural a o offset bs).compile limit binding? depth = .ok node) :
    (∃ branches other, node = .plural ⟨a, offset⟩ o branches other ∧
      branches.length + 1 = (bs.map fun b => PluralKey.ofString? b.1).dedup.length ∧
      (branches.length + 1 = bs.length ↔ ∀ b ∈ bs, bs.Prevails b.1)) ∧
    (∀ k m, (k, m) ∈ bs → bs.Prevails k → ∃ key block, PluralKey.ofString? k = some key ∧
      Message.compileParts limit (some ⟨a, offset⟩) (depth + 1) m = .ok block ∧
      node.Takes a o offset bs block key) ∧
    (∀ n, bs.Prevails (exactKey n) ↔
      (n = 0 → ∀ b ∈ bs, ∀ k, b.1.toList ≠ '=' :: List.replicate (k + 2) '0')) := by
  obtain ⟨entries, other, hentries, hother, rfl⟩ := Part.compile_plural_eq_ok h
  have hlength : (entries.filter (·.1 ≠ otherKey)).length + 1 = entries.length := by
    refine length_filter_ne (nodup_keys_compilePlural hentries) (isSome_lookup_iff.1 ?_)
    rw [hother]
    rfl
  refine ⟨⟨_, other, rfl, ?_, ?_⟩, fun k m hm hk => ?_, fun n => ?_⟩
  · rw [hlength, length_compilePlural hentries]
  · rw [hlength, length_compilePlural hentries, length_dedup_eq_iff hbs]
  · obtain ⟨key, block, hkey, hblock, hlookup⟩ :=
      lookup_compilePlural_of_prevails hbs hentries hm hk
    exact ⟨key, block, hkey, hblock, takes_of_lookup hentries hother hlookup⟩
  · by_cases hn : n = 0
    · subst hn
      exact Branches.prevails_exactKey_zero_iff.trans ⟨fun h _ => h, fun h => h rfl⟩
    · exact iff_of_true (bs.prevails_exactKey hn) fun h => absurd h hn

theorem plural_keeps_prevailing_zeros :
    (Node.plural ⟨"n", 0⟩ false [(.exact 0, [.text "double zero"])] [.text "other"]).Takes
      "n" false 0
      [("=0", [.text "zero"]), ("=00", [.text "double zero"]), ("other", [.text "other"])]
      [.text "double zero"] (.exact 0) := by
  have h : (Part.plural "n" false 0 [("=0", [.text "zero"]), ("=00", [.text "double zero"]),
      ("other", [.text "other"])]).compile 64 none 0 =
      .ok (.plural ⟨"n", 0⟩ false [(.exact 0, [.text "double zero"])] [.text "other"]) := rfl
  obtain ⟨key, block, hkey, hblock, htakes⟩ :=
    (plural_keeps_prevailing (by decide) h).2.1 "=00" [.text "double zero"] (by simp) (by decide)
  cases hkey
  cases hblock
  exact htakes

/-- The branch under the decimal of an integer is not always kept. -/
theorem not_forall_exactKey_taken :
    ¬ ∀ (limit depth : Nat) (binding? : Option Binding) (a : String) (o : Bool) (offset : Int64)
      (bs : Branches) (node : Node), Ascending bs →
      (Part.plural a o offset bs).compile limit binding? depth = .ok node →
      ∀ n m block, (exactKey n, m) ∈ bs →
        Message.compileParts limit (some ⟨a, offset⟩) (depth + 1) m = .ok block →
        node.Takes a o offset bs block (.exact n) := by
  intro h
  have hzero := h 64 0 none "n" false 0
    [("=0", [.text "zero"]), ("=00", [.text "double zero"]), ("other", [.text "other"])] _
    (by decide) rfl 0 [.text "zero"] [.text "zero"] (by decide) rfl
    ⟨⟨⟨"en", none, none, []⟩, [], [], [], []⟩, .ofList [("n", .integer 0)], .plain⟩ "" rfl
  have hanswer := congrArg (Run.answer fun _ => .other) hzero
  exact absurd hanswer (by decide)

end MessagePattern
