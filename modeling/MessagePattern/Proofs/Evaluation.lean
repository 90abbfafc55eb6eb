import MessagePattern.Format.Evaluate
import MessagePattern.Message.Basic
import MessagePattern.Proofs.Canonical
import MessagePattern.Proofs.Log

/-! What a message stands for.

A message can be evaluated without being compiled: the rules here read its branches
where they are and take the key of an integer by what it denotes. They say of each part how
the text before it goes on or which error it gives, and what it asks a resolver.

The rules know of no order among the keys of an argument, and where two keys of one
plural denote the same integer they allow both branches. `Message.Unambiguous` excludes
that; a canonical message is unambiguous (`ordered_and_unambiguous`), as the keys in it
have only one spelling. -/
namespace MessagePattern

open Plural (Category)

/-- The key is an equals sign and an integer of any spelling. -/
def IsExactKey (n : Int64) (key : String) : Prop :=
  ∃ literal, key.toList = '=' :: literal ∧ Integer.ofSigned? literal = some n

mutual

/-- Behind the text `out` the part gives `r` and asks what the log holds, if it is answered as
the log says. The marker stands for the operand of `binding?`. -/
inductive Part.Evaluates (c : Context) : (binding? : Option Binding) → Part → (out : String) →
    Log → Except FormatError String → Prop where
  | text {binding? value out} :
      Part.Evaluates c binding? (.text value) out [] (.ok (out ++ value))
  | plain {binding? a out} :
      Part.Evaluates c binding? (.plain a) out [] ((c.args.string a).map (out ++ ·))
  /-- The formatter is given the text as well as the value. -/
  | simple {binding? a t s out} :
      Part.Evaluates c binding? (.simple a t s) out [] (c.typed a t s out)
  | selectFault {binding? a bs out e} : c.args.string a = .error e →
      Part.Evaluates c binding? (.select a bs) out [] (.error e)
  | select {binding? a bs out value m log r} : c.args.string a = .ok value → (value, m) ∈ bs →
      Message.Evaluates c none m out log r → Part.Evaluates c binding? (.select a bs) out log r
  /-- No branch of a select stands in for another. -/
  | unmatched {binding? a bs out value} : c.args.string a = .ok value →
      (∀ b ∈ bs, b.1 ≠ value) →
      Part.Evaluates c binding? (.select a bs) out [] (.error (.ofKeys a value (bs.map (·.1))))
  | pluralFault {binding? a o offset bs out e} : c.args.integer a = .error e →
      Part.Evaluates c binding? (.plural a o offset bs) out [] (.error e)
  /-- The branch of the integer itself: nothing is taken off and nothing asked. -/
  | exact {binding? a o offset bs out n key m log r} : c.args.integer a = .ok n →
      IsExactKey n key → (key, m) ∈ bs → Message.Evaluates c (some ⟨a, offset⟩) m out log r →
      Part.Evaluates c binding? (.plural a o offset bs) out log r
  | overflow {binding? a o offset bs out n} : c.args.integer a = .ok n →
      (∀ b ∈ bs, ¬ IsExactKey n b.1) → Integer.sub? n offset = none →
      Part.Evaluates c binding? (.plural a o offset bs) out [] (.error (.overflow a))
  /-- The branch of the category that the operand is said to be of. -/
  | category {binding? a o offset bs out n k answer m log r} : c.args.integer a = .ok n →
      (∀ b ∈ bs, ¬ IsExactKey n b.1) → Integer.sub? n offset = some k →
      (answer.keyword, m) ∈ bs → Message.Evaluates c (some ⟨a, offset⟩) m out log r →
      Part.Evaluates c binding? (.plural a o offset bs) out ((⟨c.locale, k, o⟩, answer) :: log) r
  /-- The branch for all other numbers. -/
  | other {binding? a o offset bs out n k answer m log r} : c.args.integer a = .ok n →
      (∀ b ∈ bs, ¬ IsExactKey n b.1) → Integer.sub? n offset = some k →
      (∀ b ∈ bs, b.1 ≠ Category.keyword answer) → (Category.other.keyword, m) ∈ bs →
      Message.Evaluates c (some ⟨a, offset⟩) m out log r →
      Part.Evaluates c binding? (.plural a o offset bs) out ((⟨c.locale, k, o⟩, answer) :: log) r
  | markerFault {a offset out e} : c.args.integer a = .error e →
      Part.Evaluates c (some ⟨a, offset⟩) .marker out [] (.error e)
  | markerOverflow {a offset out n} : c.args.integer a = .ok n → Integer.sub? n offset = none →
      Part.Evaluates c (some ⟨a, offset⟩) .marker out [] (.error (.overflow a))
  | marker {a offset out n k} : c.args.integer a = .ok n → Integer.sub? n offset = some k →
      Part.Evaluates c (some ⟨a, offset⟩) .marker out [] (.ok (out ++ Integer.decimal k))

/-- The parts from left to right, each behind the text of those before it, up to the first
error. -/
inductive Message.Evaluates (c : Context) : (binding? : Option Binding) → List Part →
    (out : String) → Log → Except FormatError String → Prop where
  | nil {binding? out} : Message.Evaluates c binding? [] out [] (.ok out)
  | fault {binding? p ps out log e} : Part.Evaluates c binding? p out log (.error e) →
      Message.Evaluates c binding? (p :: ps) out log (.error e)
  | cons {binding? p ps out out' log log' r} : Part.Evaluates c binding? p out log (.ok out') →
      Message.Evaluates c binding? ps out' log' r →
      Message.Evaluates c binding? (p :: ps) out (log ++ log') r

end

/-! ### Unambiguous messages -/

mutual

/-- In no plural of the part do two keys denote the same integer. -/
def Part.Unambiguous : Part → Prop
  | .text _ | .plain _ | .simple _ _ _ | .marker => True
  | .select _ bs => Branches.Unambiguous bs
  | .plural _ _ _ bs =>
    (∀ a ∈ bs, ∀ b ∈ bs, ∀ n, IsExactKey n a.1 → IsExactKey n b.1 → a.1 = b.1) ∧
      Branches.Unambiguous bs

/-- Every part of the message is unambiguous. -/
def Message.Unambiguous : List Part → Prop
  | [] => True
  | p :: ps => p.Unambiguous ∧ Message.Unambiguous ps

/-- Every message under a key is unambiguous. -/
def Branches.Unambiguous : List (String × List Part) → Prop
  | [] => True
  | (_, m) :: bs => Message.Unambiguous m ∧ Branches.Unambiguous bs

end

theorem Branches.unambiguous_iff {bs : Branches} :
    Branches.Unambiguous bs ↔ ∀ b ∈ bs, Message.Unambiguous b.2 := by
  induction bs with
  | nil => simp [Branches.Unambiguous]
  | cons b bs ih =>
    obtain ⟨k, m⟩ := b
    rw [Branches.Unambiguous, ih, List.forall_mem_cons]

/-! ### Canonical messages are unambiguous -/

theorem ofSigned?_digits (n : Int64) : Integer.ofSigned? (Integer.digits n) = some n := by
  have hplus : ∀ ds, Integer.digits n ≠ '+' :: ds := by
    intro ds h
    rcases Integer.isDecimal_iff.2 h.symm with ⟨hd, -, -⟩
    exact absurd (hd.digits '+' List.mem_cons_self) (by decide)
  unfold Integer.ofSigned?
  split
  next ds h => exact absurd h (hplus ds)
  next => exact Integer.ofLiteral?_digits n

/-- A key of a plural denotes an integer only as its decimal. -/
theorem IsExactKey.eq_of_isKey {n : Int64} {k : String} (h : IsExactKey n k)
    (hk : IsKey true k.toList) : k.toList = '=' :: Integer.digits n := by
  obtain ⟨literal, heq, hn⟩ := h
  rw [heq] at hk ⊢
  cases hk with
  | word hw => exact absurd (hw.identifier '=' List.mem_cons_self) (by decide)
  | @exact k _ hd =>
    obtain rfl := Integer.isDecimal_iff.1 hd
    rw [ofSigned?_digits] at hn
    rw [Option.some.inj hn]

theorem Message.Canonical.ordered_and_unambiguous {m : Message} :
    ∀ {inPlural}, Message.Canonical inPlural m → Message.Ordered m ∧ Message.Unambiguous m := by
  have hbranches : ∀ {inPlural} {bs : Branches},
      (∀ b ∈ bs, ∀ {inPlural}, Message.Canonical inPlural b.2 →
        Message.Ordered b.2 ∧ Message.Unambiguous b.2) →
      Branches.Canonical inPlural bs → Branches.Ordered bs ∧ Branches.Unambiguous bs := by
    intro inPlural bs ih h
    have hall : ∀ b ∈ bs, Message.Ordered b.2 ∧ Message.Unambiguous b.2 :=
      fun b hb => ih b hb (Branches.canonical_iff.1 h b hb).2
    exact ⟨Branches.ordered_iff.2 fun b hb => (hall b hb).1,
      Branches.unambiguous_iff.2 fun b hb => (hall b hb).2⟩
  induction m using Message.induction with
  | nil => exact fun _ => ⟨trivial, trivial⟩
  | text value rest ih => exact fun h => ⟨⟨trivial, (ih h.2.2).1⟩, trivial, (ih h.2.2).2⟩
  | plain a rest ih => exact fun h => ⟨⟨trivial, (ih h.2.2).1⟩, trivial, (ih h.2.2).2⟩
  | simple a t s rest ih => exact fun h => ⟨⟨trivial, (ih h.2.2).1⟩, trivial, (ih h.2.2).2⟩
  | marker rest ih => exact fun h => ⟨⟨trivial, (ih h.2.2).1⟩, trivial, (ih h.2.2).2⟩
  | select a bs rest ihb ih =>
    intro inPlural h
    obtain ⟨-, -, hasc, hbs⟩ := h.1
    obtain ⟨ho, hu⟩ := hbranches ihb hbs
    exact ⟨⟨⟨hasc, ho⟩, (ih h.2.2).1⟩, hu, (ih h.2.2).2⟩
  | plural a o offset bs rest ihb ih =>
    intro inPlural h
    obtain ⟨-, -, hasc, hbs⟩ := h.1
    obtain ⟨ho, hu⟩ := hbranches ihb hbs
    refine ⟨⟨⟨hasc, ho⟩, (ih h.2.2).1⟩, ⟨?_, hu⟩, (ih h.2.2).2⟩
    intro x hx y hy n hnx hny
    have hkeys := Branches.canonical_iff.1 hbs
    rw [← String.toList_inj, hnx.eq_of_isKey (hkeys x hx).1, hny.eq_of_isKey (hkeys y hy).1]

end MessagePattern
