import MessagePattern.Proofs.Compilation
import MessagePattern.Proofs.Entries
import MessagePattern.Proofs.Evaluation

/-! Compiled messages do what the messages say.

A block refines a message when behind every text its run yields just what the rules of
evaluation give, along the same logs (`Block.Refines`). Each part is compiled to a node that
refines it, provided that its branches are; `faithful` puts the nodes together by induction
on the message. `compileFor_refines` is the whole message under every resolver. -/
namespace MessagePattern

open Plural (Category Question)

variable {c : Context} {binding? : Option Binding}

/-! ### Keys -/

/-- The keys of an unambiguous plural are read as different keys. -/
theorem pairwise_ofString? {bs : Branches} (hasc : Ascending bs)
    (hexact : ∀ a ∈ bs, ∀ b ∈ bs, ∀ n, IsExactKey n a.1 → IsExactKey n b.1 → a.1 = b.1) :
    bs.Pairwise fun a b => ∀ key, PluralKey.ofString? a.1 = some key →
      PluralKey.ofString? b.1 ≠ some key := by
  refine hasc.pairwise_ne.imp_of_mem fun {a b} ha hb hne key hka hkb => ?_
  cases key with
  | exact n =>
    rw [PluralKey.ofString?_eq_exact_iff] at hka hkb
    exact hne (hexact a ha b hb n hka hkb)
  | category answer =>
    rw [PluralKey.ofString?_eq_category_iff] at hka hkb
    exact hne (hka.trans hkb.symm)

/-! ### Branches -/

/-- The entries are the branches, each under what its key is read as, and as far as `R`
says of their messages. -/
structure Corresponds {κ : Type} [BEq κ] (read : String → Option κ) (R : Message → Block → Prop)
    (bs : Branches) (entries : List (κ × Block)) : Prop where
  found : ∀ k m, (k, m) ∈ bs → ∃ key block, read k = some key ∧ R m block ∧
    entries.lookup key = some block
  given : ∀ key block, entries.lookup key = some block → ∃ k m, (k, m) ∈ bs ∧
    read k = some key ∧ R m block

section
variable {κ : Type} [BEq κ] {read : String → Option κ} {R S : Message → Block → Prop}
  {bs : Branches} {entries : List (κ × Block)}

theorem Corresponds.nil : Corresponds read R [] ([] : List (κ × Block)) :=
  ⟨fun _ _ h => (nomatch h), fun _ _ h => (nomatch h)⟩

theorem Corresponds.imp (h : Corresponds read R bs entries)
    (hRS : ∀ b ∈ bs, ∀ block, R b.2 block → S b.2 block) : Corresponds read S bs entries := by
  refine ⟨fun k m hm => ?_, fun key block hb => ?_⟩
  · obtain ⟨key, block, hk, hR, hb⟩ := h.found k m hm
    exact ⟨key, block, hk, hRS (k, m) hm block hR, hb⟩
  · obtain ⟨k, m, hm, hk, hR⟩ := h.given key block hb
    exact ⟨k, m, hm, hk, hRS (k, m) hm block hR⟩

/-- A key under which no branch is read finds no entry. -/
theorem Corresponds.lookup_eq_none (h : Corresponds read R bs entries) {key : κ}
    (hnew : ∀ b ∈ bs, read b.1 ≠ some key) : entries.lookup key = none := by
  cases hb : entries.lookup key with
  | none => rfl
  | some block =>
    obtain ⟨k, m, hm, hk, -⟩ := h.given key block hb
    exact absurd hk (hnew (k, m) hm)

theorem Corresponds.ne_of_lookup_eq_none (h : Corresponds read R bs entries) {key : κ}
    (hnone : entries.lookup key = none) : ∀ b ∈ bs, read b.1 ≠ some key := by
  rintro ⟨k, m⟩ hm hk
  obtain ⟨key', block, hk', -, hb⟩ := h.found k m hm
  obtain rfl := Option.some.inj (hk.symm.trans hk')
  rw [hnone] at hb
  cases hb

theorem Corresponds.lookup_eq_some (h : Corresponds read R bs entries) {k : String} {m : Message}
    (hm : (k, m) ∈ bs) {key : κ} (hk : read k = some key) :
    ∃ block, R m block ∧ entries.lookup key = some block := by
  obtain ⟨key', block, hk', hR, hb⟩ := h.found k m hm
  obtain rfl := Option.some.inj (hk.symm.trans hk')
  exact ⟨block, hR, hb⟩

theorem Corresponds.cons [LawfulBEq κ] (h : Corresponds read R bs entries) {k : String}
    {m : Message} {key : κ} {block : Block} (hk : read k = some key) (hR : R m block)
    (hnew : ∀ b ∈ bs, read b.1 ≠ some key) :
    Corresponds read R ((k, m) :: bs) ((key, block) :: entries) := by
  refine ⟨fun k' m' hm => ?_, fun key' block' hb => ?_⟩
  · rcases List.mem_cons.1 hm with heq | hm
    · cases heq
      exact ⟨key, block, hk, hR, List.lookup_cons_self⟩
    · obtain ⟨key', block', hk', hR', hb'⟩ := h.found k' m' hm
      have hne : (key' == key) = false := by
        rw [beq_eq_false_iff_ne]
        intro h
        subst h
        exact hnew (k', m') hm hk'
      exact ⟨key', block', hk', hR', by rw [List.lookup_cons, hne]; exact hb'⟩
  · rw [List.lookup_cons] at hb
    cases hkey : key' == key with
    | true =>
      rw [hkey] at hb
      obtain rfl := Option.some.inj hb
      obtain rfl := eq_of_beq hkey
      exact ⟨k, m, List.mem_cons_self, hk, hR⟩
    | false =>
      rw [hkey] at hb
      obtain ⟨k', m', hm, hk', hR'⟩ := h.given key' block' hb
      exact ⟨k', m', List.mem_cons_of_mem _ hm, hk', hR'⟩

end

/-- An integer has no entry just when no key denotes it. -/
theorem Corresponds.lookup_exact_eq_none_iff {R : Message → Block → Prop} {bs : Branches}
    {entries : List (PluralKey × Block)} (h : Corresponds PluralKey.ofString? R bs entries)
    {n : Int64} : entries.lookup (.exact n) = none ↔ ∀ b ∈ bs, ¬ IsExactKey n b.1 := by
  simp only [← PluralKey.ofString?_eq_exact_iff]
  exact ⟨h.ne_of_lookup_eq_none, h.lookup_eq_none⟩

/-- A category has no entry just when no key is its keyword. -/
theorem Corresponds.lookup_category_eq_none_iff {R : Message → Block → Prop} {bs : Branches}
    {entries : List (PluralKey × Block)} (h : Corresponds PluralKey.ofString? R bs entries)
    {answer : Category} :
    entries.lookup (.category answer) = none ↔ ∀ b ∈ bs, b.1 ≠ answer.keyword := by
  simp only [ne_eq, ← PluralKey.ofString?_eq_category_iff]
  exact ⟨h.ne_of_lookup_eq_none, h.lookup_eq_none⟩

/-- The branches of a select correspond to their messages. -/
theorem corresponds_compileSelect {limit depth : Nat} {bs : Branches}
    {entries : List (String × Block)} (hasc : Ascending bs)
    (h : Branches.compileSelect limit depth bs = .ok entries) :
    Corresponds some (fun m block => Message.compileParts limit none (depth + 1) m = .ok block)
      bs entries := by
  induction bs generalizing entries with
  | nil =>
    cases h
    exact .nil
  | cons b bs ih =>
    obtain ⟨k, m⟩ := b
    obtain ⟨hhead, htail⟩ := List.pairwise_cons.1 hasc.pairwise_ne
    obtain ⟨block, rest, hblock, hrest, rfl⟩ := Branches.compileSelect_cons_eq_ok h
    refine (ih (List.pairwise_cons.1 hasc).2 hrest).cons rfl hblock fun b hb heq => ?_
    exact hhead b hb (Option.some.inj heq).symm

/-- The entries of a plural correspond to its branches, where no two of these are read
as one key. -/
theorem corresponds_compilePlural {limit depth : Nat} {b : Binding} {bs : Branches}
    {entries : List (PluralKey × Block)}
    (hkeys : bs.Pairwise fun a b => ∀ key, PluralKey.ofString? a.1 = some key →
      PluralKey.ofString? b.1 ≠ some key)
    (h : Branches.compilePlural limit b depth bs = .ok entries) :
    Corresponds PluralKey.ofString?
      (fun m block => Message.compileParts limit (some b) (depth + 1) m = .ok block)
      bs entries := by
  induction bs generalizing entries with
  | nil =>
    cases h
    exact .nil
  | cons e bs ih =>
    obtain ⟨k, m⟩ := e
    obtain ⟨hhead, htail⟩ := List.pairwise_cons.1 hkeys
    obtain ⟨key, block, rest, hkey, hblock, hrest, rfl⟩ := Branches.compilePlural_cons_eq_ok h
    have hcorr := ih htail hrest
    have hnew : ∀ e ∈ bs, PluralKey.ofString? e.1 ≠ some key := fun e he => hhead e he key hkey
    rw [pushUnlessGiven, hcorr.lookup_eq_none hnew]
    exact hcorr.cons hkey hblock hnew

/-! ### Nodes -/

/-- The node yields what the part gives. -/
def Node.Refines (c : Context) (binding? : Option Binding) (p : Part) (node : Node) : Prop :=
  ∀ out log r, (node.run c out).Yields log r ↔ p.Evaluates c binding? out log r

/-- The block yields what the message gives. -/
def Block.Refines (c : Context) (binding? : Option Binding) (m : Message) (block : Block) : Prop :=
  ∀ out log r, (Block.run c block out).Yields log r ↔ Message.Evaluates c binding? m out log r

/-- A node that asks nothing refines a part of one result. -/
theorem refines_done {p : Part} {node : Node} {x : String → Except FormatError String}
    (hrun : ∀ out, node.run c out = .done (x out))
    (heval : ∀ out, p.Evaluates c binding? out [] (x out))
    (honly : ∀ out log r, p.Evaluates c binding? out log r → log = [] ∧ r = x out) :
    Node.Refines c binding? p node := by
  intro out log r
  rw [hrun, Run.yields_done_iff]
  refine ⟨fun h => ?_, honly out log r⟩
  obtain ⟨rfl, rfl⟩ := h
  exact heval out

theorem refines_marker (c : Context) (b : Binding) :
    Node.Refines c (some b) .marker (.marker b) := by
  obtain ⟨a, offset⟩ := b
  have heval : ∀ out, Part.Evaluates c (some ⟨a, offset⟩) .marker out []
      ((c.marker ⟨a, offset⟩).map (out ++ ·)) := by
    intro out
    unfold Context.marker
    cases hn : c.args.integer a with
    | error e => exact .markerFault hn
    | ok n =>
      cases hk : Integer.sub? n offset with
      | none =>
        simp only [Binding.operand, hk]
        exact .markerOverflow hn hk
      | some k =>
        simp only [Binding.operand, hk]
        exact .marker hn hk
  refine refines_done (fun out => by rw [Node.run]) heval fun out log r h => ?_
  unfold Context.marker
  cases h with
  | markerFault hn => exact ⟨rfl, by rw [hn]; rfl⟩
  | markerOverflow hn hk => exact ⟨rfl, by simp only [hn, Binding.operand, hk]; rfl⟩
  | marker hn hk => exact ⟨rfl, by simp only [hn, Binding.operand, hk]; rfl⟩

theorem refines_select {a : String} {bs : Branches} {entries : List (String × Block)}
    (h : Corresponds some (Block.Refines c none) bs entries)
    (hkeys : entries.map (·.1) = bs.map (·.1)) :
    Node.Refines c binding? (.select a bs) (.select a entries) := by
  intro out log r
  simp only [Node.run, Block.runUnder_eq, hkeys]
  rw [Run.yields_done_bind_iff]
  apply Iff.intro
  · intro h
    rcases h with ⟨e, he, rfl, rfl⟩ | ⟨value, hvalue, hrun⟩
    · exact .selectFault he
    · cases hb : entries.lookup value with
      | none =>
        rw [hb] at hrun
        obtain ⟨rfl, rfl⟩ := Run.yields_done_iff.1 hrun
        refine .unmatched hvalue fun b hm heq => ?_
        exact h.ne_of_lookup_eq_none hb b hm (congrArg some heq)
      | some block =>
        rw [hb] at hrun
        obtain ⟨k, m, hm, hk, hR⟩ := h.given value block hb
        obtain rfl := Option.some.inj hk
        exact .select hvalue hm ((hR out log r).1 hrun)
  · intro heval
    cases heval with
    | selectFault he => exact .inl ⟨_, he, rfl, rfl⟩
    | @select _ _ _ _ value m _ _ hvalue hm heval =>
      obtain ⟨block, hR, hb⟩ := h.lookup_eq_some hm rfl
      refine .inr ⟨value, hvalue, ?_⟩
      rw [hb]
      exact (hR out log r).2 heval
    | @unmatched _ _ _ _ value hvalue hnone =>
      have hb : entries.lookup value = none :=
        h.lookup_eq_none fun b hm heq => hnone b hm (Option.some.inj heq)
      refine .inr ⟨value, hvalue, ?_⟩
      rw [hb]
      exact .done

/-- The run of a plural by look-ups among all of its entries. -/
theorem Node.run_plural_filter {b : Binding} {o : Bool} {entries : List (PluralKey × Block)}
    {other : Block} (hother : entries.lookup otherKey = some other) (out : String) :
    (Node.plural b o (entries.filter (·.1 ≠ otherKey)) other).run c out =
      (Run.done (c.args.integer b.argument)).bind fun n =>
        ((entries.lookup (.exact n)).map fun block => Block.run c block out).getD
          ((Run.done (b.operand n)).bind fun k =>
            (Run.category ⟨c.locale, k, o⟩).bind fun answer =>
              Block.run c ((entries.lookup (.category answer)).getD other) out) := by
  have hexact : ∀ n, (entries.filter (·.1 ≠ otherKey)).lookup (.exact n) =
      entries.lookup (.exact n) := by
    intro n
    rw [lookup_filter_ne, if_neg (by simp [otherKey])]
  have hcategory : ∀ answer, ((entries.filter (·.1 ≠ otherKey)).lookup (.category answer)).getD
      other = (entries.lookup (.category answer)).getD other := by
    intro answer
    rw [lookup_filter_ne]
    by_cases ho : PluralKey.category answer = otherKey
    · rw [if_pos ho, ho, hother]
      rfl
    · rw [if_neg ho]
  simp only [Node.run_plural, hexact, hcategory]

/-- Without a branch of its own an integer overflows, or a category is asked for and
chooses. -/
theorem yields_asked_iff {b : Binding} {o : Bool} {n : Int64} {f : Category → Run String}
    {log : Log} {r : Except FormatError String} :
    ((Run.done (b.operand n)).bind fun k =>
        (Run.category ⟨c.locale, k, o⟩).bind f).Yields log r ↔
      (Integer.sub? n b.offset = none ∧ log = [] ∧ r = .error (.overflow b.argument)) ∨
        ∃ k answer log', Integer.sub? n b.offset = some k ∧
          log = (⟨c.locale, k, o⟩, answer) :: log' ∧ (f answer).Yields log' r := by
  rw [Run.yields_done_bind_iff]
  apply Iff.intro
  · intro h
    rcases h with ⟨e, he, hlog, hr⟩ | ⟨k, hk, hask⟩
    · obtain ⟨hsub, rfl⟩ := Binding.operand_eq_error_iff.1 he
      exact .inl ⟨hsub, hlog, hr⟩
    · obtain ⟨answer, log', hlog, hf⟩ := Run.yields_category_bind_iff.1 hask
      exact .inr ⟨k, answer, log', Binding.operand_eq_ok_iff.1 hk, hlog, hf⟩
  · intro h
    rcases h with ⟨hsub, hlog, hr⟩ | ⟨k, answer, log', hsub, hlog, hf⟩
    · exact .inl ⟨_, Binding.operand_eq_error_iff.2 ⟨hsub, rfl⟩, hlog, hr⟩
    · refine .inr ⟨k, Binding.operand_eq_ok_iff.2 hsub, ?_⟩
      exact Run.yields_category_bind_iff.2 ⟨answer, log', hlog, hf⟩

theorem refines_plural {a : String} {o : Bool} {offset : Int64} {bs : Branches}
    {entries : List (PluralKey × Block)} {other : Block}
    (h : Corresponds PluralKey.ofString? (Block.Refines c (some ⟨a, offset⟩)) bs entries)
    (hother : entries.lookup otherKey = some other) :
    Node.Refines c binding? (.plural a o offset bs)
      (.plural ⟨a, offset⟩ o (entries.filter (·.1 ≠ otherKey)) other) := by
  intro out log r
  rw [Node.run_plural_filter hother, Run.yields_done_bind_iff]
  apply Iff.intro
  · intro hrun
    rcases hrun with ⟨e, he, rfl, rfl⟩ | ⟨n, hn, hrun⟩
    · exact .pluralFault he
    cases hb : entries.lookup (.exact n) with
    | some block =>
      rw [hb] at hrun
      obtain ⟨key, m, hm, hk, hR⟩ := h.given _ block hb
      exact .exact hn (PluralKey.ofString?_eq_exact_iff.1 hk) hm ((hR out log r).1 hrun)
    | none =>
      rw [hb] at hrun
      have hnone := h.lookup_exact_eq_none_iff.1 hb
      rcases yields_asked_iff.1 hrun with ⟨hsub, rfl, rfl⟩ | ⟨k, answer, log, hsub, rfl, hblock⟩
      · exact .overflow hn hnone hsub
      cases hanswer : entries.lookup (.category answer) with
      | some block =>
        rw [hanswer] at hblock
        obtain ⟨key, m, hm, hkey, hR⟩ := h.given _ block hanswer
        obtain rfl := PluralKey.ofString?_eq_category_iff.1 hkey
        exact .category hn hnone hsub hm ((hR out log r).1 hblock)
      | none =>
        rw [hanswer] at hblock
        obtain ⟨key, m, hm, hkey, hR⟩ := h.given _ other hother
        obtain rfl := PluralKey.ofString?_eq_category_iff.1 hkey
        have hunnamed := h.lookup_category_eq_none_iff.1 hanswer
        exact .other hn hnone hsub hunnamed hm ((hR out log r).1 hblock)
  · intro heval
    cases heval with
    | pluralFault he => exact .inl ⟨_, he, rfl, rfl⟩
    | @exact _ _ _ _ _ _ n key m _ _ hn hkey hm heval =>
      obtain ⟨block, hR, hb⟩ := h.lookup_eq_some hm (PluralKey.ofString?_eq_exact_iff.2 hkey)
      refine .inr ⟨n, hn, ?_⟩
      rw [hb]
      exact (hR out log r).2 heval
    | @overflow _ _ _ _ _ _ n hn hnone hsub =>
      refine .inr ⟨n, hn, ?_⟩
      rw [h.lookup_exact_eq_none_iff.2 hnone]
      exact yields_asked_iff.2 (.inl ⟨hsub, rfl, rfl⟩)
    | @category _ _ _ _ _ _ n k answer m log _ hn hnone hsub hm heval =>
      obtain ⟨block, hR, hb⟩ := h.lookup_eq_some hm (PluralKey.ofString?_eq_category_iff.2 rfl)
      refine .inr ⟨n, hn, ?_⟩
      rw [h.lookup_exact_eq_none_iff.2 hnone]
      refine yields_asked_iff.2 (.inr ⟨k, answer, log, hsub, rfl, ?_⟩)
      rw [hb]
      exact (hR out log r).2 heval
    | @other _ _ _ _ _ _ n k answer m log _ hn hnone hsub hunnamed hm heval =>
      obtain ⟨block, hR, hb⟩ := h.lookup_eq_some hm (PluralKey.ofString?_eq_category_iff.2 rfl)
      obtain rfl : block = other := Option.some.inj (hb.symm.trans hother)
      refine .inr ⟨n, hn, ?_⟩
      rw [h.lookup_exact_eq_none_iff.2 hnone]
      refine yields_asked_iff.2 (.inr ⟨k, answer, log, hsub, rfl, ?_⟩)
      rw [h.lookup_category_eq_none_iff.2 hunnamed]
      exact (hR out log r).2 heval

/-! ### Blocks -/

theorem refines_nil (c : Context) (binding? : Option Binding) :
    Block.Refines c binding? [] [] := by
  intro out log r
  rw [Block.run, Run.yields_done_iff]
  apply Iff.intro
  · intro h
    obtain ⟨rfl, rfl⟩ := h
    exact .nil
  · intro h
    cases h
    exact ⟨rfl, rfl⟩

theorem refines_cons {p : Part} {ps : Message} {node : Node} {block : Block}
    (hp : Node.Refines c binding? p node) (hps : Block.Refines c binding? ps block) :
    Block.Refines c binding? (p :: ps) (node :: block) := by
  intro out log r
  rw [Block.yields_cons_iff]
  apply Iff.intro
  · intro h
    rcases h with ⟨e, he, rfl⟩ | ⟨out', log₁, log₂, hout, hrest, rfl⟩
    · exact .fault ((hp out log _).1 he)
    · exact .cons ((hp out log₁ _).1 hout) ((hps out' log₂ r).1 hrest)
  · intro heval
    cases heval with
    | fault he => exact .inl ⟨_, (hp out log _).2 he, rfl⟩
    | @cons _ _ _ _ out' log₁ log₂ _ hout hr =>
      exact .inr ⟨out', log₁, log₂, (hp out log₁ _).2 hout, (hps out' log₂ r).2 hr, rfl⟩

/-! ### Compilation -/

/-- The node that the part compiles to refines it, under whatever marker and depth. -/
def Part.Faithful (c : Context) (limit : Nat) (p : Part) : Prop :=
  ∀ binding? depth node, p.Ordered → p.Unambiguous → p.compile limit binding? depth = .ok node →
    Node.Refines c binding? p node

/-- The block that the message compiles to refines it, under whatever marker and depth. -/
def Message.Faithful (c : Context) (limit : Nat) (m : Message) : Prop :=
  ∀ binding? depth block, Message.Ordered m → Message.Unambiguous m →
    Message.compileParts limit binding? depth m = .ok block → Block.Refines c binding? m block

variable {limit : Nat}

theorem faithful_cons {p : Part} {ps : Message} (hp : p.Faithful c limit)
    (hps : Message.Faithful c limit ps) : Message.Faithful c limit (p :: ps) := by
  intro binding? depth block ho hu h
  obtain ⟨node, rest, hnode, hrest, rfl⟩ := Message.compileParts_cons_eq_ok h
  exact refines_cons (hp binding? depth node ho.1 hu.1 hnode)
    (hps binding? depth rest ho.2 hu.2 hrest)

theorem faithful_text (value : String) : Part.Faithful c limit (.text value) := by
  intro binding? depth node _ _ h
  cases h
  refine refines_done (fun out => by rw [Node.run]) (fun _ => .text) fun out log r heval => ?_
  cases heval
  exact ⟨rfl, rfl⟩

theorem faithful_plain (a : String) : Part.Faithful c limit (.plain a) := by
  intro binding? depth node _ _ h
  cases h
  refine refines_done (fun out => by rw [Node.run]) (fun _ => .plain) fun out log r heval => ?_
  cases heval
  exact ⟨rfl, rfl⟩

theorem faithful_simple (a : String) (t : ArgumentType) (style : ArgumentStyle) :
    Part.Faithful c limit (.simple a t style) := by
  intro binding? depth node _ _ h
  rw [Part.compile] at h
  split at h
  next => cases h
  next =>
    cases h
    refine refines_done (fun out => by rw [Node.run]) (fun _ => .simple) fun out log r heval => ?_
    cases heval
    exact ⟨rfl, rfl⟩

theorem faithful_select {a : String} {bs : Branches}
    (hbs : ∀ b ∈ bs, Message.Faithful c limit b.2) : Part.Faithful c limit (.select a bs) := by
  intro binding? depth node ho hu h
  obtain ⟨entries, hentries, rfl⟩ := Part.compile_select_eq_ok h
  have hcorr := corresponds_compileSelect ho.1 hentries
  refine refines_select (hcorr.imp fun b hb block hblock => ?_) (keys_compileSelect hentries)
  exact hbs b hb none (depth + 1) block (Branches.ordered_iff.1 ho.2 b hb)
    (Branches.unambiguous_iff.1 hu b hb) hblock

theorem faithful_plural {a : String} {o : Bool} {offset : Int64} {bs : Branches}
    (hbs : ∀ b ∈ bs, Message.Faithful c limit b.2) :
    Part.Faithful c limit (.plural a o offset bs) := by
  intro binding? depth node ho hu h
  obtain ⟨entries, other, hentries, hother, rfl⟩ := Part.compile_plural_eq_ok h
  have hcorr := corresponds_compilePlural (pairwise_ofString? ho.1 hu.1) hentries
  refine refines_plural (hcorr.imp fun b hb block hblock => ?_) hother
  exact hbs b hb (some ⟨a, offset⟩) (depth + 1) block (Branches.ordered_iff.1 ho.2 b hb)
    (Branches.unambiguous_iff.1 hu.2 b hb) hblock

theorem faithful_marker : Part.Faithful c limit .marker := by
  intro binding? depth node _ _ h
  cases binding? with
  | none => cases h
  | some b =>
    cases h
    exact refines_marker c b

/-- **What a message compiles to does what the message says.** -/
theorem faithful (c : Context) (limit : Nat) (m : Message) : Message.Faithful c limit m := by
  induction m using Message.induction with
  | nil =>
    intro binding? depth block _ _ h
    cases h
    exact refines_nil c binding?
  | text value rest ih => exact faithful_cons (faithful_text value) ih
  | plain a rest ih => exact faithful_cons (faithful_plain a) ih
  | simple a t style rest ih => exact faithful_cons (faithful_simple a t style) ih
  | select a bs rest ihb ih => exact faithful_cons (faithful_select ihb) ih
  | plural a o offset bs rest ihb ih => exact faithful_cons (faithful_plural ihb) ih
  | marker rest ih => exact faithful_cons faithful_marker ih

/-- **Formatting a compiled message is evaluating the message**: answered alike, both
have the same result and ask the same questions. With a resolver, formatting comes to
`r` over the questions `qs` just when evaluation does. -/
theorem compileFor_refines {limits : Limits} {locale : Locale} {m : Message}
    {compiled : CompiledMessage} (ho : Message.Ordered m) (hu : Message.Unambiguous m)
    (h : m.compileFor limits locale = .ok compiled) (args : Arguments) (formatter : Formatter) :
    (∀ log r, (compiled.run args formatter).Yields log r ↔
      Message.Evaluates ⟨locale, args, formatter⟩ none m "" log r) ∧
    ∀ resolve qs r, (compiled.formatWith args resolve formatter = r ∧
        (compiled.run args formatter).questions resolve = qs) ↔
      Message.Evaluates ⟨locale, args, formatter⟩ none m ""
        (qs.map fun q => (q, resolve q)) r := by
  rw [Message.compileFor] at h
  split at h
  next => cases h
  next root hroot =>
    cases h
    have hrefines :=
      faithful ⟨locale, args, formatter⟩ limits.maxDepth m none 0 root ho hu hroot ""
    refine ⟨hrefines, fun resolve qs r => ?_⟩
    rw [← hrefines, Run.yields_map_iff]
    rfl

/-- With a formatter that puts what was written so far in brackets. -/
theorem compileFor_refines_asked_once :
    Message.Evaluates ⟨⟨⟨"en", none, none, []⟩, [], [], [], []⟩, .ofList [("n", .integer 3)],
        fun a out => .ok ("(" ++ out ++ ")" ++ a.value.text)⟩
      none [.plural "n" false 1 [("=1", []), ("other", [.marker, .simple "n" .number .default])]] ""
      [(⟨⟨⟨"en", none, none, []⟩, [], [], [], []⟩, 2, false⟩, .other)] (.ok "(2)3") := by
  have hm : Message.Canonical false
      [.plural "n" false 1 [("=1", []), ("other", [.marker, .simple "n" .number .default])]] := by
    decide
  obtain ⟨ho, hu⟩ := hm.ordered_and_unambiguous
  have hcompile : Message.compileFor .standard ⟨⟨"en", none, none, []⟩, [], [], [], []⟩
      [.plural "n" false 1 [("=1", []), ("other", [.marker, .simple "n" .number .default])]] =
        .ok _ := rfl
  have h := compileFor_refines ho hu hcompile (.ofList [("n", .integer 3)])
    fun a out => .ok ("(" ++ out ++ ")" ++ a.value.text)
  exact (h.2 (fun _ => .other) [_] _).1 ⟨rfl, rfl⟩

end MessagePattern
