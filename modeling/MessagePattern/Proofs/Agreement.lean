import MessagePattern.Format.OfPattern
import MessagePattern.Proofs.Soundness
import MessagePattern.Proofs.Validity

/-! What is read also compiles, keys of plurals apart.

Reading and compiling look at the same things: how deep branches nest, where the marker
stands for something, what an integer is. So a message that was read under a limit has
few ways left to be refused under it: a plural may lack the branch for all other numbers,
and a word that is no category may be among its keys. `compile_of_parse` says that there
are no others. -/
namespace MessagePattern

open Lexis
open Plural (Category)

/-- Only a message that was built by hand is refused for this. -/
def CompileError.HandBuilt : CompileError → Prop
  | .tooDeep _ | .strayMarker | .invalidShape _ => True
  | .invalidKey _ key _ => ∃ rest, key.toList = '=' :: rest
  | .invalidLocale _ | .missingOther _ => False

/-- The part is a plural, and lacks `other` or has a word as key that is no category. -/
inductive Part.Lacks : Part → CompileError → Prop where
  | other {a o offset bs} : Category.other.keyword ∉ bs.map (·.1) →
      Part.Lacks (.plural a o offset bs) (.missingOther a)
  | word {a o offset bs b} : b ∈ bs → IsWord b.1.toList → b.1 ∉ Category.keywords →
      Part.Lacks (.plural a o offset bs) (.ofKey a b.1)

theorem Lexis.IsWord.head_ne_equals {key rest : List Char} (h : IsWord key) :
    key ≠ '=' :: rest := by
  rintro rfl
  exact absurd (h.identifier '=' List.mem_cons_self) (by decide)

theorem Part.Lacks.not_handBuilt {p : Part} {e : CompileError} (h : p.Lacks e) :
    ¬ e.HandBuilt := by
  cases h with
  | other => exact id
  | word _ hword _ => exact fun ⟨rest, hrest⟩ => hword.head_ne_equals hrest

/-- A key that could stand in a pattern is a word, or an integer and so a key of a plural. -/
theorem isPluralKey_of_isKey {key : String} (h : IsKey true key.toList) :
    IsWord key.toList ∨ IsPluralKey key := by
  rcases isKey_iff.1 h with hword | ⟨-, n, -, hn⟩
  · exact .inl hword
  · exact .inr (.inr ⟨n, _, hn, ofSigned?_digits n⟩)

theorem isPluralKey_iff_of_isWord {key : String} (h : IsWord key.toList) :
    IsPluralKey key ↔ key ∈ Category.keywords := by
  apply Iff.intro
  · intro hkey
    rcases hkey with hkey | ⟨_, _, hexact, -⟩
    · exact hkey
    · exact absurd hexact h.head_ne_equals
  · exact .inl

theorem Part.Lacks.violates {limit : Nat} {site : Site} {p : Part} {e : CompileError}
    (h : p.Lacks e) : p.Violates limit site e := by
  cases h with
  | other hnone => exact .other hnone
  | word hb hword hkey => exact .key hb fun h => hkey ((isPluralKey_iff_of_isWord hword).1 h)

/-- **In a canonical message no part violates anything else.** -/
theorem lacks_of_violates {limit : Nat} {m : Message} (hm : Message.Canonical false m)
    (hd : Message.depth m ≤ limit) {site : Site} {p : Part} {e : CompileError}
    (hp : Message.Stands .root m site p) (hv : p.Violates limit site e) : p.Lacks e := by
  have hcanonical : p.Canonical site.inPlural := hp.canonical hm
  cases hv with
  | shape hshape =>
    obtain ⟨-, ht, hs⟩ := hcanonical
    rcases hshape with rfl | rfl
    · exact absurd ht (by decide)
    · exact absurd hs (by decide)
  | other hnone => exact .other hnone
  | key hb hkey =>
    -- What is left of the keys a pattern can have are words: every integer is a key of a plural.
    have hword := (Branches.canonical_iff.1 hcanonical.2.2.2 _ hb).1
    have hword := (isPluralKey_of_isKey hword).resolve_right hkey
    exact .word hb hword fun h => hkey ((isPluralKey_iff_of_isWord hword).2 h)
  | depth hb hlimit =>
    exact absurd (Message.depth_le_iff.1 hd _ _ _ _ hp hb) (Nat.not_lt.2 hlimit)
  | stray hstray => exact absurd (hstray ▸ hcanonical) Bool.false_ne_true

/-- The plural has a branch for all numbers its other branches leave, and of the words
among its keys all are categories. -/
def Branches.Complete (bs : Branches) : Prop :=
  Category.other.keyword ∈ bs.map (·.1) ∧
    ∀ b ∈ bs, IsWord b.1.toList → b.1 ∈ Category.keywords

theorem Branches.complete_iff {a : String} {o : Bool} {offset : Int64} {bs : Branches} :
    Branches.Complete bs ↔ ∀ e, ¬ (Part.plural a o offset bs).Lacks e := by
  apply Iff.intro
  · intro ⟨hother, hwords⟩ e h
    cases h with
    | other hnone => exact hnone hother
    | word hb hword hkey => exact hkey (hwords _ hb hword)
  · intro h
    exact ⟨Decidable.not_not.1 fun hnone => h _ (.other hnone),
      fun b hb hword => Decidable.not_not.1 fun hkey => h _ (.word hb hword hkey)⟩

/-! ### Whole patterns -/

section
variable {limits : Limits} {locale : Locale} {pattern : String} {m : Message}

theorem lacks_of_compileFor (h : Pattern.parse limits pattern = .ok m) {e : CompileError}
    (he : m.compileFor limits locale = .error e) :
    ∃ site p, Message.Stands .root m site p ∧ p.Lacks e := by
  obtain ⟨hread, hd⟩ := Pattern.readsMessage_of_parse h
  have hhead := (reports_compileFor limits locale m e).1 he
  obtain ⟨site, p, hp, hv⟩ := Message.mem_violations_iff.1 (List.mem_of_mem_head? hhead)
  exact ⟨site, p, hp, lacks_of_violates hread.canonical hd hp hv⟩

theorem exists_compileFor_iff (locale : Locale) (h : Pattern.parse limits pattern = .ok m) :
    (∃ compiled, m.compileFor limits locale = .ok compiled) ↔ ∀ site a o offset bs,
      Message.Stands .root m site (.plural a o offset bs) → Branches.Complete bs := by
  obtain ⟨hread, hd⟩ := Pattern.readsMessage_of_parse h
  rw [(reports_compileFor limits locale m).exists_ok_iff, Message.violations_eq_nil_iff]
  apply Iff.intro
  · exact fun h site a o offset bs hp => Branches.complete_iff.2 fun e he =>
      h site _ e hp he.violates
  · intro h site p e hp hv
    have hlacks := lacks_of_violates hread.canonical hd hp hv
    cases hlacks with
    | other hnone => exact hnone (h _ _ _ _ _ hp).1
    | word hb hword hkey => exact hkey ((h _ _ _ _ _ hp).2 _ hb hword)

end

section
variable {reader : Locale.Reader} {tag pattern : String}

/-- Behind a tag that is read a message compiles as for the locale itself. -/
theorem Message.compile_eq_of_reader {locale : Locale} (hreader : reader tag = some locale)
    (limits : Limits) (m : Message) :
    m.compile reader limits tag = m.compileFor limits locale := by
  rw [Message.compile, hreader]

/-- The errors of compilation behind a pattern are not those of a message built by hand. -/
theorem not_handBuilt_of_ofPattern {e : CompileError}
    (h : CompiledMessage.ofPattern reader tag pattern = .error (.compile e)) :
    ¬ e.HandBuilt := by
  rw [CompiledMessage.ofPattern] at h
  split at h
  next => cases h
  next m hm =>
    rw [Message.compile] at h
    cases hreader : reader tag with
    | none =>
      rw [hreader] at h
      cases h
      exact id
    | some locale =>
      cases he : m.compileFor .standard locale with
      | ok compiled =>
        rw [hreader] at h
        simp only [he] at h
        cases h
      | error e' =>
        rw [hreader] at h
        simp only [he] at h
        cases h
        obtain ⟨_, _, -, hlacks⟩ := lacks_of_compileFor hm he
        exact hlacks.not_handBuilt

/-- Formatting adds errors of its own, and none of compilation. -/
theorem ofPattern_of_format {ρ : Type} {source : Plural.Source ρ} {args : Arguments}
    {memory : Plural.Source.Memory ρ} {e : CompileError}
    (h : (MessagePattern.format reader source tag pattern args memory).1 = .error (.compile e)) :
    CompiledMessage.ofPattern reader tag pattern = .error (.compile e) := by
  rw [MessagePattern.format] at h
  split at h
  next e' he' =>
    cases h
    exact he'
  next m hm =>
    cases hr : (m.format source args memory).1 with
    | ok text => simp only [hr, Except.mapError] at h; cases h
    | error e' => simp only [hr, Except.mapError] at h; cases h

end

/-- **A message that was read under a limit compiles under it for every locale, unless a
plural lacks `other` or has a word as key that is no category.** Nothing else is reported
for a pattern, also by the functions that do both, however tags are read and wherever plural
rules come from. -/
theorem compile_of_parse :
    (∀ (limits : Limits) (locale : Locale) (pattern : String) (m : Message),
      Pattern.parse limits pattern = .ok m →
        (∀ e, m.compileFor limits locale = .error e → ¬ e.HandBuilt ∧
          ∃ site p, Message.Stands .root m site p ∧ p.Lacks e) ∧
        ((∃ compiled, m.compileFor limits locale = .ok compiled) ↔ ∀ site a o offset bs,
          Message.Stands .root m site (.plural a o offset bs) → Branches.Complete bs) ∧
        ∀ (reader : Locale.Reader) tag, reader tag = some locale →
          m.compile reader limits tag = m.compileFor limits locale) ∧
      ∀ (reader : Locale.Reader) tag pattern,
        (∀ e, CompiledMessage.ofPattern reader tag pattern = .error (.compile e) →
          ¬ e.HandBuilt) ∧
        ∀ {ρ : Type} (source : Plural.Source ρ) args memory e,
          (MessagePattern.format reader source tag pattern args memory).1 = .error (.compile e) →
            ¬ e.HandBuilt := by
  refine ⟨fun limits locale pattern m h => ⟨fun e he => ?_, exists_compileFor_iff locale h,
    fun reader tag hreader => Message.compile_eq_of_reader hreader limits m⟩,
    fun reader tag pattern => ⟨fun e => not_handBuilt_of_ofPattern,
      fun source args memory e h => not_handBuilt_of_ofPattern (ofPattern_of_format h)⟩⟩
  obtain ⟨site, p, hp, hlacks⟩ := lacks_of_compileFor h he
  exact ⟨hlacks.not_handBuilt, site, p, hp, hlacks⟩

theorem compile_of_parse_nested :
    Pattern.parse ⟨2, none⟩
        "{n,plural,=1{{g,select,a{#}}}lots{#}other{}}" =
      .ok [.plural "n" false 0 [("=1", [.select "g" [("a", [.text "#"])]]), ("lots", [.marker]),
        ("other", [])]] ∧
    Message.compileFor ⟨2, none⟩ ⟨⟨"pt", none, some "BR", []⟩, [], [], [], []⟩ [.plural "n" false 0
        [("=1", [.select "g" [("a", [.text "#"])]]), ("lots", [.marker]), ("other", [])]] =
      .error (.ofKey "n" "lots") ∧
    ¬ (CompileError.ofKey "n" "lots").HandBuilt := by
  have hparse : Pattern.parse ⟨2, none⟩ "{n,plural,=1{{g,select,a{#}}}lots{#}other{}}" =
      .ok [.plural "n" false 0 [("=1", [.select "g" [("a", [.text "#"])]]), ("lots", [.marker]),
        ("other", [])]] := rfl
  have hcompile : Message.compileFor ⟨2, none⟩ ⟨⟨"pt", none, some "BR", []⟩, [], [], [], []⟩
        [.plural "n" false 0 [("=1", [.select "g" [("a", [.text "#"])]]), ("lots", [.marker]),
          ("other", [])]] =
      .error (.ofKey "n" "lots") := rfl
  exact ⟨hparse, hcompile, ((compile_of_parse.1 _ _ _ _ hparse).1 _ hcompile).1⟩

end MessagePattern
