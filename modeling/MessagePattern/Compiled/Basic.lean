import MessagePattern.Locale.Basic
import MessagePattern.Message.Argument
import MessagePattern.Plural.Category

/-! Compiled messages.

The compiled form of a message has each marker bound to the argument and offset of its
plural, the keys of plurals read, and the branch for all remaining numbers apart from
the others. `Block.induction` is the induction principle of the nested type. -/
namespace MessagePattern

/-- What the key of a plural branch selects. -/
inductive PluralKey where
  /-- One integer. -/
  | exact (n : Int64)
  /-- The numbers of a category. -/
  | category (c : Plural.Category)
  deriving DecidableEq

/-- The argument a marker reads and the offset it takes off. -/
structure Binding where
  argument : String
  offset : Int64
  deriving DecidableEq

inductive Node where
  | text (value : String)
  | plain (argument : String)
  | simple (argument : String) (type : ArgumentType) (style : ArgumentStyle)
  | select (argument : String) (branches : List (String × List Node))
  /-- The branches of a plural, with `other` apart. -/
  | plural (binding : Binding) (ordinal : Bool) (branches : List (PluralKey × List Node))
    (other : List Node)
  | marker (binding : Binding)

abbrev Block := List Node

/-- A message compiled for a locale. -/
structure CompiledMessage where
  locale : Locale
  root : Block

theorem Block.induction {P : Block → Prop} (nil : P [])
    (text : ∀ value rest, P rest → P (.text value :: rest))
    (plain : ∀ argument rest, P rest → P (.plain argument :: rest))
    (simple : ∀ argument type style rest, P rest → P (.simple argument type style :: rest))
    (select : ∀ argument (branches : List (String × Block)) rest, (∀ b ∈ branches, P b.2) →
      P rest → P (.select argument branches :: rest))
    (plural : ∀ binding ordinal (branches : List (PluralKey × Block)) other rest,
      (∀ b ∈ branches, P b.2) → P other → P rest →
      P (.plural binding ordinal branches other :: rest))
    (marker : ∀ binding rest, P rest → P (.marker binding :: rest)) (b : Block) : P b :=
  Node.rec_3 (motive_1 := fun n => ∀ rest, P rest → P (n :: rest))
    (motive_2 := fun bs => ∀ b ∈ bs, P b.2) (motive_3 := fun bs => ∀ b ∈ bs, P b.2)
    (motive_4 := P) (motive_5 := fun b => P b.2) (motive_6 := fun b => P b.2)
    text plain simple (fun a bs ih r => select a bs r ih)
    (fun b o bs other ih iho r => plural b o bs other r ih iho) marker
    (fun _ hb => nomatch hb)
    (fun _ _ ih ihs b hb => (List.mem_cons.1 hb).elim (fun h => h ▸ ih) (ihs b))
    (fun _ hb => nomatch hb)
    (fun _ _ ih ihs b hb => (List.mem_cons.1 hb).elim (fun h => h ▸ ih) (ihs b))
    nil (fun _ ns ih ihs => ih ns ihs) (fun _ _ ih => ih) (fun _ _ ih => ih) b

end MessagePattern
