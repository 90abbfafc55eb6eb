/-! What a pattern may cost.

Both limits are thresholds: a pattern or message within them is treated as if there
were none. -/
namespace MessagePattern

structure Limits where
  /-- How deep branches may nest; the message itself is at depth zero. -/
  maxDepth : Nat
  /-- The largest number of bytes a pattern may have, if there is one. -/
  maxLength : Option Nat
  deriving DecidableEq, Repr

/-- Sixty-four levels of branches and patterns of any length. -/
def Limits.standard : Limits := ⟨64, none⟩

end MessagePattern
