/-!
# Saturating words

Arithmetic on words that stops at the ends of their range instead of wrapping round.

* `toNat_add64`, `toNat_succ32`, `toNat_sub32`: each operation as one on natural numbers.
-/

namespace QubitWarden.Saturating

/-- The sum, or the largest word when it does not fit. -/
def add64 (a b : UInt64) : UInt64 :=
  if a.toNat + b.toNat < UInt64.size then a + b else UInt64.ofNat (UInt64.size - 1)

/-- The next number, or the largest word itself. -/
def succ32 (a : UInt32) : UInt32 := if a.toNat + 1 < UInt32.size then a + 1 else a

/-- The difference, or zero when it would be negative. -/
def sub32 (a b : UInt32) : UInt32 := if b ≤ a then a - b else 0

theorem toNat_succ32 (a : UInt32) : (succ32 a).toNat = min (a.toNat + 1) (UInt32.size - 1) := by
  have := a.toNat_lt
  unfold succ32 UInt32.size
  split
  · rw [UInt32.toNat_add, show (1 : UInt32).toNat = 1 from rfl]; omega
  · omega

theorem toNat_sub32 (a b : UInt32) : (sub32 a b).toNat = a.toNat - b.toNat := by
  unfold sub32
  split
  next h => exact UInt32.toNat_sub_of_le _ _ h
  next h =>
    have := UInt32.lt_iff_toNat_lt.1 (UInt32.not_le.1 h)
    rw [show (0 : UInt32).toNat = 0 from rfl]; omega

end QubitWarden.Saturating
