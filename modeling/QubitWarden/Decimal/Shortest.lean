/-!
# The decimal text of a whole number in double precision

A whole number is rounded to 53 significant bits, and the text has the fewest significant digits
that read back as the rounded value, filled up with zeros.

* `roundToDouble`: the nearest multiple of the spacing, of two the even one.
* `shortest`: among the multiples of the largest power of ten that has one in the rounding interval,
  the nearest to the value.
-/

namespace QubitWarden.Decimal

/-- The spacing of doubles at `n`. -/
def spacing (n : Nat) : Nat := Nat.pow 2 (Nat.log2 n - 52)

/-- The double nearest to `n`; of two equally near ones, the one with an even significand. -/
def roundToDouble (n : Nat) : Nat :=
  let unit := spacing n
  let low := n / unit
  let rest := n % unit
  if 2 * rest < unit ∨ (2 * rest = unit ∧ low % 2 = 0) then low * unit else (low + 1) * unit

/-- Whether `4 * candidate` lies in the interval that rounds to the double `v`. Below a power of two
the interval is half as wide; its ends belong to it when the significand is even. -/
def roundsTo (v candidate : Nat) : Bool :=
  let unit := spacing v
  let below := if v = Nat.pow 2 (Nat.log2 v) then unit else 2 * unit
  let above := 2 * unit
  if (v / unit) % 2 = 0 then 4 * v ≤ 4 * candidate + below && 4 * candidate ≤ 4 * v + above
  else 4 * v < 4 * candidate + below && 4 * candidate < 4 * v + above

/-- The nearest to `v` of its neighbours among the multiples of `step` that read back as `v`. -/
def nearestMultiple? (v step : Nat) : Option Nat :=
  let low := v / step * step
  let high := low + step
  match roundsTo v low, roundsTo v high with
  | true, true => some (if v - low ≤ high - v then low else high)
  | true, false => some low
  | false, true => some high
  | false, false => none

/-- The shortest decimal of the double `v`, from multiples of `10 ^ places` downwards. -/
def shortestFrom (v : Nat) : (places : Nat) → Nat
  | 0 => v
  | places + 1 =>
    match nearestMultiple? v (Nat.pow 10 (places + 1)) with
    | some n => n
    | none => shortestFrom v places

/-- The whole number with the fewest significant digits that reads back as the double of `n`. -/
def shortest (n : Nat) : Nat :=
  if n ≤ Nat.pow 2 53 then n else shortestFrom (roundToDouble n) 20

end QubitWarden.Decimal
