import QubitWarden.Proofs.Merkle.Levels

/-!
# Building a tree anew

Two other ways to a tree, against which appending leaf by leaf is compared.

* `rebuild`: the root over a level, by hashing level after level from the bottom
  (`root_ofRecords`).
* `append?`: an append that checks every position before it reads or writes there, and gives up if
  one is out of range. On a tree that was built by appends it never does (`append?_ofRecords`).
-/

namespace QubitWarden.Merkle

open Accumulator

/-- The root over a level. -/
def rebuild (H : Hash) (padding : Padding) (level : List Digest) : Digest :=
  if 1 < level.length then rebuild H padding (nextLevel H padding level)
  else level.head?.getD sentinel
termination_by level.length
decreasing_by
  rw [length_nextLevel]
  omega

section
variable {H : Hash} {padding : Padding}

theorem rebuild_of_length_le_one {level : List Digest} (h : level.length ≤ 1) :
    rebuild H padding level = level.head?.getD sentinel := by
  rw [rebuild, if_neg (Nat.not_lt.2 h)]

theorem Built.head_top {level : List Digest} {above : List (List Digest)}
    (hb : Built H padding level above) :
    (topLevel level above).head?.getD sentinel = rebuild H padding level := by
  induction hb with
  | top h => rw [rebuild_of_length_le_one h, topLevel_nil]
  | level h _ ih => rw [rebuild, if_pos h, topLevel_cons, ih]

theorem root_ofRecords (records : List Bytes) :
    (ofRecords H padding records).root = rebuild H padding (records.map (leafHash H)) := by
  rw [root_eq, leaves_ofRecords, (built_ofRecords H padding records).head_top]

end

/-! ## Positions in range -/

/-- `place`, if the position is in the list or right after it. -/
def place? {α : Type} (i : Nat) (a : α) (l : List α) : Option (List α) :=
  if i = l.length then some (l ++ [a])
  else if i < l.length then some (l.set i a)
  else none

theorem place?_eq_some {α : Type} {i : Nat} {l : List α} (hi : i ≤ l.length) (a : α) :
    place? i a l = some (place i a l) := by
  unfold place? place
  split
  next => rfl
  next hne => rw [if_pos (Nat.lt_of_le_of_ne hi hne)]

namespace Accumulator

/-- `parentAt`, if the level has a left node for it. -/
def parentAt? (H : Hash) (padding : Padding) (level : List Digest) (i : Nat) : Option Digest :=
  level[2 * i]?.map fun left => nodeHash H left (level[2 * i + 1]?.getD (padding.fill left))

/-- `raise`, if every position on the way up is in range. Above the highest level stands a new one,
empty at first. -/
def raise? (H : Hash) (padding : Padding) (level : List Digest) :
    (above : List (List Digest)) → Option (List (List Digest))
  | [] =>
    if 1 < level.length then do
      let i := (level.length - 1) / 2
      let next ← place? i (← parentAt? H padding level i) []
      return [next]
    else some []
  | next :: rest =>
    if 1 < level.length then do
      let i := (level.length - 1) / 2
      let next' ← place? i (← parentAt? H padding level i) next
      return next' :: (← raise? H padding next' rest)
    else some (next :: rest)

/-- `append`, if every position on the way up is in range. -/
def append? (H : Hash) (acc : Accumulator) (record : Bytes) : Option Accumulator := do
  let leaves := acc.leaves ++ [leafHash H record]
  return { acc with leaves, above := ← raise? H acc.padding leaves acc.above }

end Accumulator

section
variable {H : Hash} {padding : Padding}

theorem parentAt?_eq_some {level : List Digest} {i : Nat} (hi : 2 * i < level.length) :
    parentAt? H padding level i = some (parentAt H padding level i) := by
  simp [parentAt?, parentAt, hi]

theorem raise?_eq_some {old new : List Digest} {above : List (List Digest)}
    (hb : Built H padding old above) (hr : Renewed old new) :
    raise? H padding new above = some (raise H padding new above) := by
  induction hb generalizing new with
  | top hold =>
    unfold raise? raise
    split
    next hnew =>
      have hfirst : (new.length - 1) / 2 = ([] : List Digest).length := by
        have := hr.le_succ
        rw [List.length_nil]
        omega
      simp only [Option.bind_eq_bind, parentAt?_eq_some hr.left_lt, Option.bind_some,
        place?_eq_some (Nat.le_of_eq hfirst), place, if_pos hfirst]
      rfl
    next => rfl
  | level hold _ ih =>
    have hnew := Nat.lt_of_lt_of_le hold hr.le
    rw [raise?, raise, if_pos hnew, if_pos hnew]
    simp only [Option.bind_eq_bind, parentAt?_eq_some hr.left_lt, place?_eq_some hr.last_le,
      Option.bind_some, place_nextLevel hr, ih hr.nextLevel]
    rfl

/-- **No append leaves the tree it works on.** -/
theorem append?_ofRecords (records : List Bytes) (record : Bytes) :
    (ofRecords H padding records).append? H record =
      some ((ofRecords H padding records).append H record) := by
  have hb := built_ofRecords H padding records
  rw [append?, padding_ofRecords, leaves_ofRecords, raise?_eq_some hb (renewed_concat _ _)]
  simp [append]

end

end QubitWarden.Merkle
