import Mathlib.Data.List.Basic
import Mathlib.Data.List.Induction
import Mathlib.Data.Nat.Log
import QubitWarden.Merkle.Accumulator

/-!
# The levels of a tree

`nextLevel` hashes a level pair by pair. A tree is `Built` if every level above the leaves comes
from the level below in this way, up to one that has no pair left. An append recomputes the last
node of every level and nothing else, which is enough:

* `place_nextLevel`: if only the last node of a level is new, so is only the last node of the level
  above, and it is the one that an append computes.
* `built_append`, `built_ofRecords`: so the levels stay built from the bottom.
* `Built.next`, `Built.length_top`, `height_ofRecords`: the shape of a tree.
-/

namespace QubitWarden.Merkle

open Accumulator

/-- The bytes hashed for the level above, pair by pair; a pair that lacks its right node is
completed. -/
def pairBytes (padding : Padding) : List Digest → List Bytes
  | [] => []
  | [last] => [nodeBytes last (padding.fill last)]
  | left :: right :: rest => nodeBytes left right :: pairBytes padding rest

/-- The level above a level. -/
def nextLevel (H : Hash) (padding : Padding) (level : List Digest) : List Digest :=
  (pairBytes padding level).map H

section
variable (H : Hash) (padding : Padding) (level : List Digest)

theorem length_nextLevel : (nextLevel H padding level).length = (level.length + 1) / 2 := by
  rw [nextLevel, List.length_map]
  induction level using pairBytes.induct with
  | case1 => rfl
  | case2 last => simp [pairBytes]
  | case3 left right rest ih =>
    simp only [pairBytes, List.length_cons, ih]
    omega

theorem getElem?_pairBytes (i : Nat) :
    (pairBytes padding level)[i]? = level[2 * i]?.map fun left =>
      nodeBytes left (level[2 * i + 1]?.getD (padding.fill left)) := by
  induction level using pairBytes.induct generalizing i with
  | case1 => rfl
  | case2 last => cases i <;> rfl
  | case3 left right rest ih =>
    cases i with
    | zero => rfl
    | succ i =>
      rw [pairBytes, List.getElem?_cons_succ, ih]
      rfl

/-- The nodes of the next level are the parents that an append computes. -/
theorem getElem?_nextLevel (i : Nat) :
    (nextLevel H padding level)[i]? =
      if 2 * i < level.length then some (parentAt H padding level i) else none := by
  rw [nextLevel, List.getElem?_map, getElem?_pairBytes]
  split
  next hi => simp [parentAt, nodeHash, hi]
  next hi => simp [Nat.le_of_not_lt hi]

theorem children_of_nextLevel {H : Hash} {padding : Padding} {level : List Digest} {i : Nat}
    {node : Digest} (h : (nextLevel H padding level)[i]? = some node) :
    ∃ left, level[2 * i]? = some left ∧
      node = nodeHash H left (level[2 * i + 1]?.getD (padding.fill left)) := by
  rw [nextLevel, List.getElem?_map, getElem?_pairBytes, Option.map_map] at h
  obtain ⟨left, hleft, hnode⟩ := Option.map_eq_some_iff.1 h
  exact ⟨left, hleft, hnode.symm⟩

end

/-! ## One new node on every level -/

/-- The new level has the nodes of the old one, except that its last node may be another one or one
more. -/
structure Renewed (old new : List Digest) : Prop where
  pos : 0 < new.length
  le : old.length ≤ new.length
  le_succ : new.length ≤ old.length + 1
  same : ∀ j, j + 1 < new.length → old[j]? = new[j]?

theorem renewed_concat (level : List Digest) (node : Digest) : Renewed level (level ++ [node]) where
  pos := by simp
  le := by simp
  le_succ := by simp
  same j hj := by
    rw [List.length_append, List.length_singleton, Nat.add_lt_add_iff_right] at hj
    rw [List.getElem?_append_left hj]

theorem getElem?_place {α : Type} {i : Nat} {l : List α} (hi : i ≤ l.length) (a : α) (j : Nat) :
    (place i a l)[j]? = if j = i then some a else l[j]? := by
  unfold place
  split
  next heq =>
    subst heq
    by_cases hj : j < l.length
    · rw [List.getElem?_append_left hj, if_neg (by omega)]
    · rw [List.getElem?_append_right (by omega)]
      by_cases hjl : j = l.length
      · simp [hjl]
      · rw [if_neg hjl, List.getElem?_eq_none (by simp; omega), List.getElem?_eq_none (by omega)]
  next hne =>
    rw [List.getElem?_set]
    by_cases hj : i = j
    · rw [if_pos hj, if_pos hj.symm, if_pos (by omega)]
    · rw [if_neg hj, if_neg (Ne.symm hj)]

section
variable {H : Hash} {padding : Padding} {old new : List Digest} (hr : Renewed old new)
include hr

/-- Below the last pair, both levels have the same pairs. -/
theorem Renewed.parentAt_eq {j : Nat} (hj : j < (new.length - 1) / 2) :
    parentAt H padding old j = parentAt H padding new j := by
  have hleft := hr.same (2 * j) (by omega)
  have hright := hr.same (2 * j + 1) (by omega)
  simp only [parentAt, List.getD_eq_getElem?_getD, hleft, hright]

theorem Renewed.left_lt : 2 * ((new.length - 1) / 2) < new.length := by
  have := hr.pos
  omega

/-- The last pair of the new level stands at a position of the old next level, or right after it. -/
theorem Renewed.last_le : (new.length - 1) / 2 ≤ (nextLevel H padding old).length := by
  have := hr.le_succ
  rw [length_nextLevel]
  omega

/-- **One node is enough**: the level above differs from the old one in the parent of the last
pair. -/
theorem place_nextLevel :
    place ((new.length - 1) / 2) (parentAt H padding new ((new.length - 1) / 2))
      (nextLevel H padding old) = nextLevel H padding new := by
  have hpos := hr.pos
  have hle := hr.le
  refine List.ext_getElem? fun j => ?_
  rw [getElem?_place hr.last_le, getElem?_nextLevel, getElem?_nextLevel]
  rcases Nat.lt_trichotomy j ((new.length - 1) / 2) with hj | rfl | hj
  · have := hr.le_succ
    rw [if_neg (by omega), if_pos (by omega), if_pos (by omega), hr.parentAt_eq hj]
  · rw [if_pos rfl, if_pos (by omega)]
  · rw [if_neg (by omega), if_neg (by omega), if_neg (by omega)]

theorem Renewed.nextLevel : Renewed (nextLevel H padding old) (nextLevel H padding new) := by
  have hpos := hr.pos
  have hle := hr.le
  have hle' := hr.le_succ
  refine ⟨by rw [length_nextLevel]; omega, by simp only [length_nextLevel]; omega,
    by simp only [length_nextLevel]; omega, fun j hj => ?_⟩
  rw [length_nextLevel] at hj
  rw [getElem?_nextLevel, getElem?_nextLevel, if_pos (by omega), if_pos (by omega),
    hr.parentAt_eq (by omega)]

end

/-! ## Trees built from the bottom -/

/-- The levels above `level` come from it, each from the one below, and there are as many as it takes
to have no pair left. -/
inductive Built (H : Hash) (padding : Padding) : List Digest → List (List Digest) → Prop
  | top {level : List Digest} : level.length ≤ 1 → Built H padding level []
  | level {level : List Digest} {rest : List (List Digest)} : 1 < level.length →
      Built H padding (nextLevel H padding level) rest →
      Built H padding level (nextLevel H padding level :: rest)

section
variable {H : Hash} {padding : Padding}

theorem built_raise {old new : List Digest} {above : List (List Digest)}
    (hb : Built H padding old above) (hr : Renewed old new) :
    Built H padding new (raise H padding new above) := by
  induction hb generalizing new with
  | top hold =>
    unfold raise
    split
    next hnew =>
      -- The first pair: a new level with one node is pushed.
      obtain ⟨left, right, rfl⟩ := List.length_eq_two.1
        (Nat.le_antisymm (Nat.le_trans hr.le_succ (Nat.succ_le_succ hold)) hnew)
      have hnext : nextLevel H padding [left, right] =
          [parentAt H padding [left, right] (([left, right].length - 1) / 2)] := by
        simp [nextLevel, pairBytes, parentAt, nodeHash]
      rw [← hnext]
      exact .level hnew (.top (Nat.le_refl 1))
    next hnew => exact .top (Nat.le_of_not_lt hnew)
  | level hold _ ih =>
    rw [raise, if_pos (Nat.lt_of_lt_of_le hold hr.le)]
    simp only [place_nextLevel hr]
    exact .level (Nat.lt_of_lt_of_le hold hr.le) (ih hr.nextLevel)

/-- **An append keeps the levels built from the bottom.** -/
theorem built_append (acc : Accumulator) (hb : Built H acc.padding acc.leaves acc.above)
    (record : Bytes) :
    Built H acc.padding (acc.append H record).leaves (acc.append H record).above :=
  built_raise hb (renewed_concat _ _)

variable (H padding)

theorem ofRecords_concat (records : List Bytes) (record : Bytes) :
    ofRecords H padding (records ++ [record]) =
      (ofRecords H padding records).append H record := by
  simp only [ofRecords, List.foldl_append, List.foldl_cons, List.foldl_nil]

@[simp] theorem padding_ofRecords (records : List Bytes) :
    (ofRecords H padding records).padding = padding := by
  induction records using List.reverseRecOn with
  | nil => rfl
  | append_singleton records record ih => rw [ofRecords_concat]; exact ih

@[simp] theorem leaves_ofRecords (records : List Bytes) :
    (ofRecords H padding records).leaves = records.map (leafHash H) := by
  induction records using List.reverseRecOn with
  | nil => rfl
  | append_singleton records record ih =>
    rw [ofRecords_concat, List.map_append, ← ih]
    rfl

theorem built_ofRecords (records : List Bytes) :
    Built H padding (records.map (leafHash H)) (ofRecords H padding records).above := by
  induction records using List.reverseRecOn with
  | nil => exact .top (Nat.zero_le 1)
  | append_singleton records record ih =>
    have hb := built_append (ofRecords H padding records) (by simpa using ih) record
    rw [← leaves_ofRecords H padding, ofRecords_concat]
    simpa using hb

/-! ## The shape of a tree -/

variable {H padding} {level : List Digest} {above : List (List Digest)}

theorem Built.next (hb : Built H padding level above) {k : Nat} {lower upper : List Digest}
    (hlower : (level :: above)[k]? = some lower) (hupper : (level :: above)[k + 1]? = some upper) :
    1 < lower.length ∧ upper = nextLevel H padding lower := by
  induction hb generalizing k with
  | top => simp at hupper
  | level hlen _ ih =>
    cases k with
    | zero =>
      cases hlower
      cases hupper
      exact ⟨hlen, rfl⟩
    | succ k => exact ih hlower hupper

/-- The highest level of a tree. -/
def topLevel (level : List Digest) (above : List (List Digest)) : List Digest :=
  above.getLast?.getD level

@[simp] theorem topLevel_nil (level : List Digest) : topLevel level [] = level := rfl

@[simp] theorem topLevel_cons (level next : List Digest) (rest : List (List Digest)) :
    topLevel level (next :: rest) = topLevel next rest := by
  simp [topLevel, List.getLast?_cons]

theorem root_eq (acc : Accumulator) :
    acc.root = (topLevel acc.leaves acc.above).head?.getD sentinel := rfl

theorem Built.length_top (hb : Built H padding level above) : (topLevel level above).length ≤ 1 := by
  induction hb with
  | top h => exact h
  | level _ _ ih => rwa [topLevel_cons]

theorem Built.length_eq_clog (hb : Built H padding level above) :
    above.length = Nat.clog 2 level.length := by
  induction hb with
  | top h => rw [List.length_nil, Nat.clog_of_right_le_one h]
  | level h _ ih =>
    rw [List.length_cons, ih, length_nextLevel, Nat.clog_of_two_le (Nat.le_refl 2) h]
    rfl

/-- The number of steps from a leaf to the root. -/
def Accumulator.height (acc : Accumulator) : Nat := acc.above.length

theorem height_ofRecords (records : List Bytes) :
    (ofRecords H padding records).height = Nat.clog 2 records.length := by
  rw [height, (built_ofRecords H padding records).length_eq_clog, List.length_map]

end

end QubitWarden.Merkle
