import QubitWarden.Proofs.Merkle.Opening
import QubitWarden.Proofs.Merkle.Soundness

/-!
# What a root commits to

Two trees with one root vouch for each other's records: the proof that one tree gives leads to the
root of the other.

* `getElem?_of_root_eq`: a record of one tree is one of the other, at the same position unless the
  other tree is too short and completes odd levels with what it has.
* `eq_of_root_eq`, `eq_of_sentinel_root_eq`: so lists of records are equal if they have the same
  length, or if the sentinel completes odd levels.
* `root_binds`: both as equivalences, and what they say of a single change to a tree.
-/

namespace QubitWarden.Merkle

open Accumulator

section
variable {H : Hash} {padding : Padding} {left right : List Bytes}
  (hsep : Separating H (treeBytes H padding left ++ treeBytes H padding right))
  (hroot : (ofRecords H padding left).root = (ofRecords H padding right).root)
include hsep hroot

theorem getElem?_of_root_eq {j : Nat} {record : Bytes} (h : right[j]? = some record) :
    ∃ i, left[i]? = some record ∧ (padding = .sentinel ∨ j < left.length → i = j) := by
  have hv : (opening H padding right j record).verifyAgainst H (ofRecords H padding left).root
      record = true := by
    rw [hroot, verifyAgainst_opening h, decide_eq_true_eq]
  have hsep' : Separating H
      (treeBytes H padding left ++ (opening H padding right j record).bytes H record) :=
    hsep.subset fun x hx => (List.mem_append.1 hx).elim (List.mem_append_left _)
      fun hx => List.mem_append_right _ (opening_bytes h x hx)
  obtain ⟨-, i, hi, hplace⟩ := getElem?_of_verifyAgainst hsep' hv
  rw [spelled_opening h] at hplace
  exact ⟨i, hi, hplace⟩

theorem eq_of_root_eq (hlen : left.length = right.length) : left = right := by
  refine List.ext_getElem? fun j => ?_
  cases h : right[j]? with
  | none => rw [List.getElem?_eq_none_iff, hlen, ← List.getElem?_eq_none_iff, h]
  | some record =>
    obtain ⟨i, hi, hplace⟩ := getElem?_of_root_eq hsep hroot h
    rw [← hi, hplace (.inr (hlen ▸ (List.getElem?_eq_some_iff.1 h).1))]

end

/-! ## Equal roots -/

theorem Separating.swap {H : Hash} {first second : List Bytes} (h : Separating H (first ++ second)) :
    Separating H (second ++ first) :=
  h.subset fun _ hx => List.mem_append.2 (List.mem_append.1 hx).symm

section
variable {H : Hash} {left right : List Bytes}
  (hsep : Separating H (treeBytes H .sentinel left ++ treeBytes H .sentinel right))
  (hroot : (ofRecords H .sentinel left).root = (ofRecords H .sentinel right).root)
include hsep hroot

theorem getElem?_of_sentinel_root_eq {j : Nat} {record : Bytes} (h : right[j]? = some record) :
    left[j]? = some record := by
  obtain ⟨i, hi, hplace⟩ := getElem?_of_root_eq hsep hroot h
  rwa [hplace (.inl rfl)] at hi

/-- With the sentinel, records of either list stand in the other one at the same position, so the
lengths need not be known to be equal. -/
theorem eq_of_sentinel_root_eq : left = right := by
  refine List.ext_getElem? fun j => Option.ext fun record => ⟨fun h => ?_, fun h => ?_⟩
  · exact getElem?_of_sentinel_root_eq hsep.swap hroot.symm h
  · exact getElem?_of_sentinel_root_eq hsep hroot h

end

theorem set_eq_self_iff {records : List Bytes} {i : Nat} {old new : Bytes}
    (h : records[i]? = some old) : records.set i new = records ↔ new = old := by
  obtain ⟨hlt, rfl⟩ := List.getElem?_eq_some_iff.1 h
  constructor
  · intro heq
    have hnew := congrArg (·[i]?) heq
    simpa [hlt] using hnew
  · rintro rfl
    exact List.set_getElem_self hlt

theorem swap_eq_self_iff {records : List Bytes} {i j : Nat} {a b : Bytes}
    (hi : records[i]? = some a) (hj : records[j]? = some b) :
    (records.set i b).set j a = records ↔ a = b := by
  constructor
  · intro heq
    have hlt : j < (records.set i b).length := by
      rw [List.length_set]
      exact (List.getElem?_eq_some_iff.1 hj).1
    have hnew : ((records.set i b).set j a)[j]? = some a := List.getElem?_set_self hlt
    rw [heq, hj] at hnew
    exact (Option.some.inj hnew).symm
  · rintro rfl
    rw [(set_eq_self_iff hi).2 rfl, (set_eq_self_iff hj).2 rfl]

/-- **The root of a tree binds its records.** Where the sentinel completes odd levels, trees have one
root exactly if they hold the same records, however many: every append changes the root, and no tree
but the empty one has the root of the empty one. With either padding this is so for trees with the
same number of records: a record that is replaced by another one, or two different ones that change
places, change the root. The hash has no collision on what is hashed for the two trees. -/
theorem root_binds (H : Hash) :
    (∀ left right : List Bytes,
      Separating H (treeBytes H .sentinel left ++ treeBytes H .sentinel right) →
        ((ofRecords H .sentinel left).root = (ofRecords H .sentinel right).root ↔ left = right)) ∧
      (∀ (records : List Bytes) (record : Bytes),
        Separating H (treeBytes H .sentinel records ++
          treeBytes H .sentinel (records ++ [record])) →
            ((ofRecords H .sentinel records).append H record).root ≠
              (ofRecords H .sentinel records).root) ∧
      (∀ records : List Bytes, Separating H (treeBytes H .sentinel records) →
        ((ofRecords H .sentinel records).root = (Accumulator.empty .sentinel).root ↔
          records = [])) ∧
      ∀ padding : Padding,
        (∀ left right : List Bytes, left.length = right.length →
          Separating H (treeBytes H padding left ++ treeBytes H padding right) →
            ((ofRecords H padding left).root = (ofRecords H padding right).root ↔
              left = right)) ∧
          (∀ (records : List Bytes) (i : Nat) (old new : Bytes), records[i]? = some old →
            Separating H (treeBytes H padding (records.set i new) ++ treeBytes H padding records) →
              ((ofRecords H padding (records.set i new)).root = (ofRecords H padding records).root ↔
                new = old)) ∧
          ∀ (records : List Bytes) (i j : Nat) (a b : Bytes), records[i]? = some a →
            records[j]? = some b →
              Separating H (treeBytes H padding ((records.set i b).set j a) ++
                treeBytes H padding records) →
                  ((ofRecords H padding ((records.set i b).set j a)).root =
                    (ofRecords H padding records).root ↔ a = b) := by
  have hany (left right : List Bytes)
      (hsep : Separating H (treeBytes H .sentinel left ++ treeBytes H .sentinel right)) :
      (ofRecords H .sentinel left).root = (ofRecords H .sentinel right).root ↔ left = right :=
    ⟨eq_of_sentinel_root_eq hsep, fun h => by rw [h]⟩
  have hsame (padding : Padding) (left right : List Bytes) (hlen : left.length = right.length)
      (hsep : Separating H (treeBytes H padding left ++ treeBytes H padding right)) :
      (ofRecords H padding left).root = (ofRecords H padding right).root ↔ left = right :=
    ⟨fun hroot => eq_of_root_eq hsep hroot hlen, fun h => by rw [h]⟩
  refine ⟨hany, fun records record hsep hroot => ?_, fun records hsep => ?_,
    fun padding => ⟨hsame padding, fun records i old new hi hsep => ?_,
      fun records i j a b hi hj hsep => ?_⟩⟩
  · rw [← ofRecords_concat] at hroot
    have heq := (hany records (records ++ [record]) hsep).1 hroot.symm
    simp at heq
  · have hempty : Separating H (treeBytes H .sentinel records ++ treeBytes H .sentinel []) := by
      rwa [show treeBytes H .sentinel [] = [] from rfl, List.append_nil]
    exact hany records [] hempty
  · rw [hsame padding _ records (by simp) hsep, set_eq_self_iff hi]
  · rw [hsame padding _ records (by simp) hsep, swap_eq_self_iff hi hj]

-- The last record doubled: the sentinel tells the trees apart, a repeated last node does not.
theorem root_binds_doubled :
    let three : List Bytes := [[1], [2], [3]]
    let four : List Bytes := [[1], [2], [3], [3]]
    let swapped : List Bytes := [[2], [1], [3]]
    Separating sha256 (treeBytes sha256 .sentinel three ++ treeBytes sha256 .sentinel four) ∧
      (ofRecords sha256 .sentinel three).root ≠ (ofRecords sha256 .sentinel four).root ∧
      (ofRecords sha256 .duplicateLast three).root = (ofRecords sha256 .duplicateLast four).root ∧
      Separating sha256
        (treeBytes sha256 .duplicateLast swapped ++ treeBytes sha256 .duplicateLast three) ∧
      (ofRecords sha256 .duplicateLast swapped).root ≠
        (ofRecords sha256 .duplicateLast three).root := by
  intro three four swapped
  obtain ⟨hsep, hdoubled, hswap⟩ :
      Separating sha256 (treeBytes sha256 .sentinel three ++ treeBytes sha256 .sentinel four) ∧
        (ofRecords sha256 .duplicateLast three).root =
          (ofRecords sha256 .duplicateLast four).root ∧
        Separating sha256
          (treeBytes sha256 .duplicateLast swapped ++ treeBytes sha256 .duplicateLast three) := by
    decide +kernel
  obtain ⟨hany, -, -, hsame⟩ := root_binds sha256
  obtain ⟨-, -, hplaces⟩ := hsame .duplicateLast
  refine ⟨hsep, fun h => ?_, hdoubled, hswap, fun h => ?_⟩
  · exact absurd ((hany three four hsep).1 h) (by decide)
  · exact absurd ((hplaces three 0 1 [1] [2] rfl rfl hswap).1 h) (by decide)

end QubitWarden.Merkle
