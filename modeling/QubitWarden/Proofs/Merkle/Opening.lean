import QubitWarden.Proofs.Merkle.Preimages

/-!
# Paths lead to the root

The path from a position up to the root hashes the pairs that the tree was built from, with every
level of odd length completed alike, so it ends at the root.

* `stepAt_bytes`: one step of a path hashes the pair that the position belongs to.
* `Built.replay_path`, `Built.stepsBytes_path`: a path ends at the highest node and hashes nothing
  that the tree has not hashed.
* `Built.spelled_path`, `spelled_opening`: its sides spell the position.
* `proof?_ofRecords`, `verify_opening`: so every record has a proof, which vouches for nothing else.
-/

namespace QubitWarden.Merkle

open Accumulator

section
variable {H : Hash} {padding : Padding} {level : List Digest} {above : List (List Digest)}

theorem stepAt_bytes {i : Nat} {node : Digest} (h : level[i]? = some node) :
    (pairBytes padding level)[i / 2]? = some ((stepAt padding level i).bytes node) := by
  rw [getElem?_pairBytes, stepAt]
  split
  next heven =>
    rw [show 2 * (i / 2) = i by omega, h]
    simp [ProofStep.bytes, List.getD_eq_getElem?_getD, h]
  next hodd =>
    have hi := (List.getElem?_eq_some_iff.1 h).1
    rw [show 2 * (i / 2) = i - 1 by omega, show i - 1 + 1 = i by omega, h,
      List.getElem?_eq_getElem (by omega : i - 1 < level.length)]
    simp [ProofStep.bytes, List.getD_eq_getElem?_getD,
      List.getElem?_eq_getElem (by omega : i - 1 < level.length)]

theorem stepAt_parent {i : Nat} {node : Digest} (h : level[i]? = some node) :
    (nextLevel H padding level)[i / 2]? = some ((stepAt padding level i).parent H node) := by
  rw [nextLevel, List.getElem?_map, stepAt_bytes h, ProofStep.parent_eq]
  rfl

theorem Built.replay_path (hb : Built H padding level above) {i : Nat} {node : Digest}
    (h : level[i]? = some node) :
    (topLevel level above).head? =
      some ((path padding (level :: above) i).foldl (ProofStep.parent H) node) := by
  induction hb generalizing i node with
  | top hlen =>
    have hi := (List.getElem?_eq_some_iff.1 h).1
    obtain rfl : i = 0 := by omega
    rw [topLevel_nil, List.head?_eq_getElem?, h]
    rfl
  | level _ _ ih =>
    rw [topLevel_cons, path, List.foldl_cons]
    exact ih (stepAt_parent h)

theorem Built.stepsBytes_path (hb : Built H padding level above) {i : Nat} {node : Digest}
    (h : level[i]? = some node) :
    ∀ x ∈ stepsBytes H node (path padding (level :: above) i), x ∈ innerBytes padding level above := by
  induction hb generalizing i node with
  | top => exact fun x hx => absurd hx List.not_mem_nil
  | level _ _ ih =>
    intro x hx
    rw [path, stepsBytes] at hx
    rcases List.mem_cons.1 hx with rfl | hx
    · exact List.mem_append_left _ (List.mem_of_getElem? (stepAt_bytes h))
    · exact List.mem_append_right _ (ih (stepAt_parent h) x hx)

end

theorem Built.spelled_path {H : Hash} {padding : Padding} {level : List Digest}
    {above : List (List Digest)} (hb : Built H padding level above) {i : Nat}
    (hi : i < level.length) : spelled (path padding (level :: above) i) = i := by
  induction hb generalizing i with
  | top hlen =>
    obtain rfl : i = 0 := by omega
    rfl
  | level hlen _ ih =>
    rw [path, spelled, ih (by rw [length_nextLevel]; omega), stepAt]
    split <;> simp only [Side.bit] <;> omega

/-! ## Proofs from a tree -/

/-- The proof that a tree gives for the record at `i`. -/
def opening (H : Hash) (padding : Padding) (records : List Bytes) (i : Nat) (record : Bytes) :
    InclusionProof where
  leafIndex := i
  leafHash := leafHash H record
  root := (ofRecords H padding records).root
  steps := path padding (ofRecords H padding records).levels i

section
variable {H : Hash} {padding : Padding} {records : List Bytes} {i : Nat} {record : Bytes}
  (h : records[i]? = some record)
include h

theorem lt_length_leaves : i < (records.map (leafHash H)).length := by
  rw [List.length_map]
  exact (List.getElem?_eq_some_iff.1 h).1

theorem spelled_opening : spelled (opening H padding records i record).steps = i := by
  rw [opening, levels, leaves_ofRecords]
  exact (built_ofRecords H padding records).spelled_path (lt_length_leaves h)

theorem proof?_ofRecords :
    (ofRecords H padding records).proof? i = some (opening H padding records i record) := by
  simp [proof?, leafHash?, opening, h]

theorem replay_opening :
    (opening H padding records i record).replay H (leafHash H record) =
      (ofRecords H padding records).root := by
  have hleaf : (records.map (leafHash H))[i]? = some (leafHash H record) := by simp [h]
  have hpath := (built_ofRecords H padding records).replay_path hleaf
  rw [InclusionProof.replay, opening, root_eq, levels, leaves_ofRecords, hpath]
  rfl

/-- The proof that a tree gives for a record vouches for the bytes with the same leaf, and for no
others. -/
theorem verifyAgainst_opening (bytes : Bytes) :
    (opening H padding records i record).verifyAgainst H (ofRecords H padding records).root bytes =
      decide (leafHash H bytes = leafHash H record) := by
  unfold InclusionProof.verifyAgainst
  by_cases heq : leafHash H bytes = leafHash H record
  · rw [heq, replay_opening h]
    simp [opening]
  · simp [opening, heq]

theorem verify_opening (bytes : Bytes) :
    (ofRecords H padding records).verify H (opening H padding records i record) bytes =
      decide (leafHash H bytes = leafHash H record) := by
  have hleaf : (ofRecords H padding records).leafHash? i = some (leafHash H record) := by
    simp [leafHash?, h]
  rw [verify, verifyAgainst_opening h]
  simp [opening, hleaf]

theorem opening_bytes :
    ∀ x ∈ (opening H padding records i record).bytes H record, x ∈ treeBytes H padding records := by
  intro x hx
  rcases List.mem_cons.1 hx with rfl | hx
  · exact leafBytes_mem_treeBytes (List.mem_of_getElem? h)
  · rw [opening, levels, leaves_ofRecords] at hx
    have hleaf : (records.map (leafHash H))[i]? = some (leafHash H record) := by simp [h]
    exact List.mem_append_right _
      ((built_ofRecords H padding records).stepsBytes_path hleaf x hx)

end

end QubitWarden.Merkle
