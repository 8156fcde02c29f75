import QubitWarden.Audit.Log
import QubitWarden.Proofs.Merkle.Opening

/-!
# Every record has a proof

A proof is read off the stored levels, one node on each. The positions that are read are in the
tree, for every record of every tree and with either way to complete odd levels, and the proof says
where the record stands.

* `path?`, `leafProof?`: a proof that is read with every position checked, and given up if one is
  out of range; `leafProof?_ofRecords` says that this never happens.
* `length_path`, `sides_path`: the sides of the steps are the binary digits of the position, as many
  as the tree has levels above the leaves.
* `Vouches`, `vouches_opening`: what a proof has to say about a record.
* `leafHash?_of_verify`: no proof, wherever it comes from, holds for bytes with another leaf.
-/

namespace QubitWarden.Merkle

open Accumulator Audit

namespace Accumulator

/-- `stepAt`, if the sibling is in the level, or else the node that it is filled in for. -/
def stepAt? (padding : Padding) (level : List Digest) (position : Nat) : Option ProofStep :=
  let (side, sibling) :=
    if position % 2 = 0 then (Side.right, position + 1) else (Side.left, position - 1)
  match level[sibling]? with
  | some node => some ⟨side, node⟩
  | none => level[position]?.map fun node => ⟨side, padding.fill node⟩

/-- `path`, if every position on the way up is in range. -/
def path? (padding : Padding) : (levels : List (List Digest)) → (position : Nat) →
    Option (List ProofStep)
  | level :: next :: rest, position => do
    let step ← stepAt? padding level position
    return step :: (← path? padding (next :: rest) (position / 2))
  | _, _ => some []

/-- The answer to a question for a proof, if every position that is read for it is in range. -/
def leafProof? (acc : Accumulator) (index : Nat) : Option (Except AuditError InclusionProof) :=
  match acc.leafHash? index with
  | none => some (.error (.indexOutOfRange index acc.size))
  | some leafHash => (path? acc.padding acc.levels index).map fun steps =>
    .ok { leafIndex := index, leafHash, root := acc.root, steps }

end Accumulator

/-- The side of the sibling on the level `k` above the leaves: left of a right node. -/
def sideAt (i k : Nat) : Side := if i.testBit k then .left else .right

section
variable {H : Hash} {padding : Padding} {level : List Digest} {above : List (List Digest)}

/-! ## Positions in range -/

theorem stepAt?_eq_some {i : Nat} (hi : i < level.length) :
    stepAt? padding level i = some (stepAt padding level i) := by
  unfold stepAt? stepAt
  by_cases heven : i % 2 = 0
  · simp only [if_pos heven]
    -- The last node of a level of odd length has no sibling, and stands at `i` itself.
    cases hsibling : level[i + 1]? with
    | none => simp [hi]
    | some node => rfl
  · have hsibling : i - 1 < level.length := by omega
    simp [heven, hsibling]

theorem Built.path?_eq_some (hb : Built H padding level above) {i : Nat} (hi : i < level.length) :
    path? padding (level :: above) i = some (path padding (level :: above) i) := by
  induction hb generalizing i with
  | top => rfl
  | level _ _ ih =>
    have hnext := ih (i := i / 2) (by rw [length_nextLevel]; omega)
    simp only [path?, path, stepAt?_eq_some hi, hnext, Option.bind_eq_bind, Option.bind_some,
      Option.pure_def]

/-! ## The sides of a path -/

theorem length_path (i : Nat) : (path padding (level :: above) i).length = above.length := by
  induction above generalizing level i with
  | nil => rfl
  | cons next rest ih => rw [path, List.length_cons, ih, List.length_cons]

theorem side_stepAt (i : Nat) : (stepAt padding level i).side = sideAt i 0 := by
  rw [sideAt, Nat.testBit_zero, stepAt]
  rcases Nat.mod_two_eq_zero_or_one i with heven | hodd
  · simp [heven]
  · simp [hodd]

theorem sideAt_succ (i k : Nat) : sideAt i (k + 1) = sideAt (i / 2) k := by
  rw [sideAt, Nat.testBit_succ, sideAt]

/-- **The sides of a path are the binary digits of the position**, lowest first. -/
theorem sides_path (i : Nat) :
    (path padding (level :: above) i).map ProofStep.side =
      (List.range above.length).map (sideAt i) := by
  induction above generalizing level i with
  | nil => rfl
  | cons next rest ih =>
    rw [path, List.map_cons, side_stepAt, ih, List.length_cons, List.range_succ_eq_map,
      List.map_cons, List.map_map]
    exact congrArg _ (List.map_congr_left fun k _ => (sideAt_succ i k).symm)

end

/-! ## Proofs and what they hold for -/

section
variable {H : Hash} {padding : Padding} {records : List Bytes} {i : Nat} {record : Bytes}

theorem leafHash?_ofRecords :
    (ofRecords H padding records).leafHash? i = records[i]?.map (leafHash H) := by
  rw [leafHash?, leaves_ofRecords, List.getElem?_map]

theorem size_ofRecords : (ofRecords H padding records).size = records.length := by
  rw [size, leaves_ofRecords, List.length_map]

/-- **No proof is read from outside the tree**, and none is refused for a record of it. -/
theorem leafProof?_ofRecords (h : records[i]? = some record) :
    leafProof? (ofRecords H padding records) i =
      some (.ok (opening H padding records i record)) := by
  rw [leafProof?, leafHash?_ofRecords, h, padding_ofRecords, levels, leaves_ofRecords]
  simp only [Option.map_some, (built_ofRecords H padding records).path?_eq_some
    (lt_length_leaves h)]
  rw [opening, levels, leaves_ofRecords]

theorem leafProof?_of_length_le (h : records.length ≤ i) :
    leafProof? (ofRecords H padding records) i =
      some (.error (.indexOutOfRange i records.length)) := by
  rw [leafProof?, leafHash?_ofRecords, List.getElem?_eq_none h, size_ofRecords]
  rfl

/-- Bytes with the leaf of a record are the record, or the hash has a collision. -/
theorem eq_or_collision {a b : Bytes} (h : leafHash H a = leafHash H b) :
    a = b ∨ leafBytes a ≠ leafBytes b ∧ H (leafBytes a) = H (leafBytes b) := by
  by_cases hab : a = b
  · exact .inl hab
  · exact .inr ⟨fun hbytes => hab (leafBytes_inj hbytes), h⟩

/-- What a proof says about the record at `i` of a tree of these records. -/
structure Vouches (H : Hash) (padding : Padding) (records : List Bytes) (i : Nat) (record : Bytes)
    (p : InclusionProof) : Prop where
  leafIndex : p.leafIndex = i
  leafHash : p.leafHash = leafHash H record
  root : p.root = (ofRecords H padding records).root
  /-- One step for each time the number of nodes is halved until one is left. -/
  length : p.steps.length = Nat.clog 2 records.length
  sides : p.steps.map ProofStep.side = (List.range (Nat.clog 2 records.length)).map (sideAt i)
  spelled : spelled p.steps = i
  verify (bytes : Bytes) : (ofRecords H padding records).verify H p bytes = true ↔
    Merkle.leafHash H bytes = Merkle.leafHash H record
  verifyAgainst (bytes : Bytes) :
    p.verifyAgainst H (ofRecords H padding records).root bytes = true ↔
      Merkle.leafHash H bytes = Merkle.leafHash H record

theorem vouches_opening (h : records[i]? = some record) :
    Vouches H padding records i record (opening H padding records i record) := by
  have hheight : (ofRecords H padding records).above.length = Nat.clog 2 records.length :=
    height_ofRecords records
  exact {
    leafIndex := rfl
    leafHash := rfl
    root := rfl
    length := by rw [opening, levels, length_path, hheight]
    sides := by rw [opening, levels, sides_path, hheight]
    spelled := spelled_opening h
    verify := fun bytes => by rw [verify_opening h, decide_eq_true_eq]
    verifyAgainst := fun bytes => by rw [verifyAgainst_opening h, decide_eq_true_eq] }

/-- Whatever a proof says, it holds only for bytes with the leaf at its position. -/
theorem leafHash?_of_verify {acc : Accumulator} {p : InclusionProof} {bytes : Bytes}
    (h : acc.verify H p bytes = true) : acc.leafHash? p.leafIndex = some (leafHash H bytes) := by
  rw [verify, InclusionProof.verifyAgainst, Bool.and_eq_true, Bool.and_eq_true, decide_eq_true_eq,
    decide_eq_true_eq] at h
  rw [h.1, h.2.1]

end

/-- **Proofs are complete and binding.** For any way to hash and to complete levels, a tree answers
every question for a proof without leaving its levels, as a log over it does: with a proof for the
record there, or with the number of its records. The proof vouches for the record, and for other
bytes only where the hash of leaves collides. And any proof that holds is one for the leaf at its
position. -/
theorem proofs_complete (H : Hash) (padding : Padding) (records : List Bytes) (i : Nat)
    (entries : List Entry) :
    leafProof? (ofRecords H padding records) i =
        some (Log.leafProof ⟨ofRecords H padding records, entries⟩ i) ∧
      (i < records.length → ∃ record p, records[i]? = some record ∧
        leafProof? (ofRecords H padding records) i = some (.ok p) ∧
        Vouches H padding records i record p ∧
        ∀ bytes, (ofRecords H padding records).verify H p bytes = true ∨
            p.verifyAgainst H (ofRecords H padding records).root bytes = true →
          bytes = record ∨ leafBytes bytes ≠ leafBytes record ∧
            H (leafBytes bytes) = H (leafBytes record)) ∧
      (records.length ≤ i → leafProof? (ofRecords H padding records) i =
        some (.error (.indexOutOfRange i records.length))) ∧
      ∀ (acc : Accumulator) (p : InclusionProof) (bytes : Bytes), acc.verify H p bytes = true →
        acc.leafHash? p.leafIndex = some (leafHash H bytes) := by
  refine ⟨?_, fun hi => ?_, leafProof?_of_length_le, fun acc p bytes => leafHash?_of_verify⟩
  · cases h : records[i]? with
    | some record =>
      rw [leafProof?_ofRecords h, Log.leafProof]
      simp only [proof?_ofRecords h]
    | none =>
      have hnone : (ofRecords H padding records).proof? i = none := by
        rw [proof?, leafHash?_ofRecords, h]
        rfl
      rw [leafProof?_of_length_le (List.getElem?_eq_none_iff.1 h), Log.leafProof]
      simp only [hnone, size_ofRecords]
  · have h : records[i]? = some records[i] := List.getElem?_eq_getElem hi
    have hv : Vouches H padding records i records[i] (opening H padding records i records[i]) :=
      vouches_opening h
    refine ⟨records[i], _, h, leafProof?_ofRecords h, hv, ?_⟩
    rintro bytes (hverify | hverify)
    · exact eq_or_collision ((hv.verify bytes).1 hverify)
    · exact eq_or_collision ((hv.verifyAgainst bytes).1 hverify)

theorem proofs_complete_fifth :
    let records : List Bytes := [[1], [2], [3], [4], [5]]
    let tree := ofRecords sha256 .duplicateLast records
    ∃ p, leafProof? tree 4 = some (.ok p) ∧
      p.steps.map ProofStep.side = [.right, .right, .left] ∧
      tree.verify sha256 p [5] = true ∧ tree.leafHash? p.leafIndex = some (leafHash sha256 [5]) ∧
      leafProof? tree 5 = some (.error (.indexOutOfRange 5 5)) := by
  intro records tree
  obtain ⟨-, hproof, -, hbound⟩ := proofs_complete sha256 .duplicateLast records 4 []
  obtain ⟨record, p, hrecord, hp, hv, -⟩ := hproof (by decide)
  obtain rfl : [5] = record := Option.some.inj hrecord
  have hverify := (hv.verify [5]).2 rfl
  have hsides : (List.range (Nat.clog 2 records.length)).map (sideAt 4) =
      [.right, .right, .left] := by decide
  exact ⟨p, hp, hv.sides.trans hsides, hverify, hbound tree p [5] hverify,
    (proofs_complete sha256 .duplicateLast records 5 []).2.2.1 (by decide)⟩

end QubitWarden.Merkle
