import QubitWarden.Merkle.Proof
import QubitWarden.Proofs.Merkle.Levels

/-!
# What is hashed

A digest stands for the bytes it was computed from, as long as no two of the byte strings that occur
share it.

* `Separating`: what is assumed of a hash on the byte strings that occur.
* `treeBytes`, `InclusionProof.bytes`: the byte strings hashed for a tree, and on the way up along a
  proof.
* `leafBytes_ne_nodeBytes`, `nodeBytes_inj`: these bytes tell a leaf from an inner node, and a node
  from any other.
-/

namespace QubitWarden.Merkle

open Accumulator

theorem leafBytes_inj {a b : Bytes} (h : leafBytes a = leafBytes b) : a = b := (List.cons.inj h).2

theorem nodeBytes_inj {left right left' right' : Digest}
    (h : nodeBytes left right = nodeBytes left' right') : left = left' ∧ right = right' := by
  obtain ⟨hleft, hright⟩ := List.append_inj (List.cons.inj h).2
    (by rw [left.length_toBytes, left'.length_toBytes])
  exact ⟨Block.ext hleft, Block.ext hright⟩

theorem leafBytes_ne_nodeBytes (record : Bytes) (left right : Digest) :
    leafBytes record ≠ nodeBytes left right := fun h => absurd (List.cons.inj h).1 (by decide)

/-- No two distinct byte strings among these have the same digest, and the digest of none is the
sentinel. -/
structure Separating (H : Hash) (hashed : List Bytes) : Prop where
  inj : ∀ x ∈ hashed, ∀ y ∈ hashed, H x = H y → x = y
  ne_sentinel : ∀ x ∈ hashed, H x ≠ sentinel

instance (H : Hash) (hashed : List Bytes) : Decidable (Separating H hashed) :=
  decidable_of_iff
    ((∀ x ∈ hashed, ∀ y ∈ hashed, H x = H y → x = y) ∧ ∀ x ∈ hashed, H x ≠ sentinel)
    ⟨fun h => ⟨h.1, h.2⟩, fun h => ⟨h.1, h.2⟩⟩

theorem Separating.subset {H : Hash} {hashed part : List Bytes} (h : Separating H hashed)
    (hsub : ∀ x ∈ part, x ∈ hashed) : Separating H part :=
  ⟨fun x hx y hy => h.inj x (hsub x hx) y (hsub y hy), fun x hx => h.ne_sentinel x (hsub x hx)⟩

/-- The bytes hashed for the levels above `level`. -/
def innerBytes (padding : Padding) : (level : List Digest) → (above : List (List Digest)) →
    List Bytes
  | _, [] => []
  | level, next :: rest => pairBytes padding level ++ innerBytes padding next rest

/-- The bytes hashed for the nodes that the tree of these records holds. -/
def treeBytes (H : Hash) (padding : Padding) (records : List Bytes) : List Bytes :=
  records.map leafBytes ++
    innerBytes padding (records.map (leafHash H)) (ofRecords H padding records).above

theorem exists_nodeBytes {padding : Padding} {level : List Digest} {x : Bytes}
    (hx : x ∈ pairBytes padding level) : ∃ left right, x = nodeBytes left right := by
  obtain ⟨i, hi⟩ := List.mem_iff_getElem?.1 hx
  rw [getElem?_pairBytes] at hi
  obtain ⟨left, -, rfl⟩ := Option.map_eq_some_iff.1 hi
  exact ⟨left, _, rfl⟩

theorem leafBytes_mem_treeBytes {H : Hash} {padding : Padding} {records : List Bytes}
    {record : Bytes} (h : record ∈ records) : leafBytes record ∈ treeBytes H padding records :=
  List.mem_append_left _ (List.mem_map_of_mem h)

theorem pairBytes_subset_innerBytes {padding : Padding} {level : List Digest}
    {above : List (List Digest)} {k : Nat} {lower upper : List Digest}
    (hlower : (level :: above)[k]? = some lower) (hupper : (level :: above)[k + 1]? = some upper) :
    ∀ x ∈ pairBytes padding lower, x ∈ innerBytes padding level above := by
  induction above generalizing level k with
  | nil => cases hupper
  | cons next rest ih =>
    intro x hx
    cases k with
    | zero =>
      cases hlower
      exact List.mem_append_left _ hx
    | succ k => exact List.mem_append_right _ (ih hlower hupper x hx)

theorem Built.pair_of_upper {H : Hash} {padding : Padding} {level : List Digest}
    {above : List (List Digest)} (hb : Built H padding level above) {k i : Nat}
    {upper : List Digest} {node : Digest} (hupper : (level :: above)[k + 1]? = some upper)
    (hnode : upper[i]? = some node) :
    ∃ lower bytes, (level :: above)[k]? = some lower ∧ upper = nextLevel H padding lower ∧
      (pairBytes padding lower)[i]? = some bytes ∧ bytes ∈ innerBytes padding level above ∧
      H bytes = node := by
  obtain ⟨lower, hlower⟩ : ∃ lower, (level :: above)[k]? = some lower :=
    ⟨_, List.getElem?_eq_getElem (Nat.lt_of_succ_lt (List.getElem?_eq_some_iff.1 hupper).1)⟩
  obtain ⟨-, rfl⟩ := hb.next hlower hupper
  rw [nextLevel, List.getElem?_map] at hnode
  obtain ⟨bytes, hbytes, hdigest⟩ := Option.map_eq_some_iff.1 hnode
  exact ⟨lower, bytes, hlower, rfl, hbytes,
    pairBytes_subset_innerBytes hlower hupper _ (List.mem_of_getElem? hbytes), hdigest⟩

/-! ## Proofs -/

/-- The bytes hashed for a step from `current`. -/
def ProofStep.bytes (current : Digest) (step : ProofStep) : Bytes :=
  match step.side with
  | .left => nodeBytes step.sibling current
  | .right => nodeBytes current step.sibling

theorem ProofStep.parent_eq (H : Hash) (current : Digest) (step : ProofStep) :
    step.parent H current = H (step.bytes current) := by
  obtain ⟨side, sibling⟩ := step
  cases side <;> rfl

/-- The bytes hashed on the way up from `current`. -/
def stepsBytes (H : Hash) : (current : Digest) → List ProofStep → List Bytes
  | _, [] => []
  | current, step :: rest => step.bytes current :: stepsBytes H (step.parent H current) rest

/-- The bytes hashed to check a proof for a record. -/
def InclusionProof.bytes (H : Hash) (p : InclusionProof) (record : Bytes) : List Bytes :=
  leafBytes record :: stepsBytes H (Merkle.leafHash H record) p.steps

/-- The last digest on the way up is that of bytes hashed on the way. -/
theorem replay_mem {H : Hash} {current : Digest} {hashed : List Bytes} (steps : List ProofStep)
    (hcurrent : ∃ x ∈ hashed, H x = current) (hsteps : ∀ x ∈ stepsBytes H current steps, x ∈ hashed) :
    ∃ x ∈ hashed, H x = steps.foldl (ProofStep.parent H) current := by
  induction steps generalizing current with
  | nil => exact hcurrent
  | cons step rest ih =>
    refine ih ⟨step.bytes current, hsteps _ List.mem_cons_self, (step.parent_eq H current).symm⟩ ?_
    exact fun x hx => hsteps x (List.mem_cons_of_mem _ hx)

/-- The place of the node whose sibling is on this side: the right one of its pair is a one. -/
def Side.bit : Side → Nat
  | .left => 1
  | .right => 0

/-- The number that the sides of the steps spell, lowest bit first. -/
def spelled : List ProofStep → Nat
  | [] => 0
  | step :: rest => step.side.bit + 2 * spelled rest

end QubitWarden.Merkle
