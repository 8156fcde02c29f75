import QubitWarden.Merkle.Hash

/-!
# Inclusion proofs

The siblings on the way from a leaf to the root. A holder of the root checks a record against it
without the tree.

* `InclusionProof.replay`: the digest that the path leads to from a given leaf.
* `InclusionProof.verifyAgainst`: the record has the leaf hash of the proof, and the path leads from
  it to the root.
-/

namespace QubitWarden.Merkle

/-- The side on which a sibling stands. -/
inductive Side where
  | left
  | right
  deriving DecidableEq, Repr

namespace Side

def name : Side → String
  | .left => "left"
  | .right => "right"

def ofName? (s : String) : Option Side :=
  if s = "left" then some .left else if s = "right" then some .right else none

def flip : Side → Side
  | .left => .right
  | .right => .left

end Side

/-- One level of a proof. -/
structure ProofStep where
  side : Side
  sibling : Digest
  deriving DecidableEq

/-- The parent of `current` and the sibling of the step. -/
def ProofStep.parent (H : Hash) (current : Digest) (step : ProofStep) : Digest :=
  match step.side with
  | .left => nodeHash H step.sibling current
  | .right => nodeHash H current step.sibling

/-- The evidence that a leaf is in the tree with a root. -/
structure InclusionProof where
  leafIndex : Nat
  leafHash : Digest
  /-- The root when the proof was made. -/
  root : Digest
  /-- The siblings from the leaf level upwards. -/
  steps : List ProofStep
  deriving DecidableEq

namespace InclusionProof

/-- The digest that the steps lead to from `leaf`. -/
def replay (H : Hash) (p : InclusionProof) (leaf : Digest) : Digest :=
  p.steps.foldl (ProofStep.parent H) leaf

/-- Whether the proof shows that `record` is in the tree with this root. -/
def verifyAgainst (H : Hash) (p : InclusionProof) (root : Digest) (record : Bytes) : Bool :=
  Merkle.leafHash H record = p.leafHash && p.replay H (Merkle.leafHash H record) = root

end InclusionProof

end QubitWarden.Merkle
