import QubitWarden.Merkle.Proof

/-!
# The accumulator

A binary hash tree that grows one leaf at a time. It keeps every level, leaves first; appending a
leaf recomputes the last node of each level above and touches nothing else.

* `Accumulator.append`: the tree with one more record.
* `Accumulator.root`: the only node of the top level, or the sentinel for the empty tree.
* `Accumulator.proof?`: the siblings on the way up from a leaf.
* `Accumulator.verify`: a proof holds for the tree as it is now.
-/

namespace QubitWarden.Merkle

/-- The levels of a tree, leaves first; the last one holds only the root. -/
structure Accumulator where
  padding : Padding
  leaves : List Digest
  above : List (List Digest)
  deriving DecidableEq

/-- The list with `a` at position `i`, where `i` is at most the length. -/
def place {α : Type} (i : Nat) (a : α) (l : List α) : List α :=
  if i = l.length then l ++ [a] else l.set i a

namespace Accumulator

def empty (padding : Padding) : Accumulator := ⟨padding, [], []⟩

instance : Inhabited Accumulator := ⟨empty default⟩

/-- All levels, leaves first. -/
def levels (acc : Accumulator) : List (List Digest) := acc.leaves :: acc.above

def size (acc : Accumulator) : Nat := acc.leaves.length

/-- The root, or the sentinel when there is no leaf. -/
def root (acc : Accumulator) : Digest :=
  ((acc.above.getLast?.getD acc.leaves).head?).getD sentinel

/-- The digest of the leaf at `index`. -/
def leafHash? (acc : Accumulator) (index : Nat) : Option Digest := acc.leaves[index]?

/-- The parent of the pair at positions `2 * i` and `2 * i + 1`, the second one filled in if the
level ends before it. -/
def parentAt (H : Hash) (padding : Padding) (level : List Digest) (i : Nat) : Digest :=
  let left := level.getD (2 * i) sentinel
  nodeHash H left (level[2 * i + 1]?.getD (padding.fill left))

/-- The levels above `level` after its last node changed. -/
def raise (H : Hash) (padding : Padding) (level : List Digest) :
    (above : List (List Digest)) → List (List Digest)
  | [] => if 1 < level.length then [[parentAt H padding level ((level.length - 1) / 2)]] else []
  | next :: rest =>
    if 1 < level.length then
      let i := (level.length - 1) / 2
      let next' := place i (parentAt H padding level i) next
      next' :: raise H padding next' rest
    else next :: rest

def append (H : Hash) (acc : Accumulator) (record : Bytes) : Accumulator :=
  let leaves := acc.leaves ++ [leafHash H record]
  { acc with leaves, above := raise H acc.padding leaves acc.above }

/-- The tree of a sequence of records. -/
def ofRecords (H : Hash) (padding : Padding) (records : List Bytes) : Accumulator :=
  records.foldl (append H) (empty padding)

/-! ## Proofs -/

/-- The sibling of the node at `position`. -/
def stepAt (padding : Padding) (level : List Digest) (position : Nat) : ProofStep :=
  if position % 2 = 0 then
    { side := .right
      sibling := level[position + 1]?.getD (padding.fill (level.getD position sentinel)) }
  else
    { side := .left
      sibling := level.getD (position - 1) sentinel }

/-- The siblings on the way up from `position` through all levels but the last. -/
def path (padding : Padding) : (levels : List (List Digest)) → (position : Nat) → List ProofStep
  | level :: next :: rest, position =>
    stepAt padding level position :: path padding (next :: rest) (position / 2)
  | _, _ => []

def proof? (acc : Accumulator) (index : Nat) : Option InclusionProof :=
  (acc.leafHash? index).map fun leafHash =>
    { leafIndex := index, leafHash, root := acc.root, steps := path acc.padding acc.levels index }

/-- Whether a proof shows that `record` is in the tree as it is now. -/
def verify (H : Hash) (acc : Accumulator) (p : InclusionProof) (record : Bytes) : Bool :=
  acc.leafHash? p.leafIndex = some p.leafHash && p.verifyAgainst H acc.root record

end Accumulator

end QubitWarden.Merkle
