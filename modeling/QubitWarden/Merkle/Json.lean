import QubitWarden.Json.Lenient
import QubitWarden.Json.Writer
import QubitWarden.Merkle.Accumulator

/-!
# Trees and proofs as JSON

* `InclusionProof.toJson`: each step is an array of its side and its sibling.
* `InclusionProof.ofJson?`: the proof of such an object.
* `Accumulator.toJson`: the summary of a tree, without its nodes.
-/

namespace QubitWarden.Merkle

/-- The digest of a text of digits. -/
def digestOfHex? (text : String) : Option Digest :=
  (Hex.decode text).toOption.bind (Block.ofBytes? 32)

namespace InclusionProof

/-- The side and the sibling. -/
def stepToJson (step : ProofStep) : Json :=
  .array [.text step.side.name, .ofBlock step.sibling]

/-- A proof with its steps from the leaf upwards. -/
def toJson (p : InclusionProof) : Json := .ofMembers [
  ("leaf_index", .natural p.leafIndex),
  ("leaf_hash", .ofBlock p.leafHash),
  ("root", .ofBlock p.root),
  ("steps", .array (p.steps.map stepToJson))]

/-- The step of an array of a side and a sibling. -/
def stepOfJson? (j : Json) : Option ProofStep := do
  let (side, sibling) ← Json.Lenient.pair? j
  return { side := ← Side.ofName? side, sibling := ← digestOfHex? sibling }

/-- The proof of an object; its digests have to be there. -/
def ofJson? (j : Json) : Option InclusionProof := do
  return {
    leafIndex := Json.Lenient.natural j "leaf_index"
    leafHash := ← (Json.Lenient.text? j "leaf_hash").bind digestOfHex?
    root := ← (Json.Lenient.text? j "root").bind digestOfHex?
    steps := ← (Json.Lenient.list j "steps").mapM stepOfJson? }

end InclusionProof

/-- The root, the size and the padding. -/
def Accumulator.toJson (acc : Accumulator) : Json := .ofMembers [
  ("root", .ofBlock acc.root),
  ("len", .natural acc.size),
  ("empty", .bool (acc.size = 0)),
  ("padding", .text acc.padding.name)]

end QubitWarden.Merkle
