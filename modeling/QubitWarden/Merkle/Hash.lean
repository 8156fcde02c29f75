import QubitWarden.Digest.Sha256
import QubitWarden.Text.Blank
import QubitWarden.Text.Letters

/-!
# Hashes of a tree

Leaves and inner nodes are hashed with different first bytes, so no leaf is an inner node. The hash
function is a parameter throughout.

* `leafHash`, `nodeHash`: the digests of a record and of two adjacent nodes.
* `Padding`: what stands in for the missing last node of a level of odd length.
-/

namespace QubitWarden

/-- A hash function. -/
abbrev Hash := Bytes → Digest

namespace Merkle

/-- The bytes hashed for a record. -/
def leafBytes (record : Bytes) : Bytes := 0x00 :: record

/-- The bytes hashed for two adjacent nodes. -/
def nodeBytes (left right : Digest) : Bytes := 0x01 :: (left.toBytes ++ right.toBytes)

def leafHash (H : Hash) (record : Bytes) : Digest := H (leafBytes record)

def nodeHash (H : Hash) (left right : Digest) : Digest := H (nodeBytes left right)

/-- The root of the empty tree, and the filler of `Padding.sentinel`. -/
def sentinel : Digest := Block.zero 32

end Merkle

/-- How the last pair of a level of odd length is completed. -/
inductive Padding where
  /-- The last node stands twice. -/
  | duplicateLast
  /-- The sentinel stands for the missing node. -/
  | sentinel
  deriving DecidableEq, Repr, Inhabited

namespace Padding

def name : Padding → String
  | .duplicateLast => "duplicate_last"
  | .sentinel => "sentinel"

def ofName? (s : String) : Option Padding :=
  if s = "duplicate_last" then some .duplicateLast
  else if s = "sentinel" then some .sentinel
  else none

/-- The padding that a text asks for, around which blanks and in which the case do not matter. The
error is the text that was looked up. -/
def parse (s : String) : Except String Padding :=
  let word := Text.lower (Text.trim s)
  if word = "duplicate" then .ok .duplicateLast
  else match ofName? word with
    | some p => .ok p
    | none => .error word

def unknownMessage (word : String) : String := "unknown padding strategy '" ++ word ++ "'"

/-- The node that completes a pair whose left node is `last`. -/
def fill : Padding → (last : Digest) → Digest
  | .duplicateLast, last => last
  | .sentinel, _ => Merkle.sentinel

end Padding

end QubitWarden
