import QubitWarden.Capability.Set
import QubitWarden.Digest.Sha256
import QubitWarden.Token.Id
import QubitWarden.Word.Saturating

/-!
# Capability tokens

A token is a grant with its signature and two marks that the signature does not cover: how often it
was used, and whether it was revoked.

* `Grant`: the nine signed fields.
* `Grant.payload`: the bytes that the signature covers, each field at a place that the ones before
  it determine.
* `Token.isExpiredAt`: a token is valid up to and including the second of its expiry.
-/

namespace QubitWarden

/-- A tenant of the service. -/
abbrev Tenant := String

/-- A session that a token may be bound to. -/
abbrev Session := String

/-- A time in seconds. -/
abbrev Timestamp := UInt64

/-- What a token grants, to whom and for how long: all that its signature covers. -/
structure Grant where
  id : TokenId
  capabilities : CapabilitySet
  tenant : Tenant
  session : Option Session
  issuedAt : Timestamp
  expiresAt : Timestamp
  maxUses : Option UInt32
  parent : Option TokenId
  /-- The number of delegations between the token and its root. -/
  depth : UInt32
  deriving DecidableEq

/-- A signed grant, with the marks that change after it was issued. -/
structure Token extends Grant where
  useCount : UInt32
  revoked : Bool
  signature : Digest
  deriving DecidableEq

/-! ## The signed bytes -/

namespace Payload

/-- A word of four bytes, least significant first. -/
def word32 (n : UInt32) : Bytes := littleEndian 4 n.toNat

/-- A word of eight bytes, least significant first. -/
def word64 (n : UInt64) : Bytes := littleEndian 8 n.toNat

/-- The length of a text on eight bytes, then its bytes. -/
def text (s : String) : Bytes :=
  let bytes := Utf8.encode s
  littleEndian 8 bytes.length ++ bytes

/-- A byte that says whether there is a value, then the value. -/
def option {α : Type} (write : α → Bytes) : Option α → Bytes
  | none => [0]
  | some a => 1 :: write a

/-- The number of items on eight bytes, then the items. -/
def list {α : Type} (write : α → Bytes) (items : List α) : Bytes :=
  littleEndian 8 items.length ++ items.flatMap write

/-- The text that every signed payload begins with. -/
def domain : String := "qk-capability-token-v1"

end Payload

/-- The bytes that the signature covers. -/
def Grant.payload (g : Grant) : Bytes :=
  Payload.text Payload.domain ++
  g.id.toBytes ++
  Payload.list Payload.text g.capabilities.names ++
  Payload.text g.tenant ++
  Payload.option Payload.text g.session ++
  Payload.word64 g.issuedAt ++
  Payload.word64 g.expiresAt ++
  Payload.option Payload.word32 g.maxUses ++
  Payload.option TokenId.toBytes g.parent ++
  Payload.word32 g.depth

/-- A way to sign bytes. -/
abbrev Signer := Bytes → Digest

/-- The unused token of a grant. -/
def Grant.sign (sign : Signer) (g : Grant) : Token :=
  { g with useCount := 0, revoked := false, signature := sign g.payload }

namespace Token

/-- Whether the signature is the one of the grant. -/
def signatureMatches (sign : Signer) (t : Token) : Bool := sign t.payload = t.signature

def isExpiredAt (t : Token) (now : Timestamp) : Bool := t.expiresAt < now

/-- The uses left, for a token with a limit. -/
def remainingUses (t : Token) : Option UInt32 :=
  t.maxUses.map fun max => Saturating.sub32 max t.useCount

def use (t : Token) : Token := { t with useCount := Saturating.succ32 t.useCount }

def revoke (t : Token) : Token := { t with revoked := true }

end Token

end QubitWarden
