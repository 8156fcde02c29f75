import QubitWarden.Text.Numeral
import QubitWarden.Token.Basic
import QubitWarden.Token.Error

/-!
# Tokens in transport

A token travels as a map from field names to texts. Reading checks the fields in a fixed order and
reports the first fault; it does not authenticate.

* `Token.toFields`: the canonical map; an optional field that is absent has no entry.
* `Token.ofFields`: the token of a map, in any of the accepted spellings. Unknown fields are
  ignored.
-/

namespace QubitWarden

/-- A map from field names to texts. -/
abbrev FieldMap := List (String × String)

namespace FieldMap

def get? (m : FieldMap) (field : String) : Option String := m.lookup field

def erase (m : FieldMap) (field : String) : FieldMap := m.filter fun entry => entry.1 ≠ field

def set (m : FieldMap) (field text : String) : FieldMap := (field, text) :: erase m field

/-- The text of a field that has to be there. -/
def required (m : FieldMap) (field : String) : Except TokenError String :=
  match m.get? field with
  | some text => .ok text
  | none => .error (.malformed (.missingField field))

/-- The value of a text that belongs to `field`. -/
def read {α : Type} (reader : String → Option α) (field text : String) : Except TokenError α :=
  match reader text with
  | some a => .ok a
  | none => .error (.malformed (.invalidValue field))

/-- The identifier that a text stands for. -/
def readId (text : String) : Except TokenError TokenId :=
  match TokenId.parse? text with
  | some id => .ok id
  | none => .error (.malformed .identifier)

/-- The value of a field that may be left out. -/
def readOptional {α : Type} (reader : String → Except TokenError α) (m : FieldMap)
    (field : String) : Except TokenError (Option α) :=
  match m.get? field with
  | some text => (reader text).map some
  | none => .ok none

end FieldMap

/-! ## Capability sets and signatures -/

/-- The set of these wire names; an unknown name makes the token malformed. -/
def CapabilitySet.readNames (names : List String) : Except TokenError CapabilitySet :=
  (CapabilitySet.ofNames names).mapError fun name => .malformed (.unknownCapability name)

/-- The set of wire names joined by commas; an unknown name makes the token malformed. -/
def CapabilitySet.read (joined : String) : Except TokenError CapabilitySet :=
  (CapabilitySet.parse joined).mapError fun name => .malformed (.unknownCapability name)

/-- The signature written in hexadecimal. -/
def Token.readSignature (text : String) : Except TokenError Digest :=
  match Hex.decode text with
  | .error cause => .error (.malformed (.signatureDigits cause))
  | .ok bytes =>
    match Block.ofBytes? 32 bytes with
    | some digest => .ok digest
    | none => .error (.malformed .signatureWidth)

namespace Token

/-- The entry of an optional field. -/
def optionalField (field : String) : Option String → FieldMap
  | some text => [(field, text)]
  | none => []

/-- The canonical field map of a token. -/
def toFields (t : Token) : FieldMap :=
  [("token_id", t.id.toText), ("capability_set", t.capabilities.display),
    ("tenant_id", t.tenant)] ++
  optionalField "session_id" t.session ++
  [("issued_at", Text.decimal t.issuedAt.toNat), ("expires_at", Text.decimal t.expiresAt.toNat)] ++
  optionalField "max_uses" (t.maxUses.map fun n => Text.decimal n.toNat) ++
  [("use_count", Text.decimal t.useCount.toNat),
    ("revoked", if t.revoked then "true" else "false")] ++
  optionalField "parent_token_id" (t.parent.map TokenId.toText) ++
  [("delegation_depth", Text.decimal t.depth.toNat), ("signature", Hex.encode t.signature.toBytes)]

open FieldMap in
def ofFields (m : FieldMap) : Except TokenError Token := do
  let capabilities ← CapabilitySet.read (← required m "capability_set")
  if capabilities.isEmpty then throw .emptyCapabilitySet
  let signature ← readSignature (← required m "signature")
  let id ← readId (← required m "token_id")
  let tenant ← required m "tenant_id"
  let session := m.get? "session_id"
  let issuedAt ← read Text.word64? "issued_at" (← required m "issued_at")
  let expiresAt ← read Text.word64? "expires_at" (← required m "expires_at")
  let maxUses ← readOptional (read Text.word32? "max_uses") m "max_uses"
  let useCount ← readOptional (read Text.word32? "use_count") m "use_count"
  let revoked ← readOptional (read Text.boolean? "revoked") m "revoked"
  let parent ← readOptional readId m "parent_token_id"
  let depth ← read Text.word32? "delegation_depth" (← required m "delegation_depth")
  return {
    id, capabilities, tenant, session, issuedAt, expiresAt, maxUses, parent, depth, signature
    useCount := useCount.getD 0
    revoked := revoked.getD false }

end Token

end QubitWarden
