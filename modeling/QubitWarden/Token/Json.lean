import QubitWarden.Json.Value
import QubitWarden.Token.Basic

/-!
# Tokens as JSON

The structured form of a token: an object with a member for every field, null for an absent one, and
the signature as an array of 32 numbers.

* `Token.toJson`: the members in the order of the fields.
* `Token.ofJson?`: the token of such an object in any member order, or of an array of the values.
-/

namespace QubitWarden

namespace CapabilitySet

def toJson (s : CapabilitySet) : Json := .array (s.names.map Json.text)

def ofJson? (value : Json) : Option CapabilitySet :=
  value.items?.bind fun items =>
  (items.mapM fun (item : Json) => item.variant?.bind Capability.ofName?).map ofList

end CapabilitySet

namespace Token

/-- A number, or null for none. -/
def natural? : Option UInt32 → Json
  | none => .null
  | some n => .natural n.toNat

def toJson (t : Token) : Json := .ofMembers [
  ("token_id", .text t.id.toText),
  ("capability_set", t.capabilities.toJson),
  ("tenant_id", .text t.tenant),
  ("session_id", .ofText? t.session),
  ("issued_at", .natural t.issuedAt.toNat),
  ("expires_at", .natural t.expiresAt.toNat),
  ("max_uses", natural? t.maxUses),
  ("use_count", .natural t.useCount.toNat),
  ("revoked", .bool t.revoked),
  ("parent_token_id", .ofText? (t.parent.map TokenId.toText)),
  ("delegation_depth", .natural t.depth.toNat),
  ("signature", .array (t.signature.toBytes.map fun b => .natural b.toNat))]

/-- The identifier of a string literal. -/
def idOfJson? (value : Json) : Option TokenId := value.text?.bind TokenId.parse?

/-- The digest of an array of 32 numbers. -/
def digestOfJson? (value : Json) : Option Digest :=
  value.items?.bind fun items => (items.mapM Json.byte?).bind (Block.ofBytes? 32)

/-- The token of the values of its fields, in order. -/
def ofValues? (values : List Json) : Option Token :=
  match values with
  | [id, capabilities, tenant, session, issuedAt, expiresAt, maxUses, useCount, revoked, parent,
      depth, signature] => do
    return {
      id := ← idOfJson? id
      capabilities := ← CapabilitySet.ofJson? capabilities
      tenant := ← tenant.text?
      session := ← session.optional? Json.text?
      issuedAt := ← issuedAt.word64?
      expiresAt := ← expiresAt.word64?
      maxUses := ← maxUses.optional? Json.word32?
      useCount := ← useCount.word32?
      revoked := ← revoked.bool?
      parent := ← parent.optional? idOfJson?
      depth := ← depth.word32?
      signature := ← digestOfJson? signature }
  | _ => none

/-- The token of an object or an array of its fields. -/
def ofJson? (value : Json) : Option Token :=
  match value with
  | .array items => ofValues? items
  | _ => value.members?.bind fun members => do
    ofValues? [
      ← Json.required? "token_id" members,
      ← Json.required? "capability_set" members,
      ← Json.required? "tenant_id" members,
      ← Json.nullable? "session_id" members,
      ← Json.required? "issued_at" members,
      ← Json.required? "expires_at" members,
      ← Json.nullable? "max_uses" members,
      ← Json.required? "use_count" members,
      ← Json.required? "revoked" members,
      ← Json.nullable? "parent_token_id" members,
      ← Json.required? "delegation_depth" members,
      ← Json.required? "signature" members]

end Token

end QubitWarden
