import QubitWarden.Capability.Set
import QubitWarden.Text.Hex

/-!
# Token errors

Why a token is not issued, not decoded or not accepted. Each error has a wording and a stable reason
code.

* `TokenError.reasonCode_eq_iff`: errors have one code exactly if they are of one kind.
* `TokenError.isValidation`: the request itself is refused.
* `TokenError.isViolation`: a registered token is not contained in its parent.
* `bind_eq_ok_iff`: checks one after the other succeed exactly if each of them does.
* `mapError_eq_ok_iff`: what an error is reported as changes no success.
-/

namespace QubitWarden

/-- What is wrong with the fields of a token. -/
inductive Malformation where
  | unknownCapability (name : String)
  | missingField (field : String)
  | invalidValue (field : String)
  | signatureDigits (cause : Hex.Error)
  | signatureWidth
  | identifier
  | described (text : String)
  deriving DecidableEq

def Malformation.message : Malformation → String
  | .unknownCapability name => "unknown capability '" ++ name ++ "'"
  | .missingField field => "missing field '" ++ field ++ "'"
  | .invalidValue field => "invalid value for '" ++ field ++ "'"
  | .signatureDigits cause => "signature: " ++ cause.message
  | .signatureWidth => "signature must be 32 bytes"
  | .identifier => "token id"
  | .described text => text

/-- Why a token is refused. -/
inductive TokenError where
  /-- A token has to grant something. -/
  | emptyCapabilitySet
  /-- A child asks for these capabilities, which its source does not have. -/
  | notASubset (excess : CapabilitySet)
  | delegationTooDeep (depth max : UInt32)
  | revoked
  | expired (expiresAt : UInt64)
  | useLimitExceeded (maxUses : UInt32)
  | invalidSignature
  /-- The token is well formed but not in the registry. -/
  | unknownToken
  /-- The registered token is not contained in its registered parent. -/
  | lineageViolation
  | malformed (cause : Malformation)
  /-- A key of this length cannot be used. -/
  | key (length : Nat)
  deriving DecidableEq

namespace TokenError

def message : TokenError → String
  | .emptyCapabilitySet => "capability set must not be empty"
  | .notASubset excess => "requested capabilities exceed the source token: " ++ excess.display
  | .delegationTooDeep depth max =>
    "delegation depth " ++ toString depth.toNat ++ " exceeds maximum " ++ toString max.toNat
  | .revoked => "token revoked"
  | .expired expiresAt => "token expired at " ++ toString expiresAt.toNat
  | .useLimitExceeded maxUses => "use limit of " ++ toString maxUses.toNat ++ " reached"
  | .invalidSignature => "invalid token signature"
  | .unknownToken => "token not issued by this manager"
  | .lineageViolation => "delegation lineage violated"
  | .malformed cause => "malformed token: " ++ cause.message
  | .key length => "key error: invalid key length: " ++ toString length

/-- The stable code of an error. -/
def reasonCode : TokenError → String
  | .emptyCapabilitySet => "empty_capability_set"
  | .notASubset _ => "not_a_subset"
  | .delegationTooDeep _ _ => "delegation_too_deep"
  | .revoked => "token_revoked"
  | .expired _ => "token_expired"
  | .useLimitExceeded _ => "use_limit_exceeded"
  | .invalidSignature => "invalid_signature"
  | .unknownToken => "unknown_token"
  | .lineageViolation => "lineage_violation"
  | .malformed _ => "malformed_token"
  | .key _ => "key_error"

/-- Errors of one kind, whatever they carry. -/
def SameKind (a b : TokenError) : Prop := a.ctorIdx = b.ctorIdx

/-- The code of an error tells its kind. -/
theorem reasonCode_eq_iff {a b : TokenError} : a.reasonCode = b.reasonCode ↔ a.SameKind b := by
  cases a <;> cases b <;> simp [reasonCode, SameKind, TokenError.ctorIdx]

/-- Whether the request itself is refused, before any token is made. -/
def isValidation : TokenError → Bool
  | .emptyCapabilitySet | .notASubset _ | .delegationTooDeep _ _ => true
  | _ => false

/-- Whether an invariant of the registry is broken. -/
def isViolation : TokenError → Bool
  | .lineageViolation => true
  | _ => false

end TokenError

theorem bind_eq_ok_iff {ε α β : Type} {x : Except ε α} {f : α → Except ε β} {b : β} :
    x >>= f = .ok b ↔ ∃ a, x = .ok a ∧ f a = .ok b := by
  cases x with
  | error e => exact ⟨nofun, nofun⟩
  | ok a => exact ⟨fun h => ⟨a, rfl, h⟩, fun ⟨_, ha, h⟩ => Except.ok.inj ha ▸ h⟩

theorem mapError_eq_ok_iff {ε ε' α : Type} {x : Except ε α} {f : ε → ε'} {a : α} :
    x.mapError f = .ok a ↔ x = .ok a := by
  cases x with
  | error e => exact ⟨nofun, nofun⟩
  | ok b => exact ⟨fun h => congrArg _ (Except.ok.inj h), fun h => congrArg _ (Except.ok.inj h)⟩

end QubitWarden
