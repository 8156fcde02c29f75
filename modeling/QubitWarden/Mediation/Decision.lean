import QubitWarden.Mediation.Requirements
import QubitWarden.Token.Basic
import QubitWarden.Token.Error

/-!
# Decisions

The outcome of a capability check with its reason, and the error it becomes for a caller that
insists.

* `Reason.ofTokenError`: every refusal of a token has a reason, which its code tells
  (`Reason.ofTokenError_eq`).
* `MediationError.ofDenial`: a broken invariant is told apart from a mere denial.
-/

namespace QubitWarden

/-- The reason of a decision. -/
inductive Reason where
  | granted
  /-- The operation is not in the table, and only mapped operations are allowed. -/
  | unmappedOperation
  /-- The token is accepted but lacks part of what the operation needs. -/
  | missingCapabilities
  | tokenRevoked
  | tokenExpired
  | useLimitExceeded
  | invalidSignature
  | unknownToken
  /-- An accepted token is not contained in its registered parent. -/
  | lineageViolation
  | malformedToken
  deriving DecidableEq, Repr, Inhabited

namespace Reason

def all : List Reason :=
  [.granted, .unmappedOperation, .missingCapabilities, .tokenRevoked, .tokenExpired,
    .useLimitExceeded, .invalidSignature, .unknownToken, .lineageViolation, .malformedToken]

/-- The stable code of a reason. -/
def name : Reason → String
  | .granted => "granted"
  | .unmappedOperation => "unmapped_operation"
  | .missingCapabilities => "missing_capabilities"
  | .tokenRevoked => "token_revoked"
  | .tokenExpired => "token_expired"
  | .useLimitExceeded => "use_limit_exceeded"
  | .invalidSignature => "invalid_signature"
  | .unknownToken => "unknown_token"
  | .lineageViolation => "lineage_violation"
  | .malformedToken => "malformed_token"

def ofName? (s : String) : Option Reason := all.find? fun r => r.name = s

/-- The reason of a refusal by the token authority. -/
def ofTokenError : TokenError → Reason
  | .revoked => .tokenRevoked
  | .expired _ => .tokenExpired
  | .useLimitExceeded _ => .useLimitExceeded
  | .invalidSignature => .invalidSignature
  | .unknownToken => .unknownToken
  | .lineageViolation => .lineageViolation
  | .emptyCapabilitySet | .notASubset _ | .delegationTooDeep _ _ | .malformed _ | .key _ =>
    .malformedToken

/-- Whether the reason is a broken invariant. -/
def isViolation : Reason → Bool
  | .lineageViolation => true
  | _ => false

theorem isViolation_iff {r : Reason} : r.isViolation = true ↔ r = .lineageViolation := by
  cases r <;> decide

theorem mem_all (r : Reason) : r ∈ all := by cases r <;> decide

theorem name_injective {a b : Reason} (h : a.name = b.name) : a = b := by
  revert h; cases a <;> cases b <;> decide

@[simp] theorem ofName?_name (r : Reason) : ofName? r.name = some r :=
  Association.find?_of_injective name_injective (mem_all r)

/-- A refusal has the reason that its code names, if there is one. -/
theorem ofTokenError_eq (e : TokenError) :
    ofTokenError e = (ofName? e.reasonCode).getD .malformedToken := by
  cases e <;> simp [ofTokenError, ofName?, all, name, TokenError.reasonCode]

end Reason

/-- The outcome of a capability check. -/
structure Decision where
  operation : Operation
  required : CapabilitySet
  /-- What the token lacks; empty unless that is the reason. -/
  missing : CapabilitySet
  reason : Reason
  timestamp : Timestamp
  tokenId : TokenId
  tenant : Tenant
  allowed : Bool
  deriving DecidableEq

/-- Why an operation that was insisted on does not take place. -/
inductive MediationError where
  | denied (operation : Operation) (reason : Reason) (missing : CapabilitySet)
  | invariantViolated (operation : Operation) (reason : Reason)
  deriving DecidableEq

namespace MediationError

/-- The error of a denied decision. -/
def ofDenial (d : Decision) : MediationError :=
  if d.reason.isViolation then .invariantViolated d.operation d.reason
  else .denied d.operation d.reason d.missing

/-- The reason of the denial. -/
def reason : MediationError → Reason
  | .denied _ reason _ => reason
  | .invariantViolated _ reason => reason

theorem reason_ofDenial (d : Decision) : (ofDenial d).reason = d.reason := by
  unfold ofDenial
  split <;> rfl

def message : MediationError → String
  | .denied operation reason missing =>
    "operation '" ++ operation ++ "' denied: " ++ reason.name ++ " (missing: [" ++
      missing.display ++ "])"
  | .invariantViolated operation reason =>
    "invariant violated during '" ++ operation ++ "': " ++ reason.name

end MediationError

end QubitWarden
