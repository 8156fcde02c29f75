import QubitWarden.Association

/-!
# Audit events

The closed vocabulary of what is recorded. `isSecurityRelevant` marks the events that record a
refused or suspicious action.
-/

namespace QubitWarden.Audit

/-- The kind of a recorded event. -/
inductive EventType where
  | tokenIssued
  | tokenAttenuated
  | tokenRevoked
  | tokensCollected
  | capabilityGranted
  | capabilityDenied
  | qubitAllocated
  | qubitDeallocated
  | qubitResetSkipped
  | allocationDenied
  | ownershipViolation
  | qubitFaulty
  | qubitMaintenance
  | qubitRestored
  | securityViolation
  deriving DecidableEq, Repr, Inhabited

namespace EventType

def all : List EventType :=
  [.tokenIssued, .tokenAttenuated, .tokenRevoked, .tokensCollected, .capabilityGranted,
    .capabilityDenied, .qubitAllocated, .qubitDeallocated, .qubitResetSkipped, .allocationDenied,
    .ownershipViolation, .qubitFaulty, .qubitMaintenance, .qubitRestored, .securityViolation]

def name : EventType → String
  | .tokenIssued => "token_issued"
  | .tokenAttenuated => "token_attenuated"
  | .tokenRevoked => "token_revoked"
  | .tokensCollected => "tokens_collected"
  | .capabilityGranted => "capability_granted"
  | .capabilityDenied => "capability_denied"
  | .qubitAllocated => "qubit_allocated"
  | .qubitDeallocated => "qubit_deallocated"
  | .qubitResetSkipped => "qubit_reset_skipped"
  | .allocationDenied => "allocation_denied"
  | .ownershipViolation => "ownership_violation"
  | .qubitFaulty => "qubit_faulty"
  | .qubitMaintenance => "qubit_maintenance"
  | .qubitRestored => "qubit_restored"
  | .securityViolation => "security_violation"

def ofName? (s : String) : Option EventType := all.find? fun e => e.name = s

/-- Whether the event records a refused or suspicious action. -/
def isSecurityRelevant : EventType → Bool
  | .capabilityDenied | .allocationDenied | .ownershipViolation | .qubitResetSkipped
  | .securityViolation => true
  | _ => false

theorem mem_all (e : EventType) : e ∈ all := by cases e <;> decide

theorem name_injective {a b : EventType} (h : a.name = b.name) : a = b := by
  revert h; cases a <;> cases b <;> decide

@[simp] theorem ofName?_name (e : EventType) : ofName? e.name = some e :=
  Association.find?_of_injective name_injective (mem_all e)

end EventType

end QubitWarden.Audit
