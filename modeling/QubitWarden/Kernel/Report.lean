import QubitWarden.Kernel.Error

/-!
# Reports of errors

A report names an error by its title; a report of the kernel also says from which part the error
comes.

* `TokenError.title` and the others: the title of an error within its part.
* `KernelError.title`: the part and the title.
-/

namespace QubitWarden

def TokenError.title : TokenError → String
  | .emptyCapabilitySet => "EmptyCapabilitySet"
  | .notASubset _ => "NotASubset"
  | .delegationTooDeep _ _ => "DelegationTooDeep"
  | .revoked => "Revoked"
  | .expired _ => "Expired"
  | .useLimitExceeded _ => "UseLimitExceeded"
  | .invalidSignature => "InvalidSignature"
  | .unknownToken => "UnknownToken"
  | .lineageViolation => "LineageViolation"
  | .malformed _ => "Malformed"
  | .key _ => "Key"

def Audit.AuditError.title : Audit.AuditError → String
  | .indexOutOfRange _ _ => "IndexOutOfRange"
  | .emptyLog => "EmptyLog"
  | .invalidRange _ _ _ => "InvalidRange"
  | .serialization _ => "Serialization"

def MediationError.title : MediationError → String
  | .denied _ _ _ => "SecurityError"
  | .invariantViolated _ _ => "InvariantViolation"

def AllocationError.title : AllocationError → String
  | .quotaExceeded _ _ _ _ => "QuotaExceeded"
  | .resourceExhausted _ _ => "ResourceExhausted"
  | .notOwned _ _ => "OwnershipError"
  | .unknownQubit _ => "UnknownQubit"
  | .invalidTransition _ _ _ => "InvalidTransition"
  | .invalidRequest _ => "InvalidRequest"

/-- The title of a configuration error; whatever cannot be read has one title. -/
def ConfigError.title : ConfigError → String
  | .insecureSigningKey => "InsecureSigningKey"
  | .invalidKey _ => "InvalidKey"
  | .unreadableSetting _ | .unreadableDocument => "Parse"
  | .unreadableFile _ => "Io"
  | .invalid _ => "Invalid"

def TelemetryError.title : TelemetryError → String
  | .alreadyInitialized => "AlreadyInitialized"
  | .invalidFilter _ => "InvalidFilter"
  | .metricsInit _ => "MetricsInit"

namespace KernelError

/-- The part that an error comes from, and its title there. -/
def title : KernelError → String
  | .token e => "Token:" ++ e.title
  | .audit e => "Audit:" ++ e.title
  | .mediation e => "Mediation:" ++ e.title
  | .allocation e => "Allocation:" ++ e.title
  | .config e => "Config:" ++ e.title
  | .telemetry e => "Telemetry:" ++ e.title

end KernelError

end QubitWarden
