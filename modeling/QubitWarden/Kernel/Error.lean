import QubitWarden.Audit.Error
import QubitWarden.Config.Environment
import QubitWarden.Mediation.Decision
import QubitWarden.Qubit.Basic

/-!
# Kernel errors

The errors of all parts under one type. Broken invariants and foreign qubits are relevant to
security.
-/

namespace QubitWarden

/-- An error of some part of the kernel. -/
inductive KernelError where
  | token (error : TokenError)
  | audit (error : Audit.AuditError)
  | mediation (error : MediationError)
  | allocation (error : AllocationError)
  | config (error : ConfigError)
  | telemetry (error : TelemetryError)
  deriving DecidableEq

namespace KernelError

/-- The wording of an error within its part. -/
def cause : KernelError → String
  | .token e => e.message
  | .audit e => e.message
  | .mediation e => e.message
  | .allocation e => e.message
  | .config e => e.message
  | .telemetry e => e.message

/-- The part that an error comes from. -/
def part : KernelError → String
  | .token _ => "token"
  | .audit _ => "audit"
  | .mediation _ => "mediation"
  | .allocation _ => "allocation"
  | .config _ => "configuration"
  | .telemetry _ => "telemetry"

/-- The wording of an error: the part that it comes from, and the wording there. -/
def message (e : KernelError) : String := e.part ++ " error: " ++ e.cause

/-- Whether the error has to be followed up. -/
def isSecurityRelevant : KernelError → Bool
  | .token e => e.isViolation
  | .mediation (.invariantViolated _ _) => true
  | .allocation e => e.isSecurityRelevant
  | _ => false

end KernelError

end QubitWarden
