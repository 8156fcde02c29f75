/-!
# Audit errors

Why a question to the log has no answer.
-/

namespace QubitWarden.Audit

/-- Why a question to the log has no answer. -/
inductive AuditError where
  | indexOutOfRange (index size : Nat)
  | emptyLog
  | invalidRange (start stop size : Nat)
  | serialization (text : String)
  deriving DecidableEq

def AuditError.message : AuditError → String
  | .indexOutOfRange index size =>
    "entry " ++ toString index ++ " out of range (log has " ++ toString size ++ " entries)"
  | .emptyLog => "audit log is empty"
  | .invalidRange start stop size =>
    "invalid range " ++ toString start ++ ".." ++ toString stop ++ " (log has " ++ toString size ++
      " entries)"
  | .serialization text => "serialization error: " ++ text

end QubitWarden.Audit
