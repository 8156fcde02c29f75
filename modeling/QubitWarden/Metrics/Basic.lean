import QubitWarden.Tally

/-!
# Metrics

Counters and gauges of the kernel. Counters only grow; gauges are set from the state of the parts.

* `Metrics.recordCheck`, `Metrics.recordFailure`: one more check or refused allocation, by label.
* `Metrics.setPool`, `Metrics.setAuditEntries`: the gauges; the latter stops at the largest signed
  word.
-/

namespace QubitWarden

/-- The values of all metrics. -/
structure Metrics where
  /-- Checks by outcome. -/
  checks : Tally String
  /-- Denied checks by reason. -/
  denials : Tally String
  /-- Refused allocations by kind. -/
  failures : Tally String
  tokensIssued : Nat
  tokensRevoked : Nat
  auditEntries : Nat
  qubitsAllocated : Nat
  qubitsFree : Nat
  deriving DecidableEq

namespace Metrics

/-- Before anything has happened. -/
def initial : Metrics := ⟨.empty, .empty, .empty, 0, 0, 0, 0, 0⟩

instance : Inhabited Metrics := ⟨initial⟩

/-- One more check; the reason counts only for a denial. -/
def recordCheck (m : Metrics) (allowed : Bool) (reason : String) : Metrics :=
  if allowed then { m with checks := m.checks.bump "allowed" }
  else { m with checks := m.checks.bump "denied", denials := m.denials.bump reason }

def recordFailure (m : Metrics) (kind : String) : Metrics :=
  { m with failures := m.failures.bump kind }

def recordIssued (m : Metrics) : Metrics := { m with tokensIssued := m.tokensIssued + 1 }

def recordRevoked (m : Metrics) : Metrics := { m with tokensRevoked := m.tokensRevoked + 1 }

def setAuditEntries (m : Metrics) (entries : Nat) : Metrics :=
  { m with auditEntries := min entries (UInt64.size / 2 - 1) }

def setPool (m : Metrics) (allocated free : Nat) : Metrics :=
  { m with qubitsAllocated := allocated, qubitsFree := free }

end Metrics

end QubitWarden
