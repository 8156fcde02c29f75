import QubitWarden.Audit.Log
import QubitWarden.Qubit.Pool

/-!
# The allocator

The operations of the pool together with the events that they give rise to: what changed the owner
of a qubit, and what was refused for a reason that matters to the audit.

* `AllocationEvent`: the facts that are reported.
* `Allocator.allocate` and the others: result, pool and events.
* `AllocationEvent.toEvent`: how an event is recorded in the audit log.
-/

namespace QubitWarden

/-- A reported fact. -/
inductive AllocationEvent where
  | allocated (tenant : Tenant) (qubits : List QubitId)
  | deallocated (tenant : Tenant) (qubits : List QubitId) (reset : Bool)
  | denied (tenant : Tenant) (requested : Nat) (kind : String)
  | ownershipViolation (tenant : Tenant) (qubits : List QubitId) (action : String)
  | takenOffline (qubit : QubitId) (state : QubitState) (evicted : Option Tenant)
  | restored (qubit : QubitId)
  deriving DecidableEq

namespace AllocationEvent

def tenant? : AllocationEvent → Option Tenant
  | .allocated tenant _ | .deallocated tenant _ _ | .denied tenant _ _
  | .ownershipViolation tenant _ _ => some tenant
  | .takenOffline _ _ evicted => evicted
  | .restored _ => none

def eventType : AllocationEvent → Audit.EventType
  | .allocated _ _ => .qubitAllocated
  | .deallocated _ _ reset => if reset then .qubitDeallocated else .qubitResetSkipped
  | .denied _ _ _ => .allocationDenied
  | .ownershipViolation _ _ _ => .ownershipViolation
  | .takenOffline _ state _ => if state = .faulty then .qubitFaulty else .qubitMaintenance
  | .restored _ => .qubitRestored

/-- What is recorded about the event. -/
def details : AllocationEvent → List (String × String)
  | .allocated _ qubits =>
    [("qubits", QubitId.joinText qubits), ("count", toString qubits.length)]
  | .deallocated _ qubits reset =>
    [("qubits", QubitId.joinText qubits), ("reset", if reset then "true" else "false")]
  | .denied _ requested kind => [("requested", toString requested), ("reason", kind)]
  | .ownershipViolation _ qubits action =>
    [("qubits", QubitId.joinText qubits), ("action", action)]
  | .takenOffline qubit _ none => [("qubit_id", qubit.toText)]
  | .takenOffline qubit _ (some owner) => [("qubit_id", qubit.toText), ("evicted", owner)]
  | .restored qubit => [("qubit_id", qubit.toText)]

def toEvent (e : AllocationEvent) : Audit.Event where
  eventType := e.eventType
  tenant := e.tenant?
  details := .ofList e.details

end AllocationEvent

namespace Allocator

/-- Allocates qubits; a refusal is reported as well. -/
def allocate (p : Pool) (now : Timestamp) (tenant : Tenant) (count : Nat)
    (preferred : List QubitId) :
    Except AllocationError (List QubitId) × Pool × List AllocationEvent :=
  match p.allocate now tenant count preferred with
  | (.ok qubits, p) => (.ok qubits, p, [.allocated tenant qubits])
  | (.error e, p) => (.error e, p, [.denied tenant count e.kind])

/-- Deallocates qubits; of the refusals, only one for foreign qubits is reported. -/
def deallocate (p : Pool) (now : Timestamp) (tenant : Tenant) (qubits : List QubitId)
    (reset : Bool) : Except AllocationError (List QubitId) × Pool × List AllocationEvent :=
  match p.deallocate now tenant qubits reset with
  | (.ok released, p) => (.ok released, p, [.deallocated tenant released reset])
  | (.error (.notOwned owner foreign), p) =>
    (.error (.notOwned owner foreign), p, [.ownershipViolation tenant foreign "deallocate"])
  | (.error e, p) => (.error e, p, [])

/-- Whether the qubit is allocated to the tenant; a refusal is reported. -/
def verifyAccess (p : Pool) (tenant : Tenant) (qubit : QubitId) : Bool × List AllocationEvent :=
  if p.verifyAccess tenant qubit then (true, [])
  else (false, [.ownershipViolation tenant [qubit] "access"])

/-- Insists that the qubit is allocated to the tenant; a refusal is reported. -/
def requireAccess (p : Pool) (tenant : Tenant) (qubit : QubitId) :
    Except AllocationError Unit × List AllocationEvent :=
  match verifyAccess p tenant qubit with
  | (true, events) => (.ok (), events)
  | (false, events) => (.error (.notOwned tenant [qubit]), events)

def takeOffline (p : Pool) (now : Timestamp) (qubit : QubitId) (target : QubitState) :
    Except AllocationError (Option Tenant) × Pool × List AllocationEvent :=
  match p.takeOffline now qubit target with
  | (.ok evicted, p) => (.ok evicted, p, [.takenOffline qubit target evicted])
  | (.error e, p) => (.error e, p, [])

def restore (p : Pool) (qubit : QubitId) :
    Except AllocationError Unit × Pool × List AllocationEvent :=
  match p.restore qubit with
  | (.ok (), p) => (.ok (), p, [.restored qubit])
  | (.error e, p) => (.error e, p, [])

/-- Takes everything from a tenant; nothing is reported when it holds nothing. -/
def releaseTenant (p : Pool) (now : Timestamp) (tenant : Tenant) :
    Except AllocationError (List QubitId) × Pool × List AllocationEvent :=
  match p.releaseTenant now tenant with
  | (.ok [], p) => (.ok [], p, [])
  | (.ok released, p) => (.ok released, p, [.deallocated tenant released true])
  | (.error e, p) => (.error e, p, [])

end Allocator

end QubitWarden
