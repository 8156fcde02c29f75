import QubitWarden.Json.Lenient
import QubitWarden.Json.Writer
import QubitWarden.Qubit.Allocator

/-!
# Qubits as JSON

Qubits are numbers, their states are names, and an event is an object that says in `event` what
happened.

* `Qubit.toJson`: one qubit, and whether a given tenant owns it.
* `AllocationEvent.toJson`, `AllocationEvent.ofJson?`: events, written and read.
-/

namespace QubitWarden

namespace QubitId

/-- The number of a qubit. -/
def toJson (q : QubitId) : Json := .natural q.index

def listToJson (ids : List QubitId) : Json := .array (ids.map toJson)

def ofJson? : Json → Option QubitId
  | .natural n => some ⟨n⟩
  | _ => none

end QubitId

/-- A quota with what remains of it. -/
def Quota.toJson (q : Quota) : Json := .ofMembers [
  ("tenant_id", .text q.tenant),
  ("max_qubits", .natural q.maxQubits),
  ("allocated_qubits", .natural q.allocated),
  ("remaining", .natural q.remaining)]

def PoolStatistics.toJson (s : PoolStatistics) : Json := .ofMembers [
  ("total", .natural s.total),
  ("free", .natural s.free),
  ("allocated", .natural s.allocated),
  ("resetting", .natural s.resetting),
  ("faulty", .natural s.faulty),
  ("maintenance", .natural s.maintenance),
  ("tenants_with_allocations", .natural s.tenantsWithAllocations)]

/-- An action; a release says whether it asked for a reset. -/
def AllocationAction.toJson : AllocationAction → Json
  | .allocated => .text "allocated"
  | .deallocated reset => .ofMembers [("deallocated", .ofMembers [("reset", .bool reset)])]
  | .evicted => .text "evicted"

def AllocationRecord.toJson (r : AllocationRecord) : Json := .ofMembers [
  ("tenant_id", .text r.tenant),
  ("qubit_ids", QubitId.listToJson r.qubits),
  ("action", r.action.toJson),
  ("timestamp", .word64 r.timestamp)]

/-- A qubit; `tenant` is the one whose ownership is asked for. -/
def Qubit.toJson (tenant : Option Tenant) (q : Qubit) : Json := .ofMembers [
  ("qubit", .text q.id.toText),
  ("state", .text q.state.name),
  ("offline", .bool q.state.isOffline),
  ("owner", .ofText? q.owner),
  ("allocated_at", .ofOption Json.word64 q.allocatedAt),
  ("free", .bool (q.state = .free)),
  ("owned", .ofOption (fun t => .bool (q.isOwnedBy t)) tenant)]

def PoolConfig.toJson (c : PoolConfig) : Json := .ofMembers [
  ("pool_size", .word32 c.poolSize),
  ("default_max_qubits", .word32 c.defaultMaxQubits),
  ("max_history", .natural c.maxHistory)]

namespace AllocationEvent

/-- What an event says beside the tenant concerned. -/
def members : AllocationEvent → List (String × Json)
  | .allocated _ qubits => [("event", .text "Allocated"), ("qubits", QubitId.listToJson qubits)]
  | .deallocated _ qubits reset =>
    [("event", .text "Deallocated"), ("qubits", QubitId.listToJson qubits), ("reset", .bool reset)]
  | .denied _ requested kind =>
    [("event", .text "Denied"), ("requested", .natural requested), ("kind", .text kind)]
  | .ownershipViolation _ qubits action =>
    [("event", .text "OwnershipViolation"), ("qubits", QubitId.listToJson qubits),
      ("action", .text action)]
  | .takenOffline qubit state _ =>
    [("event", .text "TakenOffline"), ("qubit", qubit.toJson), ("state", .text state.name)]
  | .restored qubit => [("event", .text "Restored"), ("qubit", qubit.toJson)]

/-- An event with the tenant concerned. -/
def toJson (e : AllocationEvent) : Json := .ofMembers (("tenant", .ofText? e.tenant?) :: e.members)

open Json.Lenient in
/-- The event of an object. -/
def ofJson? (j : Json) : Option AllocationEvent := do
  let tenant := text j "tenant"
  let qubits := (list j "qubits").filterMap QubitId.ofJson?
  match text j "event" with
  | "Allocated" => some (.allocated tenant qubits)
  | "Deallocated" => some (.deallocated tenant qubits (flag j "reset"))
  | "Denied" => some (.denied tenant (natural j "requested") (text j "kind"))
  | "OwnershipViolation" => some (.ownershipViolation tenant qubits (text j "action"))
  | "TakenOffline" =>
    return .takenOffline (← QubitId.ofJson? (field j "qubit"))
      (← QubitState.ofName? (text j "state")) (text? j "tenant")
  | "Restored" => return .restored (← QubitId.ofJson? (field j "qubit"))
  | _ => none

end AllocationEvent

end QubitWarden
