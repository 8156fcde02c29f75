import QubitWarden.Token.Basic

/-!
# Physical qubits

A qubit is free, allocated to a tenant, being reset before it can be used again, or out of service.
Each transition succeeds only from the right state.

* `QubitId.ascending`: the distinct identifiers of a list in ascending order.
* `Qubit.allocate`, `Qubit.beginReset`, `Qubit.release`, `Qubit.completeReset`, `Qubit.takeOffline`,
  `Qubit.restore`: the transitions.
-/

namespace QubitWarden

/-- The number of a physical qubit. -/
structure QubitId where
  index : Nat
  deriving DecidableEq, Repr

namespace QubitId

def toText (q : QubitId) : String := "q" ++ toString q.index

/-- The short texts joined by commas. -/
def joinText (ids : List QubitId) : String := ",".intercalate (ids.map toText)

/-- The listing of qubits in an error. -/
def listing (ids : List QubitId) : String :=
  "[" ++ ", ".intercalate (ids.map fun q => "QubitId(" ++ toString q.index ++ ")") ++ "]"

/-- The ascending list with one more identifier, unless it is there. -/
def insertAscending (q : QubitId) : List QubitId → List QubitId
  | [] => [q]
  | p :: rest =>
    if q.index < p.index then q :: p :: rest
    else if q = p then p :: rest
    else p :: insertAscending q rest

/-- The distinct identifiers in ascending order. -/
def ascending (ids : List QubitId) : List QubitId := ids.foldr insertAscending []

end QubitId

/-- The state of a qubit. -/
inductive QubitState where
  | free
  | allocated
  /-- Being purged after its release. -/
  | resetting
  | faulty
  | maintenance
  deriving DecidableEq, Repr

namespace QubitState

def all : List QubitState := [.free, .allocated, .resetting, .faulty, .maintenance]

def name : QubitState → String
  | .free => "free"
  | .allocated => "allocated"
  | .resetting => "resetting"
  | .faulty => "faulty"
  | .maintenance => "maintenance"

def ofName? (s : String) : Option QubitState := all.find? fun state => state.name = s

/-- Whether a qubit in this state is out of service until it is restored. -/
def isOffline : QubitState → Bool
  | .faulty | .maintenance => true
  | _ => false

end QubitState

/-! ## Errors -/

/-- What is wrong with a request. -/
inductive RequestFault where
  | zeroCount
  | nothingToDeallocate
  | quotaBelowHoldings (max allocated : Nat)
  | described (text : String)
  deriving DecidableEq

def RequestFault.message : RequestFault → String
  | .zeroCount => "qubit count must be positive"
  | .nothingToDeallocate => "no qubits to deallocate"
  | .quotaBelowHoldings max allocated =>
    "quota " ++ toString max ++ " is below the " ++ toString allocated ++
      " qubits already allocated"
  | .described text => text

/-- Why an operation on the pool is refused. -/
inductive AllocationError where
  | quotaExceeded (tenant : Tenant) (requested allocated max : Nat)
  | resourceExhausted (requested available : Nat)
  /-- The tenant does not own these; identifiers of no qubit are among them. -/
  | notOwned (tenant : Tenant) (qubits : List QubitId)
  | unknownQubit (qubit : QubitId)
  | invalidTransition (qubit : QubitId) (source target : QubitState)
  | invalidRequest (fault : RequestFault)
  deriving DecidableEq

namespace AllocationError

def message : AllocationError → String
  | .quotaExceeded tenant requested allocated max =>
    "tenant " ++ tenant ++ " quota exceeded: " ++ toString allocated ++ " + " ++
      toString requested ++ " > " ++ toString max
  | .resourceExhausted requested available =>
    "resource exhausted: requested " ++ toString requested ++ ", " ++ toString available ++ " free"
  | .notOwned tenant qubits =>
    "tenant " ++ tenant ++ " does not own qubits " ++ QubitId.listing qubits
  | .unknownQubit qubit => "unknown qubit " ++ qubit.toText
  | .invalidTransition qubit source target =>
    "qubit " ++ qubit.toText ++ " cannot go from " ++ source.name ++ " to " ++ target.name
  | .invalidRequest fault => "invalid request: " ++ fault.message

/-- The stable label of an error. -/
def kind : AllocationError → String
  | .quotaExceeded _ _ _ _ => "quota_exceeded"
  | .resourceExhausted _ _ => "resource_exhausted"
  | .notOwned _ _ => "ownership"
  | .unknownQubit _ => "unknown_qubit"
  | .invalidTransition _ _ _ => "invalid_transition"
  | .invalidRequest _ => "invalid_request"

/-- Errors of one kind, whatever they carry. -/
def SameKind (a b : AllocationError) : Prop := a.ctorIdx = b.ctorIdx

/-- The label of an error tells its kind. -/
theorem kind_eq_iff {a b : AllocationError} : a.kind = b.kind ↔ a.SameKind b := by
  cases a <;> cases b <;> simp [kind, SameKind, AllocationError.ctorIdx]

/-- Whether the error is audited like a denied capability. -/
def isSecurityRelevant : AllocationError → Bool
  | .notOwned _ _ => true
  | _ => false

/-- Whether the same request may succeed later. -/
def isRetryable : AllocationError → Bool
  | .resourceExhausted _ _ => true
  | _ => false

end AllocationError

/-! ## Qubits -/

/-- One qubit of the hardware. -/
structure Qubit where
  id : QubitId
  state : QubitState
  owner : Option Tenant
  allocatedAt : Option Timestamp
  deriving DecidableEq

namespace Qubit

def new (id : QubitId) : Qubit := ⟨id, .free, none, none⟩

/-- Whether the qubit is allocated to exactly this tenant. -/
def isOwnedBy (q : Qubit) (tenant : Tenant) : Bool := q.state = .allocated && q.owner = some tenant

/-- The qubit in a state without owner. -/
def clear (q : Qubit) (target : QubitState) : Qubit :=
  { q with state := target, owner := none, allocatedAt := none }

/-- The error of a transition that the state does not admit. -/
def refuse (q : Qubit) (target : QubitState) : AllocationError :=
  .invalidTransition q.id q.state target

/-- A free qubit becomes allocated. -/
def allocate (tenant : Tenant) (now : Timestamp) (q : Qubit) : Except AllocationError Qubit :=
  if q.state = .free then
    .ok { q with state := .allocated, owner := some tenant, allocatedAt := some now }
  else .error (q.refuse .allocated)

/-- An allocated qubit waits for its reset. -/
def beginReset (q : Qubit) : Except AllocationError Qubit :=
  if q.state = .allocated then .ok (q.clear .resetting) else .error (q.refuse .resetting)

/-- An allocated qubit becomes free without a reset. -/
def release (q : Qubit) : Except AllocationError Qubit :=
  if q.state = .allocated then .ok (q.clear .free) else .error (q.refuse .free)

/-- A qubit that was being reset becomes free. -/
def completeReset (q : Qubit) : Except AllocationError Qubit :=
  if q.state = .resetting then .ok { q with state := .free } else .error (q.refuse .free)

/-- A qubit leaves service; the result names the owner that loses it. -/
def takeOffline (target : QubitState) (q : Qubit) :
    Except AllocationError (Option Tenant × Qubit) :=
  if target.isOffline ∧ q.state ≠ target then .ok (q.owner, q.clear target)
  else .error (q.refuse target)

/-- A qubit out of service becomes free. -/
def restore (q : Qubit) : Except AllocationError Qubit :=
  if q.state.isOffline then .ok { q with state := .free } else .error (q.refuse .free)

end Qubit

end QubitWarden
