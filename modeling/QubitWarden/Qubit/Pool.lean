import QubitWarden.History
import QubitWarden.Qubit.Basic

/-!
# The qubit pool

All qubits, the quota of each tenant, and a bounded history. Qubits and quotas are changed apart
from each other, one qubit at a time; every operation gives its result together with the pool
afterwards, whether it succeeds or not.

* `Pool.allocate`: preferred free qubits first, then the lowest free ones.
* `Pool.deallocate`: all listed qubits or none; with a reset they are not free until it is complete.
* `Pool.takeOffline`, `Pool.restore`: a qubit out of service, which evicts its owner, and back.
* `Pool.setQuota`, `Pool.releaseTenant`, `Pool.completeAllResets`: whole tenants and the whole pool.
-/

namespace QubitWarden

/-- How a pool is set up. -/
structure PoolConfig where
  poolSize : UInt32 := 64
  /-- The quota of a tenant for which none was set. -/
  defaultMaxQubits : UInt32 := 8
  maxHistory : Nat := 10000
  deriving DecidableEq

/-- How many qubits a tenant may hold, and how many it holds. -/
structure Quota where
  tenant : Tenant
  maxQubits : Nat
  allocated : Nat
  deriving DecidableEq

namespace Quota

/-- The qubits that the tenant may still get. -/
def remaining (q : Quota) : Nat := q.maxQubits - q.allocated

/-- Whether the tenant may get `count` more qubits. -/
def canAllocate (q : Quota) (count : Nat) : Bool := q.allocated + count ≤ q.maxQubits

end Quota

/-- What happened to qubits of a tenant. -/
inductive AllocationAction where
  | allocated
  | deallocated (reset : Bool)
  /-- The qubit went out of service. -/
  | evicted
  deriving DecidableEq

/-- An entry of the history. -/
structure AllocationRecord where
  tenant : Tenant
  qubits : List QubitId
  action : AllocationAction
  timestamp : Timestamp
  deriving DecidableEq

/-- How many qubits are in which state. -/
structure PoolStatistics where
  total : Nat
  free : Nat
  allocated : Nat
  resetting : Nat
  faulty : Nat
  maintenance : Nat
  tenantsWithAllocations : Nat
  deriving DecidableEq

/-- The qubits in ascending order, the quotas that were used so far, and the history. -/
structure Pool where
  config : PoolConfig
  qubits : List Qubit
  quotas : List Quota
  history : List AllocationRecord
  deriving DecidableEq

namespace Pool

/-- The pool with all qubits free. -/
def new (config : PoolConfig) : Pool where
  config := config
  qubits := (List.range config.poolSize.toNat).map fun i => .new ⟨i⟩
  quotas := []
  history := []

/-! ## Views -/

def find? (p : Pool) (id : QubitId) : Option Qubit := p.qubits.find? fun q => q.id = id

/-- Whether there is such a qubit and it is free. -/
def isFree (p : Pool) (id : QubitId) : Bool := (p.find? id).any fun q => q.state = .free

def countIn (p : Pool) (state : QubitState) : Nat := p.qubits.countP fun q => q.state = state

/-- Whether the qubit is allocated to the tenant. -/
def verifyAccess (p : Pool) (tenant : Tenant) (id : QubitId) : Bool :=
  (p.find? id).any fun q => q.isOwnedBy tenant

/-- The qubits that a tenant holds, in ascending order. -/
def tenantQubits (p : Pool) (tenant : Tenant) : List QubitId :=
  (p.qubits.filter fun q => q.isOwnedBy tenant).map Qubit.id

/-- The quota of a tenant for which none was set. -/
def defaultQuota (p : Pool) (tenant : Tenant) : Quota :=
  ⟨tenant, p.config.defaultMaxQubits.toNat, 0⟩

def quota (p : Pool) (tenant : Tenant) : Quota :=
  (p.quotas.find? fun q => q.tenant = tenant).getD (p.defaultQuota tenant)

def statistics (p : Pool) : PoolStatistics where
  total := p.qubits.length
  free := p.countIn .free
  allocated := p.countIn .allocated
  resetting := p.countIn .resetting
  faulty := p.countIn .faulty
  maintenance := p.countIn .maintenance
  tenantsWithAllocations := p.quotas.countP fun q => 0 < q.allocated

/-- The last `limit` entries of the history, of one tenant or of all, oldest first. -/
def recent (p : Pool) (tenant : Option Tenant) (limit : Nat) : List AllocationRecord :=
  lastOf limit (p.history.filter fun r => tenant.all fun t => r.tenant = t)

/-! ## Changing one part -/

/-- The pool with the qubit of the same identifier replaced. -/
def replace (p : Pool) (q : Qubit) : Pool :=
  { p with qubits := p.qubits.map fun old => if old.id = q.id then q else old }

/-- The quotas with the one of `q.tenant` replaced, or added. -/
def putQuota (q : Quota) : List Quota → List Quota
  | [] => [q]
  | old :: rest => if old.tenant = q.tenant then q :: rest else old :: putQuota q rest

/-- The pool with the quota of a tenant changed, from the default one if it had none. -/
def modifyQuota (p : Pool) (tenant : Tenant) (change : Quota → Quota) : Pool :=
  { p with quotas := putQuota (change (p.quota tenant)) p.quotas }

/-- The pool with one more entry in its history. -/
def log (p : Pool) (tenant : Tenant) (qubits : List QubitId) (action : AllocationAction)
    (now : Timestamp) : Pool :=
  { p with history := pushBounded p.config.maxHistory p.history ⟨tenant, qubits, action, now⟩ }

/-- Takes one qubit through a transition. -/
def transition (p : Pool) (id : QubitId) (step : Qubit → Except AllocationError Qubit) :
    Except AllocationError Unit × Pool :=
  match p.find? id with
  | none => (.error (.unknownQubit id), p)
  | some q =>
    match step q with
    | .error e => (.error e, p)
    | .ok q => (.ok (), p.replace q)

/-- Takes listed qubits through a transition one after the other; stops at the first that refuses,
with those before it changed. Identifiers of no qubit are passed over. -/
def transitionEach (step : Qubit → Except AllocationError Qubit) :
    List QubitId → Pool → Except AllocationError Unit × Pool
  | [], p => (.ok (), p)
  | id :: rest, p =>
    match p.find? id with
    | none => transitionEach step rest p
    | some q =>
      match step q with
      | .error e => (.error e, p)
      | .ok q => transitionEach step rest (p.replace q)

/-! ## Operations -/

/-- The ascending selection with the free qubits of a list added in its order, until there are
`wanted`. -/
def select (p : Pool) (wanted : Nat) : (selected candidates : List QubitId) → List QubitId
  | selected, [] => selected
  | selected, id :: rest =>
    if selected.length = wanted then selected
    else if p.isFree id then select p wanted (QubitId.insertAscending id selected) rest
    else select p wanted selected rest

/-- The qubits that an allocation takes: preferred free ones, then the lowest free ones. -/
def selection (p : Pool) (count : Nat) (preferred : List QubitId) : List QubitId :=
  p.select count (p.select count [] preferred) (p.qubits.map Qubit.id)

/-- Allocates `count` free qubits to a tenant and gives them in ascending order. -/
def allocate (p : Pool) (now : Timestamp) (tenant : Tenant) (count : Nat)
    (preferred : List QubitId) : Except AllocationError (List QubitId) × Pool :=
  if count = 0 then (.error (.invalidRequest .zeroCount), p)
  else
    let quota := p.quota tenant
    if !quota.canAllocate count then
      (.error (.quotaExceeded tenant count quota.allocated quota.maxQubits), p)
    else
      let available := p.countIn .free
      if available < count then (.error (.resourceExhausted count available), p)
      else
        let selected := p.selection count preferred
        match transitionEach (Qubit.allocate tenant now) selected p with
        | (.error e, p) => (.error e, p)
        | (.ok (), p) =>
          let p := p.modifyQuota tenant fun q => { q with allocated := q.allocated + count }
          (.ok selected, p.log tenant selected .allocated now)

/-- Takes listed qubits from a tenant that owns all of them, and gives them in ascending order. -/
def deallocate (p : Pool) (now : Timestamp) (tenant : Tenant) (qubits : List QubitId)
    (reset : Bool) : Except AllocationError (List QubitId) × Pool :=
  let requested := QubitId.ascending qubits
  if requested.isEmpty then (.error (.invalidRequest .nothingToDeallocate), p)
  else
    let foreign := requested.filter fun id => !p.verifyAccess tenant id
    if !foreign.isEmpty then (.error (.notOwned tenant foreign), p)
    else
      match transitionEach (if reset then Qubit.beginReset else Qubit.release) requested p with
      | (.error e, p) => (.error e, p)
      | (.ok (), p) =>
        let taken := requested.length
        let p := p.modifyQuota tenant fun q => { q with allocated := q.allocated - taken }
        (.ok requested, p.log tenant requested (.deallocated reset) now)

def completeReset (p : Pool) (id : QubitId) : Except AllocationError Unit × Pool :=
  p.transition id Qubit.completeReset

/-- Completes every reset and gives the qubits that became free. -/
def completeAllResets (p : Pool) : List QubitId × Pool :=
  let pending := (p.qubits.filter fun q => q.state = .resetting).map Qubit.id
  (pending, (transitionEach Qubit.completeReset pending p).2)

/-- Takes a qubit out of service and gives the owner that loses it. -/
def takeOffline (p : Pool) (now : Timestamp) (id : QubitId) (target : QubitState) :
    Except AllocationError (Option Tenant) × Pool :=
  match p.find? id with
  | none => (.error (.unknownQubit id), p)
  | some q =>
    match q.takeOffline target with
    | .error e => (.error e, p)
    | .ok (none, q) => (.ok none, p.replace q)
    | .ok (some owner, q) =>
      let p := (p.replace q).modifyQuota owner fun q => { q with allocated := q.allocated - 1 }
      (.ok (some owner), p.log owner [id] .evicted now)

def restore (p : Pool) (id : QubitId) : Except AllocationError Unit × Pool :=
  p.transition id Qubit.restore

/-- Sets the quota of a tenant, which may not go below what it holds. -/
def setQuota (p : Pool) (tenant : Tenant) (maxQubits : Nat) : Except AllocationError Quota × Pool :=
  let p := p.modifyQuota tenant id
  let quota := p.quota tenant
  if maxQubits < quota.allocated then
    (.error (.invalidRequest (.quotaBelowHoldings maxQubits quota.allocated)), p)
  else
    let quota := { quota with maxQubits }
    (.ok quota, p.modifyQuota tenant fun _ => quota)

/-- Takes everything from a tenant, with a reset. -/
def releaseTenant (p : Pool) (now : Timestamp) (tenant : Tenant) :
    Except AllocationError (List QubitId) × Pool :=
  let held := p.tenantQubits tenant
  if held.isEmpty then (.ok [], p) else p.deallocate now tenant held true

end Pool

end QubitWarden
