import QubitWarden.Audit.Query
import QubitWarden.Kernel.Error
import QubitWarden.Metrics.Basic
import QubitWarden.Qubit.Allocator
import QubitWarden.Registry.Lineage

/-!
# The security kernel

The registry, the audit log, the mediator and the pool as one state, with the metrics that follow
them. Every operation that changes something or is refused leaves its trace in the log.

* `Kernel.new`: the kernel of a configuration that passes its checks.
* `Kernel.issue`, `Kernel.attenuate`, `Kernel.revoke`, `Kernel.collectExpired`: tokens.
* `Kernel.check`, `Kernel.require`: mediation.
* `Kernel.allocate` and the others: qubits.
-/

namespace QubitWarden

/-- All parts of the kernel. -/
structure Kernel where
  config : Config
  /-- The key that tokens are signed with. -/
  key : Key
  registry : Registry
  log : Audit.Log
  mediator : Mediator
  pool : Pool
  metrics : Metrics

namespace Kernel

/-- The parts of a configuration before anything has happened; without a configured key the
ephemeral one is used. -/
def assemble (config : Config) (table : Requirements) (ephemeral : Key) : Kernel where
  config := config
  key := config.key.getD ephemeral
  registry := .empty
  log := .empty config.padding
  mediator := .new config.mediator table
  pool := .new config.allocator
  metrics := .initial

/-- Who signs tokens, and under which limits. -/
def issuer (k : Kernel) : Issuer := ⟨k.key.sign, k.config.tokens⟩

/-- The kernel with its gauges set from the pool and the log. -/
def refreshGauges (k : Kernel) : Kernel :=
  { k with
    metrics := (k.metrics.setAuditEntries k.log.size).setPool (k.pool.countIn .allocated)
      (k.pool.countIn .free) }

def new (config : Config) (ephemeral : Key) : Except KernelError Kernel :=
  match config.validate with
  | .error e => .error (.config e)
  | .ok () => .ok (assemble config .standard ephemeral).refreshGauges

def recordAll (log : Audit.Log) (now : Timestamp) (events : List Audit.Event) : Audit.Log :=
  events.foldl (fun log e => log.append sha256 now e) log

def append (k : Kernel) (now : Timestamp) (event : Audit.Event) : Kernel :=
  let log := k.log.append sha256 now event
  { k with log, metrics := k.metrics.setAuditEntries log.size }

/-! ## Tokens -/

/-- An entry of the details that is there only for some value. -/
def optionalEntry (key : String) : Option String → List (String × String)
  | some text => [(key, text)]
  | none => []

/-- What is recorded about a new token. -/
def tokenEvent (eventType : Audit.EventType) (t : Token) (parent : Option TokenId) :
    Audit.Event where
  eventType := eventType
  tenant := some t.tenant
  details := .ofList (
    [("token_id", t.id.toText),
      ("capabilities", t.capabilities.display),
      ("expires_at", toString t.expiresAt.toNat),
      ("delegation_depth", toString t.depth.toNat)] ++
    optionalEntry "max_uses" (t.maxUses.map fun n => toString n.toNat) ++
    optionalEntry "parent_token_id" (parent.map TokenId.toText))

/-- What is recorded about a refused token. -/
def refusalEvent (action : String) (tenant : Tenant) (requested : CapabilitySet)
    (parent : Option TokenId) (e : TokenError) : Audit.Event where
  eventType := if e.isViolation then .securityViolation else .capabilityDenied
  tenant := some tenant
  details := .ofList (
    [("action", action), ("reason", e.reasonCode), ("requested", requested.display)] ++
    optionalEntry "parent_token_id" (parent.map TokenId.toText))

/-- Issues a token with the identifier `id`. -/
def issue (k : Kernel) (now : Timestamp) (id : TokenId) (request : TokenRequest)
    (parent : Option Token) : Except KernelError Token × Kernel :=
  match k.registry.create k.issuer now id request parent with
  | (.error e, registry) =>
    let event := refusalEvent "issue" request.tenant request.capabilities
      (parent.map fun t => t.id) e
    (.error (.token e), { k with registry }.append now event)
  | (.ok token, registry) =>
    let k := { k with registry }.append now (tokenEvent .tokenIssued token token.parent)
    (.ok token, { k with metrics := k.metrics.recordIssued })

/-- Issues a token with the identifier `id` that narrows a presented one. -/
def attenuate (k : Kernel) (now : Timestamp) (id : TokenId) (source : Token)
    (capabilities : CapabilitySet) : Except KernelError Token × Kernel :=
  match k.registry.attenuate k.issuer now id source capabilities with
  | (.error e, registry) =>
    let event := refusalEvent "attenuate" source.tenant capabilities (some source.id) e
    (.error (.token e), { k with registry }.append now event)
  | (.ok token, registry) =>
    let k := { k with registry }.append now (tokenEvent .tokenAttenuated token (some source.id))
    (.ok token, { k with metrics := k.metrics.recordIssued })

/-- Revokes an identifier; the result says whether it was not revoked before. -/
def revoke (k : Kernel) (now : Timestamp) (id : TokenId) : Bool × Kernel :=
  let tenant := (k.registry.find? id).map fun t => t.tenant
  match k.registry.revoke id with
  | (false, registry) => (false, { k with registry })
  | (true, registry) =>
    let event : Audit.Event :=
      { eventType := .tokenRevoked, tenant, details := .ofList [("token_id", id.toText)] }
    let k := { k with registry }.append now event
    (true, { k with metrics := k.metrics.recordRevoked })

/-- Drops the records of expired tokens and gives their number. -/
def collectExpired (k : Kernel) (now : Timestamp) : Nat × Kernel :=
  match k.registry.collectExpired now with
  | (0, registry) => (0, { k with registry })
  | (n + 1, registry) =>
    let event : Audit.Event :=
      { eventType := .tokensCollected, tenant := none
        details := .ofList [("count", toString (n + 1))] }
    (n + 1, { k with registry }.append now event)

/-! ## Mediation -/

/-- Decides whether a token may perform an operation. The token is evaluated now; what follows is at
the time that the clock shows then. -/
def check (k : Kernel) (now : Timestamp) (t : Token) (operation : Operation)
    (later : Timestamp := now) : Decision × Kernel :=
  let (d, mediator, registry) :=
    k.mediator.check (Registry.authority k.key.sign now later) k.registry later t operation
  let log := k.log.append sha256 later d.toEvent
  let metrics := k.metrics.recordCheck d.allowed d.reason.name
  (d, { k with mediator, registry, log, metrics }.refreshGauges)

def require (k : Kernel) (now : Timestamp) (t : Token) (operation : Operation)
    (later : Timestamp := now) : Except KernelError Decision × Kernel :=
  let (d, k) := k.check now t operation later
  ((Mediator.insist d).mapError .mediation, k)

/-! ## Qubits -/

/-- The kernel after an operation of the allocator and its events. -/
def poolChanged (k : Kernel) (now : Timestamp) (pool : Pool) (events : List AllocationEvent) :
    Kernel :=
  { k with pool, log := recordAll k.log now (events.map AllocationEvent.toEvent) }.refreshGauges

def allocate (k : Kernel) (now : Timestamp) (tenant : Tenant) (count : Nat)
    (preferred : List QubitId) : Except KernelError (List QubitId) × Kernel :=
  match Allocator.allocate k.pool now tenant count preferred with
  | (.ok qubits, pool, events) => (.ok qubits, k.poolChanged now pool events)
  | (.error e, pool, events) =>
    let k := { k with metrics := k.metrics.recordFailure e.kind }
    (.error (.allocation e), k.poolChanged now pool events)

def deallocate (k : Kernel) (now : Timestamp) (tenant : Tenant) (qubits : List QubitId)
    (reset : Bool) : Except KernelError (List QubitId) × Kernel :=
  let (result, pool, events) := Allocator.deallocate k.pool now tenant qubits reset
  (result.mapError .allocation, k.poolChanged now pool events)

/-- Whether a qubit is allocated to a tenant. -/
def verifyAccess (k : Kernel) (now : Timestamp) (tenant : Tenant) (qubit : QubitId) :
    Bool × Kernel :=
  let (granted, events) := Allocator.verifyAccess k.pool tenant qubit
  (granted, k.poolChanged now k.pool events)

/-- Insists that a qubit is allocated to a tenant. -/
def requireAccess (k : Kernel) (now : Timestamp) (tenant : Tenant) (qubit : QubitId) :
    Except KernelError Unit × Kernel :=
  let (result, events) := Allocator.requireAccess k.pool tenant qubit
  (result.mapError .allocation, k.poolChanged now k.pool events)

def completeReset (k : Kernel) (now : Timestamp) (qubit : QubitId) :
    Except KernelError Unit × Kernel :=
  let (result, pool) := k.pool.completeReset qubit
  (result.mapError .allocation, k.poolChanged now pool [])

def completeAllResets (k : Kernel) (now : Timestamp) : List QubitId × Kernel :=
  let (freed, pool) := k.pool.completeAllResets
  (freed, k.poolChanged now pool [])

/-- Takes a qubit out of service and gives the tenant that loses it. -/
def takeOffline (k : Kernel) (now : Timestamp) (qubit : QubitId) (target : QubitState) :
    Except KernelError (Option Tenant) × Kernel :=
  let (result, pool, events) := Allocator.takeOffline k.pool now qubit target
  (result.mapError .allocation, k.poolChanged now pool events)

def markFaulty (k : Kernel) (now : Timestamp) (qubit : QubitId) :
    Except KernelError (Option Tenant) × Kernel :=
  k.takeOffline now qubit .faulty

def markMaintenance (k : Kernel) (now : Timestamp) (qubit : QubitId) :
    Except KernelError (Option Tenant) × Kernel :=
  k.takeOffline now qubit .maintenance

def restore (k : Kernel) (now : Timestamp) (qubit : QubitId) : Except KernelError Unit × Kernel :=
  let (result, pool, events) := Allocator.restore k.pool qubit
  (result.mapError .allocation, k.poolChanged now pool events)

def setQuota (k : Kernel) (tenant : Tenant) (maxQubits : Nat) :
    Except KernelError Quota × Kernel :=
  let (result, pool) := k.pool.setQuota tenant maxQubits
  (result.mapError .allocation, { k with pool })

/-- Takes everything from a tenant. -/
def releaseTenant (k : Kernel) (now : Timestamp) (tenant : Tenant) :
    Except KernelError (List QubitId) × Kernel :=
  let (result, pool, events) := Allocator.releaseTenant k.pool now tenant
  (result.mapError .allocation, k.poolChanged now pool events)

/-! ## The log -/

def auditProof (k : Kernel) (index : Nat) : Except KernelError Merkle.InclusionProof :=
  (k.log.proof index).mapError .audit

/-- Whether the stored bytes of an entry are the ones in the tree. -/
def verifyAuditEntry (k : Kernel) (index : Nat) : Except KernelError Bool :=
  (k.log.verifyEntry sha256 index).mapError .audit

/-- The first entry whose stored bytes are not the ones in the tree. -/
def detectTampering (k : Kernel) : Option Nat := k.log.detectTampering sha256

end Kernel

end QubitWarden
