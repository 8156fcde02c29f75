import QubitWarden.Audit.Log
import QubitWarden.History
import QubitWarden.Mediation.Decision
import QubitWarden.Registry.Issue
import QubitWarden.Tally

/-!
# The mediator

Every protected operation is checked against the table of requirements and a token authority, and
every decision is counted and kept in a bounded history.

* `Authority`: whoever answers for tokens, with a state of its own; its answers may be anything.
* `Mediator.judge`: the reason of a decision, asking the authority at most one check and, last of
  all, one consumption.
* `Mediator.check`, `Mediator.require`: the decision, recorded.
* `Registry.authority`: the registry as an authority.
-/

namespace QubitWarden

/-- Whoever answers whether a token is accepted, and counts its uses. -/
structure Authority (σ : Type) where
  check : σ → Token → Except TokenError Unit × σ
  consume : σ → Token → Except TokenError Unit × σ

/-- The registry as an authority. The clock is read for each answer, so it may have moved when a use
is counted. -/
def Registry.authority (sign : Signer) (now : Timestamp) (later : Timestamp := now) :
    Authority Registry where
  check reg t := (reg.evaluate sign now t, reg)
  consume reg t :=
    let (result, reg) := reg.use sign later t
    (result.map fun _ => (), reg)

/-- How the mediator works. -/
structure MediatorConfig where
  /-- Whether operations outside the table are denied. -/
  strict : Bool := true
  maxHistory : Nat := 10000
  deriving DecidableEq

/-- The counters and the history of a mediator over a fixed table. -/
structure Mediator where
  config : MediatorConfig
  table : Requirements
  checks : Nat
  allowed : Nat
  denied : Nat
  denials : Tally Reason
  history : List Decision
  deriving DecidableEq

namespace Mediator

def new (config : MediatorConfig) (table : Requirements) : Mediator :=
  { config, table, checks := 0, allowed := 0, denied := 0, denials := .empty, history := [] }

/-- A reason with what the operation needs and what the token lacks of it. -/
structure Verdict where
  reason : Reason
  required : CapabilitySet
  missing : CapabilitySet
  deriving DecidableEq

/-- The verdict on a token for an operation that needs `required`. -/
def judgeMapped {σ : Type} (authority : Authority σ) (s : σ) (t : Token)
    (required : CapabilitySet) : Verdict × σ :=
  match authority.check s t with
  | (.error e, s) => (⟨.ofTokenError e, required, ∅⟩, s)
  | (.ok (), s) =>
    let missing := required.difference t.capabilities
    if missing.isEmpty then
      match authority.consume s t with
      | (.error e, s) => (⟨.ofTokenError e, required, ∅⟩, s)
      | (.ok (), s) => (⟨.granted, required, missing⟩, s)
    else (⟨.missingCapabilities, required, missing⟩, s)

/-- The verdict on a token for an operation. -/
def judge {σ : Type} (m : Mediator) (authority : Authority σ) (s : σ) (t : Token)
    (operation : Operation) : Verdict × σ :=
  match m.table.required? operation with
  | some required => judgeMapped authority s t required
  | none =>
    if m.config.strict then (⟨.unmappedOperation, ∅, ∅⟩, s) else judgeMapped authority s t ∅

/-- The mediator after a decision was counted and kept. -/
def record (m : Mediator) (d : Decision) : Mediator :=
  let history := pushBounded m.config.maxHistory m.history d
  if d.allowed then { m with checks := m.checks + 1, allowed := m.allowed + 1, history }
  else
    { m with
      checks := m.checks + 1
      denied := m.denied + 1
      denials := m.denials.bump d.reason
      history }

def decision (now : Timestamp) (t : Token) (operation : Operation) (v : Verdict) : Decision where
  operation := operation
  required := v.required
  missing := v.missing
  reason := v.reason
  timestamp := now
  tokenId := t.id
  tenant := t.tenant
  allowed := v.reason = .granted

/-- Decides whether a token may perform an operation, and records the decision. -/
def check {σ : Type} (m : Mediator) (authority : Authority σ) (s : σ) (now : Timestamp) (t : Token)
    (operation : Operation) : Decision × Mediator × σ :=
  let (verdict, s) := m.judge authority s t operation
  let d := decision now t operation verdict
  (d, m.record d, s)

/-- What a caller gets who insists on an operation. -/
def insist (d : Decision) : Except MediationError Decision :=
  if d.allowed then .ok d else .error (.ofDenial d)

/-- The last `limit` decisions of the history, oldest first. -/
def recent (m : Mediator) (limit : Nat) : List Decision := lastOf limit m.history

end Mediator

/-! ## The audit event of a decision -/

namespace Decision

/-- The kind of event that a decision is recorded as. -/
def eventType (d : Decision) : Audit.EventType :=
  if d.allowed then .capabilityGranted
  else if d.reason.isViolation then .securityViolation
  else .capabilityDenied

/-- What is recorded about a decision. -/
def toEvent (d : Decision) : Audit.Event where
  eventType := d.eventType
  tenant := some d.tenant
  details := .ofList [
    ("operation", d.operation),
    ("reason", d.reason.name),
    ("required", d.required.display),
    ("missing", d.missing.display),
    ("token_id", d.tokenId.toText)]

end Decision

end QubitWarden
