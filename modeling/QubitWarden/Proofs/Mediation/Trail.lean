import QubitWarden.Proofs.Audit.Log
import QubitWarden.Proofs.Mediation.Run

/-!
# The trail of a mediator

A mediator counts its decisions, keeps the last of them and writes each to a log. When nobody else
writes to that log, the three tell the same decisions after every run.

* `Tells`: the record of a decision, from which the decision can be read back.
* `tells_toEvent`: the record that a mediator writes tells its decision.
* `trail_coherent`: counters, history and log after every run, for every size of the history.
-/

namespace QubitWarden

/-- A record from which a decision is read back. -/
structure Tells (r : Audit.Record) (d : Decision) : Prop where
  tenant : r.tenant = some d.tenant
  granted : r.eventType = .capabilityGranted ↔ d.allowed = true
  violation : r.eventType = .securityViolation ↔ d.reason = .lineageViolation
  denied : r.eventType = .capabilityDenied ↔ d.allowed = false ∧ d.reason ≠ .lineageViolation
  operation : r.details.get? "operation" = some d.operation
  reason : (r.details.get? "reason").bind Reason.ofName? = some d.reason
  required : (r.details.get? "required").map CapabilitySet.parse = some (.ok d.required)
  missing : (r.details.get? "missing").map CapabilitySet.parse = some (.ok d.missing)
  tokenId : (r.details.get? "token_id").bind TokenId.parse? = some d.tokenId

theorem Decision.eventType_cases {d : Decision} (h : d.allowed = true ↔ d.reason = .granted) :
    (d.eventType = .capabilityGranted ∧ d.allowed = true ∧ d.reason ≠ .lineageViolation) ∨
      (d.eventType = .securityViolation ∧ d.allowed = false ∧ d.reason = .lineageViolation) ∨
        (d.eventType = .capabilityDenied ∧ d.allowed = false ∧ d.reason ≠ .lineageViolation) := by
  unfold eventType
  split
  next hallowed =>
    refine .inl ⟨rfl, hallowed, ?_⟩
    rw [h.1 hallowed]
    decide
  next hallowed =>
    have hallowed := Bool.eq_false_iff.2 hallowed
    split
    next hviolation => exact .inr (.inl ⟨rfl, hallowed, Reason.isViolation_iff.1 hviolation⟩)
    next hviolation => exact .inr (.inr ⟨rfl, hallowed, mt Reason.isViolation_iff.2 hviolation⟩)

/-- **The record of a decision tells it.** -/
theorem tells_toEvent {d : Decision} (h : d.allowed = true ↔ d.reason = .granted) (position : Nat)
    (now : Timestamp) : Tells (.ofEvent position (now, d.toEvent)) d := by
  obtain ⟨hgranted, hviolation, hdenied⟩ :
      (d.eventType = .capabilityGranted ↔ d.allowed = true) ∧
        (d.eventType = .securityViolation ↔ d.reason = .lineageViolation) ∧
        (d.eventType = .capabilityDenied ↔
          d.allowed = false ∧ d.reason ≠ .lineageViolation) := by
    rcases Decision.eventType_cases h with h | h | h <;> simp [h]
  exact {
    tenant := rfl
    granted := hgranted
    violation := hviolation
    denied := hdenied
    operation := by simp [Audit.Record.ofEvent, Decision.toEvent, Audit.Details.ofList]
    reason := by simp [Audit.Record.ofEvent, Decision.toEvent, Audit.Details.ofList]
    required := by
      simp [Audit.Record.ofEvent, Decision.toEvent, Audit.Details.ofList,
        CapabilitySet.parse_display]
    missing := by
      simp [Audit.Record.ofEvent, Decision.toEvent, Audit.Details.ofList,
        CapabilitySet.parse_display]
    tokenId := by
      simp [Audit.Record.ofEvent, Decision.toEvent, Audit.Details.ofList, TokenId.parse?_toText] }

/-- A mediator whose decisions are written to a log of its own. -/
structure Audited (σ : Type) where
  mediation : Mediation σ
  log : Audit.Log

namespace Audited

/-- A call to the mediator, with what the clock of the log shows when the decision is written. -/
structure Call extends Mediation.Call where
  logged : Timestamp

variable {σ : Type} (H : Hash) (authority : Authority σ)

/-- The answer to a call, and the machine afterwards. -/
def step (s : Audited σ) (now : Timestamp) (c : Call) : Mediation.Answer × Audited σ :=
  let (answer, mediation) := Mediation.step authority s.mediation now c.toCall
  (answer, ⟨mediation, s.log.append H c.logged answer.decision.toEvent⟩)

/-- The run of the calls on a new mediator and an empty log. -/
def run (padding : Padding) (config : MediatorConfig) (table : Requirements) (tokens : σ)
    (calls : List (Timestamp × Call)) : Run (Audited σ) Call Mediation.Answer :=
  runFrom (step H authority) ⟨⟨.new config table, tokens⟩, .empty padding⟩ calls

/-- The decisions of a trace, oldest first. -/
def decisions (trace : List (Exchange Call Mediation.Answer)) : List Decision :=
  trace.map fun e => e.answer.decision

/-- Mediator and log after the decisions of a trace. -/
structure Coherent (H : Hash) (padding : Padding) (config : MediatorConfig)
    (decisions : List Decision) (s : Audited σ) : Prop where
  settings : s.mediation.mediator.config = config
  reflects : s.mediation.mediator.Reflects decisions
  log : ∃ events, Audit.Log.Holds H padding events s.log
  records : List.Forall₂ Tells s.log.records decisions

variable {H authority} {padding : Padding} {config : MediatorConfig}
  {past : List Decision} {s : Audited σ}

theorem Coherent.step (h : Coherent H padding config past s) (now : Timestamp) (c : Call) :
    let r := Audited.step H authority s now c
    Coherent H padding config (past ++ [r.1.decision]) r.2 := by
  intro r
  obtain ⟨events, hlog⟩ := h.log
  have hafter : Audit.Log.Holds H padding (events ++ [(c.logged, r.1.decision.toEvent)]) r.2.log :=
    Audit.Log.holds_append hlog c.logged r.1.decision.toEvent
  refine {
    settings := (Mediation.step_settings authority s.mediation now c.toCall).1.trans h.settings
    reflects := h.reflects.record r.1.decision
    log := ⟨_, hafter⟩
    records := ?_ }
  have hallowed := Mediation.allowed_iff_granted authority s.mediation now c.toCall
  rw [hafter.records, Audit.recordsOf_concat, ← hlog.records]
  exact List.rel_append h.records (.cons (tells_toEvent hallowed _ _) .nil)

theorem coherent_run (H : Hash) (authority : Authority σ) (padding : Padding)
    (config : MediatorConfig) (table : Requirements) (tokens : σ)
    (calls : List (Timestamp × Call)) :
    let r := run H authority padding config table tokens calls
    Coherent H padding config (decisions r.trace) r.state := by
  refine runFrom_induction (P := fun trace s => Coherent H padding config (decisions trace) s)
    (Audited.step H authority)
    ⟨rfl, Mediator.reflects_new config table, ⟨[], Audit.Log.holds_empty H padding⟩, .nil⟩ ?_ calls
  intro trace s now c h
  rw [decisions, List.map_append]
  exact h.step now c

/-- **Counters, history and log tell the same decisions.** After every run the log holds one record
for each call, in the order of the calls, from which the decision is read back. The counters count
the decisions of each kind, and the denials by their reason. The history is what the bound leaves of
the last decisions, and the recent ones are the last of these. -/
theorem trail_coherent (H : Hash) (authority : Authority σ) (padding : Padding)
    (config : MediatorConfig) (table : Requirements) (tokens : σ)
    (calls : List (Timestamp × Call)) :
    let r := run H authority padding config table tokens calls
    let m := r.state.mediation.mediator
    r.trace.map (fun e => (e.now, e.call)) = calls ∧
      List.Forall₂ Tells r.state.log.records (decisions r.trace) ∧
      (m.checks = calls.length ∧ m.checks = m.allowed + m.denied ∧
        m.allowed = (decisions r.trace).countP (fun d => d.allowed) ∧
        m.denied = (decisions r.trace).countP fun d => !d.allowed) ∧
      ((∀ reason, m.denials.count reason =
          (decisions r.trace).countP fun d => !d.allowed && d.reason = reason) ∧
        m.denials.total = m.denied) ∧
      (m.history <:+ decisions r.trace ∧
        m.history.length = min calls.length config.maxHistory) ∧
      ∀ limit, m.recent limit <:+ m.history ∧
        (m.recent limit).length = min limit m.history.length := by
  intro r m
  have h : Coherent H padding config (decisions r.trace) r.state :=
    coherent_run H authority padding config table tokens calls
  have hasked : r.trace.map (fun e => (e.now, e.call)) = calls := runFrom_asked _ _ calls
  have hlength : (decisions r.trace).length = calls.length := by
    rw [decisions, List.length_map, ← List.length_map (fun e => (e.now, e.call)), hasked]
  have hhistory : m.history = lastOf config.maxHistory (decisions r.trace) := by
    rw [h.reflects.history, h.settings]
  refine ⟨hasked, h.records,
    ⟨h.reflects.checks.trans hlength, h.reflects.checks_eq_sum, h.reflects.allowed,
      h.reflects.denied⟩,
    ⟨h.reflects.count_denials, h.reflects.total_denials⟩, ⟨?_, ?_⟩,
    fun limit => ⟨lastOf_suffix limit m.history, length_lastOf limit m.history⟩⟩
  · rw [hhistory]
    exact lastOf_suffix _ _
  · rw [hhistory, length_lastOf, hlength, Nat.min_comm]

end Audited

end QubitWarden
