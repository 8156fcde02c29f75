import QubitWarden.Proofs.Mediation.Check
import QubitWarden.Proofs.Run

/-!
# Runs of a mediator

A mediator in front of an authority that it knows nothing about, as one machine. Callers check
operations or insist on them; the authority has a state of its own and may answer anything.

* `Mediator.Reflects`: the counters and the history of a mediator are those of some decisions;
  recording one more extends them (`Reflects.record`).
* `Mediation.step`, `Mediation.run`: the machine, whose configuration and table stay
  (`step_settings`).
-/

namespace QubitWarden

/-! ## Counters and history -/

namespace Mediator

/-- The reasons of the denials among some decisions. -/
def denialReasons (decisions : List Decision) : List Reason :=
  (decisions.filter fun d => !d.allowed).map Decision.reason

/-- The counters and the history of a mediator are those of some decisions, oldest first. -/
structure Reflects (m : Mediator) (decisions : List Decision) : Prop where
  checks : m.checks = decisions.length
  allowed : m.allowed = decisions.countP fun d => d.allowed
  denied : m.denied = decisions.countP fun d => !d.allowed
  denials : m.denials = .ofList (denialReasons decisions)
  history : m.history = lastOf m.config.maxHistory decisions

theorem reflects_new (config : MediatorConfig) (table : Requirements) :
    (new config table).Reflects [] :=
  ⟨rfl, rfl, rfl, rfl, (lastOf_of_length_le (Nat.zero_le _)).symm⟩

theorem denialReasons_concat (decisions : List Decision) (d : Decision) :
    denialReasons (decisions ++ [d]) =
      denialReasons decisions ++ if d.allowed then [] else [d.reason] := by
  cases h : d.allowed <;> simp [denialReasons, h]

variable {m : Mediator} {decisions : List Decision}

theorem Reflects.record (h : m.Reflects decisions) (d : Decision) :
    (m.record d).Reflects (decisions ++ [d]) := by
  have hhistory := pushBounded_lastOf m.config.maxHistory decisions d
  rw [← h.history] at hhistory
  unfold Mediator.record
  cases hallowed : d.allowed with
  | false =>
    refine ⟨by simp [h.checks], by simp [h.allowed, hallowed], by simp [h.denied, hallowed], ?_,
      hhistory⟩
    rw [denialReasons_concat, hallowed]
    exact (congrArg (Tally.bump · d.reason) h.denials).trans (Tally.ofList_concat _ _).symm
  | true =>
    refine ⟨by simp [h.checks], by simp [h.allowed, hallowed], by simp [h.denied, hallowed], ?_,
      hhistory⟩
    rw [denialReasons_concat, hallowed]
    exact h.denials.trans (congrArg Tally.ofList (List.append_nil _)).symm

theorem Reflects.checks_eq_sum (h : m.Reflects decisions) : m.checks = m.allowed + m.denied := by
  rw [h.checks, h.allowed, h.denied, List.length_eq_countP_add_countP (fun d => d.allowed = true)]
  simp

theorem Reflects.count_denials (h : m.Reflects decisions) (reason : Reason) :
    m.denials.count reason = decisions.countP fun d => !d.allowed && d.reason = reason := by
  rw [h.denials, Tally.count_ofList, denialReasons, List.countP_map, List.countP_filter]
  simp [Bool.and_comm]

theorem Reflects.total_denials (h : m.Reflects decisions) : m.denials.total = m.denied := by
  rw [h.denials, Tally.total_ofList, h.denied, denialReasons, List.length_map,
    ← List.countP_eq_length_filter]

end Mediator

/-! ## The machine -/

/-- A mediator, and the state of the authority that it asks. -/
structure Mediation (σ : Type) where
  mediator : Mediator
  tokens : σ

namespace Mediation

/-- A check of an operation, for a caller that insists on it or not. -/
structure Call where
  token : Token
  operation : Operation
  insists : Bool

/-- The decision on a call, and what the caller gets. -/
structure Answer where
  decision : Decision
  result : Except MediationError Decision

variable {σ : Type} (authority : Authority σ)

/-- The answer to a call, and the machine afterwards. -/
def step (s : Mediation σ) (now : Timestamp) (c : Call) : Answer × Mediation σ :=
  let (d, mediator, tokens) := s.mediator.check authority s.tokens now c.token c.operation
  (⟨d, if c.insists then Mediator.insist d else .ok d⟩, ⟨mediator, tokens⟩)

/-- The run of the calls on a new mediator. -/
def run (config : MediatorConfig) (table : Requirements) (tokens : σ)
    (calls : List (Timestamp × Call)) : Run (Mediation σ) Call Answer :=
  runFrom (step authority) ⟨.new config table, tokens⟩ calls

/-- The decisions of a trace, oldest first. -/
def decisions (trace : List (Exchange Call Answer)) : List Decision :=
  trace.map fun e => e.answer.decision

variable (s : Mediation σ) (now : Timestamp) (c : Call)

theorem step_result : (step authority s now c).1.result =
    if c.insists then Mediator.insist (step authority s now c).1.decision
    else .ok (step authority s now c).1.decision := rfl

theorem step_settings :
    (step authority s now c).2.mediator.config = s.mediator.config ∧
      (step authority s now c).2.mediator.table = s.mediator.table :=
  Mediator.record_settings _

theorem allowed_iff_granted : (step authority s now c).1.decision.allowed = true ↔
    (step authority s now c).1.decision.reason = .granted := decide_eq_true_iff

end Mediation

end QubitWarden
