import QubitWarden.Proofs.Qubit.Run

/-!
# What happened to qubits

The pool, and the service in front of it, tell the same facts about qubits. A history is the list of
these facts, oldest first. What an operation can do to the qubits is said once, in `Effect`.

* `QubitFact`: the qubits concerned, the states they may come from, how they change, and who had
  them and has them.
* `Pool.step_effect`: an operation tells no fact and leaves the qubits alone, or it tells one fact
  and changes the qubits accordingly.
* `Pool.history_induction`: what every effect keeps holds of the history and the pool of each run.
-/

namespace QubitWarden

/-- A fact about qubits. -/
inductive QubitFact where
  | given (tenant : Tenant) (ids : List QubitId)
  /-- The tenant has the qubits no more; with a reset, they have to be purged. -/
  | released (tenant : Tenant) (ids : List QubitId) (reset : Bool)
  | purged (ids : List QubitId)
  | withdrawn (id : QubitId) (target : QubitState) (owner : Option Tenant)
  | restored (id : QubitId)
  deriving DecidableEq

/-- Facts about qubits, oldest first. -/
abbrev QubitHistory := List QubitFact

/-- Where a list with one more item is split at an item, that is the last one or comes before it. -/
theorem split_concat {α : Type} {l before rest : List α} {last a : α}
    (h : l ++ [last] = before ++ a :: rest) :
    (rest = [] ∧ l = before ∧ last = a) ∨
      ∃ earlier, rest = earlier ++ [last] ∧ l = before ++ a :: earlier := by
  rcases List.eq_nil_or_concat rest with rfl | ⟨earlier, b, rfl⟩
  · obtain ⟨hl, hlast⟩ := List.append_inj' h rfl
    exact .inl ⟨rfl, hl, List.head_eq_of_cons_eq hlast⟩
  · rw [List.concat_eq_append, ← List.cons_append, ← List.append_assoc] at h
    obtain ⟨hl, hlast⟩ := List.append_inj' h rfl
    rw [List.concat_eq_append, hlast]
    exact .inr ⟨earlier, rfl, hl⟩

namespace QubitFact

/-- The qubits concerned. -/
def ids : QubitFact → List QubitId
  | .given _ ids | .released _ ids _ | .purged ids => ids
  | .withdrawn id _ _ | .restored id => [id]

/-- Who had the qubits. -/
def source : QubitFact → Option Tenant
  | .released tenant _ _ => some tenant
  | .withdrawn _ _ owner => owner
  | .given _ _ | .purged _ | .restored _ => none

/-- Who has the qubits. -/
def target : QubitFact → Option Tenant
  | .given tenant _ => some tenant
  | .released _ _ _ | .purged _ | .withdrawn _ _ _ | .restored _ => none

/-- The states that the qubits may come from. -/
def Admits : QubitFact → QubitState → Prop
  | .given _ _, state => state = .free
  | .released _ _ _, state => state = .allocated
  | .purged _, state => state = .resetting
  | .withdrawn _ target _, state => target.isOffline = true ∧ state ≠ target
  | .restored _, state => state.isOffline = true

/-- How each of the qubits changes. -/
def change (now : Timestamp) : QubitFact → Qubit → Qubit
  | .given tenant _ => Qubit.given tenant now
  | .released _ _ reset => Pool.released reset
  | .withdrawn _ target _ => fun q => q.clear target
  | .purged _ | .restored _ => Qubit.freed

end QubitFact

namespace Pool

/-- What an exchange tells about qubits. -/
def facts (e : Exchange Call Answer) : QubitHistory :=
  match e.call, e.answer with
  | .allocate tenant _ _, .qubits (.ok ids) => [.given tenant ids]
  | .deallocate tenant _ reset, .qubits (.ok ids) => [.released tenant ids reset]
  | .releaseTenant tenant, .qubits (.ok ids) =>
    if ids.isEmpty then [] else [.released tenant ids true]
  | .completeReset id, .done (.ok ()) => [.purged [id]]
  | .completeAllResets, .qubits (.ok ids) => [.purged ids]
  | .takeOffline id target, .evicted (.ok owner) => [.withdrawn id target owner]
  | .restore id, .done (.ok ()) => [.restored id]
  | _, _ => []

/-- What a trace tells about qubits. -/
def toldBy (trace : List (Exchange Call Answer)) : QubitHistory := trace.flatMap facts

/-- A fact that came true when the pool became `after`. -/
structure Happened (p : Pool) (now : Timestamp) (fact : QubitFact) (after : Pool) : Prop where
  handover : Handover p fact.ids (fact.change now) fact.source fact.target
  admitted : ∀ q ∈ p.qubits, q.id ∈ fact.ids → fact.Admits q.state
  qubits : after.qubits = (p.update fact.ids (fact.change now)).qubits

/-- What an exchange tells, and the pool it leaves. -/
inductive Effect (p : Pool) (now : Timestamp) : QubitHistory → Pool → Prop
  | none {after : Pool} (qubits : after.qubits = p.qubits) : Effect p now [] after
  | told {fact : QubitFact} {after : Pool} (happened : Happened p now fact after) :
      Effect p now [fact] after

section
variable {size : Nat} {p : Pool} (h : WellFormed size p) (now : Timestamp)
include h

theorem deallocate_effect (tenant : Tenant) (qubits : List QubitId) (reset : Bool) :
    (∃ e, p.deallocate now tenant qubits reset = (.error e, p)) ∨
      ∃ taken after, p.deallocate now tenant qubits reset = (.ok taken, after) ∧
        Happened p now (.released tenant taken reset) after := by
  obtain he | ⟨taken, ho, he⟩ := deallocate_cases h now tenant qubits reset
  · exact .inl he
  · refine .inr ⟨taken, _, he, ho, ?_, rfl⟩
    intro q hq hmem
    apply (h.marked q hq).owner.1
    rw [ho.source q hq hmem]
    rfl

theorem releaseTenant_effect (tenant : Tenant) :
    Effect p now (facts (exchange step p now (.releaseTenant tenant)))
      (step p now (.releaseTenant tenant)).2 := by
  simp only [exchange, step, reply, facts]
  by_cases hempty : (p.tenantQubits tenant).isEmpty = true
  · have he : p.releaseTenant now tenant = (.ok [], p) := if_pos hempty
    rw [he]
    exact .none rfl
  · have hdeallocate : p.releaseTenant now tenant =
        p.deallocate now tenant (p.tenantQubits tenant) true := if_neg hempty
    rw [hdeallocate]
    obtain ⟨e, he⟩ | ⟨taken, after, he, hhappened⟩ :=
      deallocate_effect h now tenant (p.tenantQubits tenant) true
    · rw [he]
      exact .none rfl
    · rw [he]
      cases taken with
      | nil => exact .none (by simp [hhappened.qubits, QubitFact.ids, update])
      | cons id rest => exact .told hhappened

/-- **All that an operation can do to the qubits.** -/
theorem step_effect (call : Call) :
    Effect p now (facts (exchange step p now call)) (step p now call).2 := by
  cases call with
  | allocate tenant count preferred =>
    simp only [exchange, step, reply, facts]
    obtain ⟨e, he⟩ | ⟨selected, ho, hfree, -, he⟩ := allocate_cases h now tenant count preferred
    · rw [he]
      exact .none rfl
    · rw [he]
      exact .told ⟨ho, hfree, rfl⟩
  | deallocate tenant qubits reset =>
    simp only [exchange, step, reply, facts]
    obtain ⟨e, he⟩ | ⟨taken, after, he, hhappened⟩ := deallocate_effect h now tenant qubits reset
    · rw [he]
      exact .none rfl
    · rw [he]
      exact .told hhappened
  | completeReset id =>
    simp only [exchange, step, reply, facts]
    obtain ⟨e, he⟩ | ⟨ho, hstate, he⟩ := completeReset_cases h id
    · rw [he]
      exact .none rfl
    · rw [he]
      exact .told ⟨ho, fun q hq hmem => hstate q hq (List.mem_singleton.1 hmem), rfl⟩
  | completeAllResets =>
    simp only [exchange, step, reply, facts]
    obtain ⟨pending, ho, hstate, he⟩ := completeAllResets_eq h
    rw [he]
    exact .told ⟨ho, fun q hq hmem => (hstate q hq).1 hmem, rfl⟩
  | takeOffline id target =>
    simp only [exchange, step, reply, facts]
    obtain ⟨e, he⟩ | ⟨source, ho, ⟨htarget, hstate⟩, he⟩ := takeOffline_cases h now id target
    · rw [he]
      exact .none rfl
    · rw [he]
      refine .told ⟨ho, fun q hq hmem => ⟨htarget, hstate q hq (List.mem_singleton.1 hmem)⟩, ?_⟩
      cases source <;> rfl
  | restore id =>
    simp only [exchange, step, reply, facts]
    obtain ⟨e, he⟩ | ⟨ho, hstate, he⟩ := restore_cases h id
    · rw [he]
      exact .none rfl
    · rw [he]
      exact .told ⟨ho, fun q hq hmem => hstate q hq (List.mem_singleton.1 hmem), rfl⟩
  | setQuota tenant maxQubits =>
    simp only [exchange, step, reply, facts, setQuota]
    split <;> exact .none rfl
  | releaseTenant tenant => exact releaseTenant_effect h now tenant

end

/-- **Induction over the history of a run**, through well-formed pools. -/
theorem history_induction {config : PoolConfig} {P : QubitHistory → Pool → Prop}
    (base : P [] (new config))
    (kept : ∀ {h p now told after}, WellFormed config.poolSize.toNat p → Effect p now told after →
      P h p → P (h ++ told) after)
    (calls : List (Timestamp × Call)) :
    P (toldBy (run config calls).trace) (run config calls).state := by
  refine (runFrom_induction
    (P := fun trace p => WellFormed config.poolSize.toNat p ∧ P (toldBy trace) p) step
    ⟨wellFormed_new config, base⟩ ?_ calls).2
  rintro trace p now call ⟨hp, h⟩
  refine ⟨wellFormed_step hp now call, ?_⟩
  have := kept hp (step_effect hp now call) h
  simpa [toldBy] using this

/-! ## One qubit -/

section
variable {p after : Pool} {now : Timestamp} {fact : QubitFact} {id : QubitId}

theorem find?_congr (h : after.qubits = p.qubits) (id : QubitId) : after.find? id = p.find? id := by
  rw [find?, h]
  rfl

theorem Happened.find?_of_mem (h : Happened p now fact after) (hmem : id ∈ fact.ids) :
    ∃ q, p.find? id = some q ∧ q.owner = fact.source ∧ fact.Admits q.state ∧
      after.find? id = some (fact.change now q) ∧ (fact.change now q).owner = fact.target := by
  obtain ⟨q, hf⟩ := exists_find? (h.handover.known id hmem)
  obtain ⟨hq, rfl⟩ := mem_of_find? hf
  refine ⟨q, hf, h.handover.source q hq hmem, h.admitted q hq hmem, ?_,
    h.handover.target q hq hmem⟩
  rw [find?_congr h.qubits, find?_update h.handover.id, hf, Option.map_some, if_pos hmem]

theorem Happened.find?_of_not_mem (h : Happened p now fact after) (hmem : id ∉ fact.ids) :
    after.find? id = p.find? id := by
  rw [find?_congr h.qubits, find?_update h.handover.id]
  simp only [if_neg hmem, Option.map_id']

end

end Pool

end QubitWarden
