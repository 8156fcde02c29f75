import QubitWarden.Kernel.Basic
import QubitWarden.Proofs.Mediation.UseLimit

/-!
# Runs of the kernel

The kernel as a machine: every operation with its answer, and what an exchange tells about tokens.

* `Steady`: the key, the configuration and the settings of the mediator, which no operation changes.
* `SameTokens`: what an operation on qubits leaves alone besides.
* `step_guarded`: each exchange is at most one of the registry behind the mediator.
* `run_registry`: a run of a new kernel is a run of the registry with the same facts.
-/

namespace QubitWarden.Kernel

/-- An operation of the kernel. A new token comes with the identifier drawn for it, and a check with
what the clock shows after the token was evaluated. -/
inductive Call where
  | issue (id : TokenId) (request : TokenRequest) (parent : Option Token)
  | attenuate (id : TokenId) (source : Token) (capabilities : CapabilitySet)
  | revoke (id : TokenId)
  | collectExpired
  | check (t : Token) (operation : Operation) (later : Timestamp)
  | require (t : Token) (operation : Operation) (later : Timestamp)
  | allocate (tenant : Tenant) (count : Nat) (preferred : List QubitId)
  | deallocate (tenant : Tenant) (qubits : List QubitId) (reset : Bool)
  | verifyAccess (tenant : Tenant) (qubit : QubitId)
  | requireAccess (tenant : Tenant) (qubit : QubitId)
  | completeReset (qubit : QubitId)
  | completeAllResets
  | markFaulty (qubit : QubitId)
  | markMaintenance (qubit : QubitId)
  | restore (qubit : QubitId)
  | setQuota (tenant : Tenant) (maxQubits : Nat)
  | releaseTenant (tenant : Tenant)

/-- The result of an operation. -/
inductive Answer where
  | token (result : Except KernelError Token)
  | flag (value : Bool)
  | count (n : Nat)
  | decided (d : Decision)
  | insisted (result : Except KernelError Decision)
  | qubits (result : Except KernelError (List QubitId))
  | done (result : Except KernelError Unit)
  | evicted (result : Except KernelError (Option Tenant))
  | quota (result : Except KernelError Quota)

/-- The result of an operation, and the kernel afterwards. -/
def step (k : Kernel) (now : Timestamp) : Call → Answer × Kernel
  | .issue id request parent => reply .token (k.issue now id request parent)
  | .attenuate id source capabilities => reply .token (k.attenuate now id source capabilities)
  | .revoke id => reply .flag (k.revoke now id)
  | .collectExpired => reply .count (k.collectExpired now)
  | .check t operation later => reply .decided (k.check now t operation later)
  | .require t operation later => reply .insisted (k.require now t operation later)
  | .allocate tenant count preferred => reply .qubits (k.allocate now tenant count preferred)
  | .deallocate tenant qubits reset => reply .qubits (k.deallocate now tenant qubits reset)
  | .verifyAccess tenant qubit => reply .flag (k.verifyAccess now tenant qubit)
  | .requireAccess tenant qubit => reply .done (k.requireAccess now tenant qubit)
  | .completeReset qubit => reply .done (k.completeReset now qubit)
  | .completeAllResets => reply (fun freed => .qubits (.ok freed)) (k.completeAllResets now)
  | .markFaulty qubit => reply .evicted (k.markFaulty now qubit)
  | .markMaintenance qubit => reply .evicted (k.markMaintenance now qubit)
  | .restore qubit => reply .done (k.restore now qubit)
  | .setQuota tenant maxQubits => reply .quota (k.setQuota tenant maxQubits)
  | .releaseTenant tenant => reply .qubits (k.releaseTenant now tenant)

/-- The run of the operations on a given kernel. -/
def run (start : Kernel) (calls : List (Timestamp × Call)) : Run Kernel Call Answer :=
  runFrom step start calls

/-- The token of an answer, as a fact. -/
def issuedBy : Answer → TokenHistory
  | .token (.ok t) => [.issued t]
  | _ => []

/-- Whether an answer grants an operation to a token. -/
def granted : Answer → Bool
  | .decided d => d.allowed
  | .insisted result => result.isOk
  | _ => false

/-- What an exchange tells about tokens. -/
def facts (e : Exchange Call Answer) : TokenHistory :=
  match e.call with
  | .issue _ _ parent => parent.toList.map .presented ++ issuedBy e.answer
  | .attenuate _ source _ => [.presented source] ++ issuedBy e.answer
  | .revoke id => [.revoked id]
  | .collectExpired => [.collected e.now]
  | .check t _ _ | .require t _ _ => Mediator.checkFacts t (granted e.answer)
  | _ => []

/-- What a trace tells about tokens. -/
def history (trace : List (Exchange Call Answer)) : TokenHistory := trace.flatMap facts

/-! ## What operations leave alone -/

/-- The registry and the mediator of the kernel. -/
def guarded (k : Kernel) : Guarded := ⟨k.registry, k.mediator⟩

/-- The settings of a kernel, which stay as they are. -/
structure Steady (k after : Kernel) : Prop where
  key : after.key = k.key
  config : after.config = k.config
  strict : after.mediator.config = k.mediator.config
  table : after.mediator.table = k.mediator.table

/-- All that matters to tokens is left alone. -/
structure SameTokens (k after : Kernel) : Prop where
  key : after.key = k.key
  config : after.config = k.config
  guarded : after.guarded = k.guarded

variable {k after : Kernel}

theorem SameTokens.steady (h : SameTokens k after) : Steady k after :=
  ⟨h.key, h.config, congrArg (fun g => g.mediator.config) h.guarded,
    congrArg (fun g => g.mediator.table) h.guarded⟩

/-- An operation on qubits. -/
def Call.OnQubits : Call → Prop
  | .issue .. | .attenuate .. | .revoke _ | .collectExpired | .check .. | .require .. => False
  | _ => True

theorem step_sameTokens (k : Kernel) (now : Timestamp) {call : Call} (h : call.OnQubits) :
    SameTokens k (step k now call).2 := by
  cases call with
  | issue | attenuate | revoke | collectExpired | check | require => cases h
  | allocate tenant count preferred =>
    simp only [step, reply, allocate]
    split <;> exact ⟨rfl, rfl, rfl⟩
  | _ => exact ⟨rfl, rfl, rfl⟩

/-! ## Operations on tokens -/

theorem issue_eq (k : Kernel) (now : Timestamp) (id : TokenId) (request : TokenRequest)
    (parent : Option Token) :
    let r := k.registry.create k.issuer now id request parent
    (k.issue now id request parent).1 = r.1.mapError .token ∧
      (k.issue now id request parent).2.guarded = ⟨r.2, k.mediator⟩ ∧
      Steady k (k.issue now id request parent).2 := by
  rcases hr : k.registry.create k.issuer now id request parent with ⟨_ | token, registry⟩ <;>
    simp only [issue, hr] <;> exact ⟨rfl, rfl, rfl, rfl, rfl, rfl⟩

theorem attenuate_eq (k : Kernel) (now : Timestamp) (id : TokenId) (source : Token)
    (capabilities : CapabilitySet) :
    let r := k.registry.attenuate k.issuer now id source capabilities
    (k.attenuate now id source capabilities).1 = r.1.mapError .token ∧
      (k.attenuate now id source capabilities).2.guarded = ⟨r.2, k.mediator⟩ ∧
      Steady k (k.attenuate now id source capabilities).2 := by
  rcases hr : k.registry.attenuate k.issuer now id source capabilities with
    ⟨_ | token, registry⟩ <;>
    simp only [attenuate, hr] <;> exact ⟨rfl, rfl, rfl, rfl, rfl, rfl⟩

theorem revoke_eq (k : Kernel) (now : Timestamp) (id : TokenId) :
    (k.revoke now id).2.guarded = ⟨(k.registry.revoke id).2, k.mediator⟩ ∧
      Steady k (k.revoke now id).2 := by
  rcases hr : k.registry.revoke id with ⟨_ | _, registry⟩ <;>
    simp only [revoke, hr] <;> exact ⟨rfl, rfl, rfl, rfl, rfl⟩

theorem collectExpired_eq (k : Kernel) (now : Timestamp) :
    (k.collectExpired now).2.guarded = ⟨(k.registry.collectExpired now).2, k.mediator⟩ ∧
      Steady k (k.collectExpired now).2 := by
  rcases hr : k.registry.collectExpired now with ⟨_ | n, registry⟩ <;>
    simp only [collectExpired, hr] <;> exact ⟨rfl, rfl, rfl, rfl, rfl⟩

theorem check_eq (k : Kernel) (now : Timestamp) (t : Token) (operation : Operation)
    (later : Timestamp) :
    let r := k.check now t operation later
    let s := k.guarded.check k.issuer now t operation later
    r.1 = s.1 ∧ r.2.guarded = s.2 ∧ Steady k r.2 := by
  obtain ⟨-, -, hconfig, htable⟩ :=
    k.mediator.check_outcome k.key.sign k.registry now later t operation
  exact ⟨rfl, rfl, rfl, rfl, hconfig, htable⟩

theorem isOk_mapError {ε δ α : Type} (f : ε → δ) (x : Except ε α) :
    (x.mapError f).isOk = x.isOk := by
  cases x <;> rfl

theorem require_eq (k : Kernel) (now : Timestamp) (t : Token) (operation : Operation)
    (later : Timestamp) :
    (k.require now t operation later).1.isOk = (k.check now t operation later).1.allowed ∧
      (k.require now t operation later).2 = (k.check now t operation later).2 :=
  ⟨(isOk_mapError _ _).trans (Guarded.isOk_insist _), rfl⟩

/-- **The settings of a kernel stay as they are.** -/
theorem step_steady (k : Kernel) (now : Timestamp) (call : Call) :
    Steady k (step k now call).2 := by
  by_cases hq : call.OnQubits
  · exact (step_sameTokens k now hq).steady
  cases call with
  | issue id request parent => exact (issue_eq k now id request parent).2.2
  | attenuate id source capabilities => exact (attenuate_eq k now id source capabilities).2.2
  | revoke id => exact (revoke_eq k now id).2
  | collectExpired => exact (collectExpired_eq k now).2
  | check t operation later | require t operation later =>
    exact (check_eq k now t operation later).2.2
  | _ => exact absurd trivial hq

/-! ## The registry behind the mediator -/

/-- What an exchange asks of the registry and the mediator. -/
def guardedCalls (e : Exchange Call Answer) : List (Timestamp × Guarded.Call) :=
  match e.call with
  | .issue id request parent => [(e.now, .manage (.create id request parent))]
  | .attenuate id source capabilities => [(e.now, .manage (.attenuate id source capabilities))]
  | .revoke id => [(e.now, .manage (.revoke id))]
  | .collectExpired => [(e.now, .manage .collectExpired)]
  | .check t operation later => [(e.now, .check t operation later)]
  | .require t operation later => [(e.now, .require t operation later)]
  | _ => []

theorem issuedBy_mapError (result : Except TokenError Token) :
    issuedBy (.token (result.mapError .token)) = Registry.issuedBy (.token result) := by
  cases result <;> rfl

/-- Each exchange asks the registry and the mediator at most once, and tells the same facts. -/
theorem step_guarded (k : Kernel) (now : Timestamp) (call : Call) :
    let e := exchange step k now call
    let r := runFrom (Guarded.step k.issuer) k.guarded (guardedCalls e)
    r.state = (step k now call).2.guarded ∧ r.trace.flatMap Guarded.facts = facts e := by
  by_cases hq : call.OnQubits
  · have hsame := (step_sameTokens k now hq).guarded.symm
    cases call with
    | issue | attenuate | revoke | collectExpired | check | require => cases hq
    | _ => exact ⟨hsame, rfl⟩
  cases call with
  | issue id request parent =>
    obtain ⟨hanswer, hguarded, -⟩ := issue_eq k now id request parent
    refine ⟨hguarded.symm, ?_⟩
    simp only [facts, exchange, step, reply, hanswer, issuedBy_mapError]
    exact List.append_nil _
  | attenuate id source capabilities =>
    obtain ⟨hanswer, hguarded, -⟩ := attenuate_eq k now id source capabilities
    refine ⟨hguarded.symm, ?_⟩
    simp only [facts, exchange, step, reply, hanswer, issuedBy_mapError]
    exact List.append_nil _
  | revoke id => exact ⟨(revoke_eq k now id).1.symm, rfl⟩
  | collectExpired => exact ⟨(collectExpired_eq k now).1.symm, rfl⟩
  | check t operation later =>
    exact ⟨(check_eq k now t operation later).2.1.symm, List.append_nil _⟩
  | require t operation later =>
    refine ⟨(check_eq k now t operation later).2.1.symm, ?_⟩
    simp only [facts, exchange, step, reply, granted, require_eq]
    simp only [guardedCalls, runFrom, exchange, Guarded.step, reply, List.flatMap_cons,
      List.flatMap_nil, List.append_nil, Guarded.facts, Guarded.granted, Guarded.isOk_insist]
    rfl
  | _ => exact absurd trivial hq

theorem new_eq {config : Config} {ephemeral : Key} {start : Kernel}
    (h : Kernel.new config ephemeral = .ok start) :
    start = (assemble config .standard ephemeral).refreshGauges := by
  unfold Kernel.new at h
  split at h
  · cases h
  · exact (Except.ok.inj h).symm

section
variable {config : Config} {ephemeral : Key} {start : Kernel}
  (valid : Kernel.new config ephemeral = .ok start)
include valid

theorem run_steady (calls : List (Timestamp × Call)) :
    let k := (run start calls).state
    k.issuer = start.issuer ∧ k.mediator.config = config.mediator ∧
      k.mediator.table = .standard := by
  refine runFrom_induction (P := fun _ k => k.issuer = start.issuer ∧
    k.mediator.config = config.mediator ∧ k.mediator.table = .standard) step ?_ ?_ calls
  · rw [new_eq valid]
    exact ⟨rfl, rfl, rfl⟩
  · intro _ k now call ⟨hissuer, hconfig, htable⟩
    have h := step_steady k now call
    refine ⟨?_, h.strict.trans hconfig, h.table.trans htable⟩
    rw [← hissuer, issuer, issuer, h.key, h.config]

/-- **A run of a new kernel is a run of the registry** with the same facts about tokens. -/
theorem run_registry (calls : List (Timestamp × Call)) :
    ∃ asked, (Registry.run start.issuer asked).state = (run start calls).state.registry ∧
      Registry.history (Registry.run start.issuer asked).trace =
        history (run start calls).trace := by
  have hstart : start.guarded = ⟨.empty, .new config.mediator .standard⟩ := by
    rw [new_eq valid]
    rfl
  obtain ⟨hstate, hfacts⟩ := runFrom_simulation guarded guardedCalls facts Guarded.facts
    (fun k => k.issuer = start.issuer)
    (fun k now call hk => by
      have h := step_steady k now call
      rw [← hk, issuer, issuer, h.key, h.config])
    (fun k now call hk => hk ▸ step_guarded k now call) (s := start) rfl calls
  rw [hstart] at hstate hfacts
  obtain ⟨asked, hregistry, hhistory⟩ :=
    Guarded.run_registry start.issuer config.mediator .standard _
  exact ⟨asked, hregistry.trans (congrArg Guarded.registry hstate), hhistory.trans hfacts⟩

end

end QubitWarden.Kernel
