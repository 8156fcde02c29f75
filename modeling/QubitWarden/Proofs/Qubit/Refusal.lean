import QubitWarden.Proofs.Qubit.Run

/-!
# Refused operations

Qubits are changed one after the other, and the quota of a tenant is stored before it is checked, so
a refusal in the middle would leave half a change behind. On well-formed pools there is none.

* `Answer.refusal?`: the error of an answer.
* `step_of_refusal`: a refused operation leaves the whole pool alone.
* `allocate_error`, `deallocate_error`: what is refused is the request, never a qubit on the way.
* `releaseTenant_ok`: a tenant can always be released.
-/

namespace QubitWarden

namespace AllocationError

/-- The error of a qubit that was not found, or not in the state that an operation relies on. -/
def OfQubit : AllocationError → Prop
  | .unknownQubit _ | .invalidTransition _ _ _ => True
  | _ => False

end AllocationError

namespace Pool

/-- The error of an answer, if it is one. -/
def Answer.refusal? : Answer → Option AllocationError
  | .qubits (.error e) | .done (.error e) | .evicted (.error e) | .quota (.error e) => some e
  | _ => none

variable {size : Nat} {p : Pool} {now : Timestamp} {tenant : Tenant} {e : AllocationError}

/-! ## Quotas -/

/-- A stored quota that is put back changes nothing. -/
theorem modifyQuota_id (h : 0 < (p.quota tenant).allocated) : p.modifyQuota tenant id = p := by
  have hstored : p.quotas.find? (fun q => q.tenant = tenant) = some (p.quota tenant) := by
    unfold quota at h ⊢
    cases hf : p.quotas.find? fun q => q.tenant = tenant with
    | none =>
      -- A quota that is not stored counts nothing.
      rw [hf] at h
      exact absurd h (Nat.lt_irrefl 0)
    | some q => rfl
  have hput : putQuota (p.quota tenant) p.quotas = p.quotas := by
    rw [putQuota_eq]
    refine Keyed.put_eq_self ?_
    rw [quota_tenant]
    exact hstored
  rw [modifyQuota, id_eq, hput]

theorem quota_modifyQuota_id (p : Pool) (tenant other : Tenant) :
    (p.modifyQuota tenant id).quota other = p.quota other := by
  rw [quota_modifyQuota (quota_tenant p tenant)]
  split
  next h => rw [← h, id_eq]
  next => rfl

/-- **A quota below the holdings is refused without storing one.** -/
theorem setQuota_eq (p : Pool) (tenant : Tenant) (maxQubits : Nat) :
    p.setQuota tenant maxQubits =
      let quota := p.quota tenant
      if maxQubits < quota.allocated then
        (.error (.invalidRequest (.quotaBelowHoldings maxQubits quota.allocated)), p)
      else
        (.ok { quota with maxQubits }, (p.modifyQuota tenant id).modifyQuota tenant
          fun _ => { quota with maxQubits }) := by
  unfold setQuota
  dsimp only
  rw [quota_modifyQuota_id]
  refine ite_congr rfl (fun hlt => ?_) fun _ => rfl
  rw [modifyQuota_id (Nat.lt_of_le_of_lt (Nat.zero_le _) hlt)]

/-! ## The pool after a refusal -/

/-- **A refused operation leaves the pool alone.** -/
theorem step_of_refusal (h : WellFormed size p) (call : Call)
    (he : (step p now call).1.refusal? = some e) : (step p now call).2 = p := by
  cases call with
  | allocate tenant count preferred =>
    obtain ⟨e, heq⟩ | ⟨selected, -, -, -, heq⟩ := allocate_cases h now tenant count preferred <;>
      simp only [step, reply, heq] at he ⊢
    cases he
  | deallocate tenant qubits reset =>
    obtain ⟨e, heq⟩ | ⟨taken, -, heq⟩ := deallocate_cases h now tenant qubits reset <;>
      simp only [step, reply, heq] at he ⊢
    cases he
  | completeReset id =>
    obtain ⟨e, heq⟩ | ⟨-, -, heq⟩ := completeReset_cases h id <;>
      simp only [step, reply, heq] at he ⊢
    cases he
  | completeAllResets => cases he
  | takeOffline id target =>
    obtain ⟨e, heq⟩ | ⟨source, -, -, heq⟩ := takeOffline_cases h now id target <;>
      simp only [step, reply, heq] at he ⊢
    cases he
  | restore id =>
    obtain ⟨e, heq⟩ | ⟨-, -, heq⟩ := restore_cases h id <;>
      simp only [step, reply, heq] at he ⊢
    cases he
  | setQuota tenant maxQubits =>
    simp only [step, reply, setQuota_eq] at he ⊢
    split at he
    next hlt => rw [if_pos hlt]
    next => cases he
  | releaseTenant tenant =>
    simp only [step, reply, releaseTenant] at he ⊢
    split at he
    next => cases he
    next hheld =>
      rw [if_neg hheld]
      obtain ⟨e, heq⟩ | ⟨taken, -, heq⟩ :=
        deallocate_cases h now tenant (p.tenantQubits tenant) true <;> rw [heq] at he ⊢
      cases he

/-! ## What is refused -/

theorem allocate_error (h : WellFormed size p) {count : Nat} {preferred : List QubitId}
    (he : (p.allocate now tenant count preferred).1 = .error e) :
    e = .invalidRequest .zeroCount ∨
      e = .quotaExceeded tenant count (p.quota tenant).allocated (p.quota tenant).maxQubits ∨
      e = .resourceExhausted count (p.countIn .free) := by
  rw [allocate_eq h] at he
  dsimp only at he
  split at he
  · exact .inl (Except.error.inj he).symm
  split at he
  · exact .inr (.inl (Except.error.inj he).symm)
  split at he
  · exact .inr (.inr (Except.error.inj he).symm)
  · cases he

theorem deallocate_error (h : WellFormed size p) {qubits : List QubitId} {reset : Bool}
    (he : (p.deallocate now tenant qubits reset).1 = .error e) :
    e = .invalidRequest .nothingToDeallocate ∨
      e = .notOwned tenant (p.foreignTo tenant qubits) := by
  rw [deallocate_eq h] at he
  dsimp only at he
  split at he
  · exact .inl (Except.error.inj he).symm
  split at he
  · exact .inr (Except.error.inj he).symm
  · cases he

theorem verifyAccess_of_held (h : WellFormed size p) {id : QubitId}
    (hid : id ∈ p.tenantQubits tenant) : p.verifyAccess tenant id = true := by
  obtain ⟨q, hq, rfl⟩ := List.mem_map.1 hid
  obtain ⟨hq, howned⟩ := List.mem_filter.1 hq
  exact verifyAccess_iff.2 ⟨q, find?_of_mem h.distinct hq, howned⟩

theorem foreignTo_tenantQubits (h : WellFormed size p) (tenant : Tenant) :
    p.foreignTo tenant (p.tenantQubits tenant) = [] := by
  rw [foreignTo, List.filter_eq_nil_iff]
  intro id hid
  simp [verifyAccess_of_held h (QubitId.mem_ascending.1 hid)]

/-- **A tenant can always be released.** -/
theorem releaseTenant_ok (h : WellFormed size p) (now : Timestamp) (tenant : Tenant) :
    ∃ released, (p.releaseTenant now tenant).1 = .ok released := by
  unfold releaseTenant
  dsimp only
  split
  next => exact ⟨[], rfl⟩
  next hheld =>
    have hsome : QubitId.ascending (p.tenantQubits tenant) ≠ [] := by
      obtain ⟨id, hid⟩ := List.exists_mem_of_ne_nil _ (by simpa using hheld)
      exact List.ne_nil_of_mem (QubitId.mem_ascending.2 hid)
    rw [deallocate_eq h]
    simp [hsome, foreignTo_tenantQubits h]

/-- **Refused operations change nothing.** On every pool that a run leads to, an operation that is
refused leaves qubits, stored quotas and history exactly as they were. Allocations, deallocations
and releases are never refused because of a qubit that is missing or in the wrong state, and the
release of a tenant is never refused at all. -/
theorem refusals_harmless (config : PoolConfig) (calls : List (Timestamp × Call))
    (now : Timestamp) :
    let p := (run config calls).state
    (∀ call e, (step p now call).1.refusal? = some e → (step p now call).2 = p) ∧
      (∀ tenant count preferred e, (p.allocate now tenant count preferred).1 = .error e →
        ¬ e.OfQubit) ∧
      (∀ tenant qubits reset e, (p.deallocate now tenant qubits reset).1 = .error e →
        ¬ e.OfQubit) ∧
      ∀ tenant, ∃ released, (p.releaseTenant now tenant).1 = .ok released := by
  intro p
  have h : WellFormed config.poolSize.toNat p := wellFormed_run config calls
  refine ⟨fun call e => step_of_refusal h call, fun tenant count preferred e he => ?_,
    fun tenant qubits reset e he => ?_, releaseTenant_ok h now⟩
  · obtain rfl | rfl | rfl := allocate_error h he <;> exact id
  · obtain rfl | rfl := deallocate_error h he <;> exact id

end Pool

end QubitWarden
