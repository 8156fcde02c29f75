import Mathlib.Algebra.BigOperators.Group.Finset.Basic
import Mathlib.Algebra.GroupWithZero.Nat
import QubitWarden.Proofs.Qubit.Operations
import QubitWarden.Proofs.Run

/-!
# Runs of the pool

The pool as a machine. Every run from a new pool keeps the invariant, so the counts that the pool
reports are the counts of its qubits.

* `wellFormed_run`: the invariant holds after every run.
* `length_owners`, `count_owners`: the owners of all qubits, each as often as it holds one.
* `reachable_consistent`: qubits, quotas and counts agree in every state that a run leads to.
-/

namespace QubitWarden.Pool

/-- An operation of the pool. -/
inductive Call where
  | allocate (tenant : Tenant) (count : Nat) (preferred : List QubitId)
  | deallocate (tenant : Tenant) (qubits : List QubitId) (reset : Bool)
  | completeReset (id : QubitId)
  | completeAllResets
  | takeOffline (id : QubitId) (target : QubitState)
  | restore (id : QubitId)
  | setQuota (tenant : Tenant) (maxQubits : Nat)
  | releaseTenant (tenant : Tenant)

/-- The result of an operation. -/
inductive Answer where
  | qubits (result : Except AllocationError (List QubitId))
  | done (result : Except AllocationError Unit)
  | evicted (result : Except AllocationError (Option Tenant))
  | quota (result : Except AllocationError Quota)

/-- The result of an operation, and the pool afterwards. -/
def step (p : Pool) (now : Timestamp) : Call → Answer × Pool
  | .allocate tenant count preferred => reply .qubits (p.allocate now tenant count preferred)
  | .deallocate tenant qubits reset => reply .qubits (p.deallocate now tenant qubits reset)
  | .completeReset id => reply .done (p.completeReset id)
  | .completeAllResets => reply (fun freed => .qubits (.ok freed)) p.completeAllResets
  | .takeOffline id target => reply .evicted (p.takeOffline now id target)
  | .restore id => reply .done (p.restore id)
  | .setQuota tenant maxQubits => reply .quota (p.setQuota tenant maxQubits)
  | .releaseTenant tenant => reply .qubits (p.releaseTenant now tenant)

/-- The run of the operations on a new pool. -/
def run (config : PoolConfig) (calls : List (Timestamp × Call)) : Run Pool Call Answer :=
  runFrom step (new config) calls

/-- **Every operation keeps the invariant**, whether it succeeds or not. -/
theorem wellFormed_step {size : Nat} {p : Pool} (h : WellFormed size p) (now : Timestamp)
    (call : Call) : WellFormed size (step p now call).2 := by
  cases call with
  | allocate tenant count preferred => exact wellFormed_allocate h count preferred
  | deallocate tenant qubits reset => exact wellFormed_deallocate h qubits reset
  | completeReset id => exact wellFormed_completeReset h id
  | completeAllResets => exact wellFormed_completeAllResets h
  | takeOffline id target => exact wellFormed_takeOffline h id target
  | restore id => exact wellFormed_restore h id
  | setQuota tenant maxQubits => exact wellFormed_setQuota h tenant maxQubits
  | releaseTenant tenant => exact wellFormed_releaseTenant h

theorem wellFormed_run (config : PoolConfig) (calls : List (Timestamp × Call)) :
    WellFormed config.poolSize.toNat (run config calls).state :=
  runFrom_induction (P := fun _ p => WellFormed config.poolSize.toNat p) step
    (wellFormed_new config) (fun _ _ now call h => wellFormed_step h now call) calls

/-! ## Counts -/

section
variable {size : Nat} {p : Pool} (h : WellFormed size p)

/-- The owners of all qubits, each as often as it holds one. -/
def owners (p : Pool) : List Tenant := p.qubits.filterMap Qubit.owner

theorem sum_counts (p : Pool) :
    p.countIn .free + p.countIn .allocated + p.countIn .resetting + p.countIn .faulty +
      p.countIn .maintenance = p.qubits.length := by
  unfold countIn
  induction p.qubits with
  | nil => rfl
  | cons q rest ih =>
    simp only [List.countP_cons, List.length_cons]
    cases q.state <;> simp <;> omega

/-- Over distinct tenants that include every item, counts add up to the length. -/
theorem sum_count {tenants l : List Tenant} (hd : tenants.Nodup) (hmem : ∀ t ∈ l, t ∈ tenants) :
    (tenants.map fun t => l.count t).sum = l.length := by
  rw [← List.sum_toFinset _ hd]
  have hsum := Multiset.sum_count_eq_card (s := tenants.toFinset) (m := (l : Multiset Tenant))
    fun t ht => List.mem_toFinset.2 (hmem t ht)
  simpa only [Multiset.coe_count, Multiset.coe_card] using hsum

include h

theorem length_owners : p.owners.length = p.countIn .allocated := by
  rw [owners, List.length_filterMap_eq_countP, countIn]
  refine List.countP_congr fun q hq => ?_
  rw [decide_eq_true_eq]
  exact (h.marked q hq).owner

theorem count_owners (tenant : Tenant) : p.owners.count tenant = (p.quota tenant).allocated := by
  rw [owners, List.count_filterMap, h.counted, holdings]
  refine List.countP_congr fun q hq => ?_
  rw [(h.marked q hq).isOwnedBy_eq, decide_eq_true_eq, beq_iff_eq]

theorem mem_owners {tenant : Tenant} : tenant ∈ p.owners ↔ 0 < (p.quota tenant).allocated := by
  rw [← count_owners h, List.count_pos_iff]

/-- The tenants that hold something are the distinct owners. -/
theorem countP_quotas :
    (p.quotas.countP fun q => 0 < q.allocated) = p.owners.dedup.length := by
  have hd : ((p.quotas.filter fun q => 0 < q.allocated).map Quota.tenant).Nodup :=
    h.tenants.sublist (List.filter_sublist.map _)
  have hperm : ((p.quotas.filter fun q => 0 < q.allocated).map Quota.tenant).Perm
      p.owners.dedup := by
    refine (List.perm_ext_iff_of_nodup hd (List.nodup_dedup _)).2 fun tenant => ?_
    rw [List.mem_dedup, mem_owners h, List.mem_map]
    refine ⟨?_, ?_⟩
    · rintro ⟨q, hq, rfl⟩
      obtain ⟨hq, hpos⟩ := List.mem_filter.1 hq
      rw [quota_of_mem h.tenants hq]
      exact of_decide_eq_true hpos
    · intro hpos
      by_cases hmem : tenant ∈ p.quotas.map Quota.tenant
      · obtain ⟨q, hq, rfl⟩ := List.mem_map.1 hmem
        rw [quota_of_mem h.tenants hq] at hpos
        exact ⟨q, List.mem_filter.2 ⟨hq, decide_eq_true hpos⟩, rfl⟩
      · rw [quota_of_not_mem hmem] at hpos
        exact absurd hpos (Nat.lt_irrefl 0)
  rw [← hperm.length_eq, List.length_map, List.countP_eq_length_filter]

/-- **The reported counts are those of the qubits and the quotas.** -/
theorem statistics_spec :
    let stats := p.statistics
    stats.total = size ∧
      stats.free + stats.allocated + stats.resetting + stats.faulty + stats.maintenance =
        stats.total ∧
      (∀ tenants : List Tenant, tenants.Nodup →
        (∀ tenant, 0 < (p.quota tenant).allocated → tenant ∈ tenants) →
          (tenants.map fun tenant => (p.quota tenant).allocated).sum = stats.allocated) ∧
      stats.tenantsWithAllocations = p.owners.dedup.length := by
  refine ⟨?_, sum_counts p, fun tenants hd hall => ?_, countP_quotas h⟩
  · show p.qubits.length = size
    rw [← List.length_map Qubit.id, h.ids, List.length_map, List.length_range]
  · have hcount : (fun tenant => (p.quota tenant).allocated) = p.owners.count :=
      funext fun tenant => (count_owners h tenant).symm
    rw [hcount, sum_count hd fun tenant ht => hall tenant ((mem_owners h).1 ht)]
    exact length_owners h

/-! ## Subtractions from quotas -/

/-- A deallocation takes from the quota as many qubits as it gives back. -/
theorem deallocate_exact {now : Timestamp} {tenant : Tenant} {qubits taken : List QubitId}
    {reset : Bool} {after : Pool}
    (hok : p.deallocate now tenant qubits reset = (.ok taken, after)) :
    (p.quota tenant).allocated = (after.quota tenant).allocated + taken.length := by
  obtain ⟨e, he⟩ | ⟨ids, ho, he⟩ := deallocate_cases h now tenant qubits reset
  · rw [he] at hok
    cases hok
  · rw [he] at hok
    cases hok
    rw [quota_log]
    exact h.quota_taken ho

theorem releaseTenant_exact {now : Timestamp} {tenant : Tenant} {taken : List QubitId}
    {after : Pool} (hok : p.releaseTenant now tenant = (.ok taken, after)) :
    (p.quota tenant).allocated = (after.quota tenant).allocated + taken.length := by
  unfold releaseTenant at hok
  dsimp only at hok
  split at hok
  · cases hok
    rfl
  · exact deallocate_exact h hok

/-- An eviction takes one qubit from the quota of the owner. -/
theorem takeOffline_exact {now : Timestamp} {id : QubitId} {target : QubitState} {owner : Tenant}
    {after : Pool} (hok : p.takeOffline now id target = (.ok (some owner), after)) :
    (p.quota owner).allocated = (after.quota owner).allocated + 1 := by
  obtain ⟨e, he⟩ | ⟨source, ho, -, he⟩ := takeOffline_cases h now id target
  · rw [he] at hok
    cases hok
  · rw [he] at hok
    cases hok
    rw [quota_log]
    exact h.quota_taken ho

end

/-- **Qubits, quotas and counts agree in every state that a run leads to.** The pool has exactly the
identifiers below its size, only allocated qubits have an owner, every quota counts what its tenant
holds and is not exceeded, the reported counts are right, and no subtraction from a quota is cut
off. -/
theorem reachable_consistent (config : PoolConfig) (calls : List (Timestamp × Call)) :
    let p := (run config calls).state
    let stats := p.statistics
    (∀ id, (p.find? id).isSome ↔ id.index < config.poolSize.toNat) ∧
      (p.qubits.map Qubit.id = (List.range config.poolSize.toNat).map QubitId.mk) ∧
      (∀ q ∈ p.qubits, (q.owner.isSome ↔ q.state = .allocated) ∧
        (q.allocatedAt.isSome ↔ q.state = .allocated)) ∧
      (∀ tenant, (p.quota tenant).allocated =
          p.qubits.countP (fun q => q.state = .allocated ∧ q.owner = some tenant) ∧
        (p.quota tenant).allocated ≤ (p.quota tenant).maxQubits) ∧
      (stats.total = config.poolSize.toNat ∧
        stats.free + stats.allocated + stats.resetting + stats.faulty + stats.maintenance =
          stats.total ∧
        (∀ tenants : List Tenant, tenants.Nodup →
          (∀ tenant, 0 < (p.quota tenant).allocated → tenant ∈ tenants) →
            (tenants.map fun tenant => (p.quota tenant).allocated).sum = stats.allocated) ∧
        stats.tenantsWithAllocations = p.owners.dedup.length) ∧
      (∀ now tenant taken after,
        ((∃ qubits reset, p.deallocate now tenant qubits reset = (.ok taken, after)) ∨
            p.releaseTenant now tenant = (.ok taken, after) →
          (p.quota tenant).allocated = (after.quota tenant).allocated + taken.length)) ∧
      ∀ now id target owner after, p.takeOffline now id target = (.ok (some owner), after) →
        (p.quota owner).allocated = (after.quota owner).allocated + 1 := by
  intro p stats
  have h : WellFormed config.poolSize.toNat p := wellFormed_run config calls
  refine ⟨fun id => ?_, h.ids, fun q hq => ⟨(h.marked q hq).owner, (h.marked q hq).allocatedAt⟩,
    fun tenant => ⟨?_, h.limited tenant⟩, statistics_spec h, ?_, ?_⟩
  · have hids : (p.find? id).isSome ↔ id ∈ p.qubits.map Qubit.id := by
      rw [find?, List.find?_isSome, List.mem_map]
      simp only [decide_eq_true_eq]
    rw [hids, h.ids, List.mem_map]
    refine ⟨?_, ?_⟩
    · rintro ⟨i, hi, rfl⟩
      exact List.mem_range.1 hi
    · intro hlt
      exact ⟨id.index, List.mem_range.2 hlt, rfl⟩
  · rw [h.counted, holdings]
    refine List.countP_congr fun q _ => ?_
    simp [Qubit.isOwnedBy]
  · rintro now tenant taken after (⟨qubits, reset, hok⟩ | hok)
    · exact deallocate_exact h hok
    · exact releaseTenant_exact h hok
  · intro now id target owner after hok
    exact takeOffline_exact h hok

end QubitWarden.Pool
