import QubitWarden.Proofs.Qubit.Transitions

/-!
# The invariant of the pool

Qubits and quotas are changed apart from each other, so what has to agree is said once.

* `WellFormed`: identifiers in order, owners exactly on allocated qubits, and for every tenant a
  quota that counts what the tenant holds and is not exceeded.
* `Handover`: listed qubits change hands; `WellFormed.handover` says which quotas keep the
  invariant.
* `WellFormed.given`, `WellFormed.taken`, `WellFormed.moved`: the ways in which qubits change hands.
-/

namespace QubitWarden

/-- Owner and time are there exactly when the qubit is allocated. -/
structure Qubit.Marked (q : Qubit) : Prop where
  owner : q.owner.isSome ↔ q.state = .allocated
  allocatedAt : q.allocatedAt.isSome ↔ q.state = .allocated

namespace Qubit

variable {q : Qubit}

theorem Marked.isOwnedBy_eq (hm : q.Marked) (tenant : Tenant) :
    q.isOwnedBy tenant = decide (q.owner = some tenant) := by
  unfold isOwnedBy
  by_cases ho : q.owner = some tenant
  · have hs : q.state = .allocated := hm.owner.1 (by rw [ho]; rfl)
    simp [ho, hs]
  · simp [ho]

theorem Marked.none_of_ne (hm : q.Marked) (hs : q.state ≠ .allocated) :
    q.owner = none ∧ q.allocatedAt = none := by
  refine ⟨?_, ?_⟩
  · exact Option.not_isSome_iff_eq_none.1 fun h => hs (hm.owner.1 h)
  · exact Option.not_isSome_iff_eq_none.1 fun h => hs (hm.allocatedAt.1 h)

theorem marked_clear {target : QubitState} (ht : target ≠ .allocated) :
    (q.clear target).Marked := by
  refine ⟨?_, ?_⟩ <;> simp [clear, ht]

/-- The qubit given to a tenant. -/
def given (tenant : Tenant) (now : Timestamp) (q : Qubit) : Qubit :=
  { q with state := .allocated, owner := some tenant, allocatedAt := some now }

theorem marked_given (tenant : Tenant) (now : Timestamp) (q : Qubit) :
    (q.given tenant now).Marked := by
  refine ⟨?_, ?_⟩ <;> simp [given]

/-- The qubit in the free state, its owner left as it is. -/
def freed (q : Qubit) : Qubit := { q with state := .free }

theorem Marked.freed (hm : q.Marked) (hs : q.state ≠ .allocated) : q.freed.Marked := by
  obtain ⟨ho, ha⟩ := hm.none_of_ne hs
  refine ⟨?_, ?_⟩ <;> simp [Qubit.freed, ho, ha]

end Qubit

namespace Pool

variable {p after : Pool} {ids : List QubitId} {change : Qubit → Qubit}
  {source target : Option Tenant} {now : Timestamp} {tenant : Tenant} {size : Nat}

/-- The parts of the pool agree with each other. -/
structure WellFormed (size : Nat) (p : Pool) : Prop where
  ids : p.qubits.map Qubit.id = (List.range size).map QubitId.mk
  marked : ∀ q ∈ p.qubits, q.Marked
  tenants : (p.quotas.map Quota.tenant).Nodup
  counted : ∀ tenant, (p.quota tenant).allocated = p.holdings tenant
  limited : ∀ tenant, (p.quota tenant).allocated ≤ (p.quota tenant).maxQubits

theorem WellFormed.distinct (h : WellFormed size p) : p.Distinct := by
  rw [Distinct, h.ids]
  exact List.nodup_range.map fun a b he => QubitId.mk.inj he

theorem wellFormed_new (config : PoolConfig) : WellFormed config.poolSize.toNat (new config) where
  ids := by simp [new, List.map_map, Function.comp_def, Qubit.new]
  marked q hq := by
    obtain ⟨i, -, rfl⟩ := List.mem_map.1 hq
    refine ⟨?_, ?_⟩ <;> simp [Qubit.new]
  tenants := List.nodup_nil
  counted tenant := by
    refine (List.countP_eq_zero.2 fun q hq => ?_).symm
    obtain ⟨i, -, rfl⟩ := List.mem_map.1 hq
    simp [Qubit.isOwnedBy, Qubit.new]
  limited _ := Nat.zero_le _

theorem WellFormed.log (h : WellFormed size p) (tenant : Tenant) (ids : List QubitId)
    (action : AllocationAction) (now : Timestamp) : WellFormed size (p.log tenant ids action now) :=
  ⟨h.ids, h.marked, h.tenants, h.counted, h.limited⟩

/-! ## Changing hands -/

/-- A change of listed qubits that takes all of them from one owner, or none, to another. -/
structure Handover (p : Pool) (ids : List QubitId) (change : Qubit → Qubit)
    (source target : Option Tenant) : Prop where
  nodup : ids.Nodup
  known : ∀ id ∈ ids, id ∈ p.qubits.map Qubit.id
  id : ∀ q, (change q).id = q.id
  marked : ∀ q ∈ p.qubits, q.id ∈ ids → (change q).Marked
  source : ∀ q ∈ p.qubits, q.id ∈ ids → q.owner = source
  target : ∀ q ∈ p.qubits, q.id ∈ ids → (change q).owner = target

theorem WellFormed.balance (h : WellFormed size p) (ho : Handover p ids change source target)
    (tenant : Tenant) :
    (p.update ids change).holdings tenant + (if source = some tenant then ids.length else 0) =
      p.holdings tenant + (if target = some tenant then ids.length else 0) := by
  have hbalance := holdings_update change h.distinct ho.nodup ho.known tenant
    (decide (source = some tenant)) (decide (target = some tenant)) fun q hq hmem => by
      rw [(h.marked q hq).isOwnedBy_eq, (ho.marked q hq hmem).isOwnedBy_eq, ho.source q hq hmem,
        ho.target q hq hmem]
      exact ⟨rfl, rfl⟩
  simp only [decide_eq_true_eq] at hbalance
  exact hbalance

/-- **Qubits that change hands keep the invariant**, with quotas that follow them. -/
theorem WellFormed.handover (h : WellFormed size p) (ho : Handover p ids change source target)
    (hqubits : after.qubits = (p.update ids change).qubits)
    (htenants : (after.quotas.map Quota.tenant).Nodup)
    (hquota : ∀ tenant,
      (after.quota tenant).allocated + (if source = some tenant then ids.length else 0) =
        (p.quota tenant).allocated + (if target = some tenant then ids.length else 0))
    (hlimit : ∀ tenant, (after.quota tenant).allocated ≤ (after.quota tenant).maxQubits) :
    WellFormed size after where
  ids := by rw [hqubits, map_id_update ho.id, h.ids]
  marked r hr := by
    rw [hqubits] at hr
    obtain ⟨q, hq, rfl⟩ := mem_update.1 hr
    split
    next hmem => exact ho.marked q hq hmem
    next => exact h.marked q hq
  tenants := htenants
  counted tenant := by
    have hholdings : after.holdings tenant = (p.update ids change).holdings tenant := by
      rw [holdings, hqubits, holdings]
    have := h.balance ho tenant
    have := hquota tenant
    have := h.counted tenant
    omega
  limited := hlimit

/-- The same with one quota changed. -/
theorem WellFormed.exchange (h : WellFormed size p) (ho : Handover p ids change source target)
    {f : Quota → Quota} (hf : (f (p.quota tenant)).tenant = tenant)
    (hsource : ∀ other, source = some other → other = tenant)
    (htarget : ∀ other, target = some other → other = tenant)
    (hquota : (f (p.quota tenant)).allocated + (if source = some tenant then ids.length else 0) =
      (p.quota tenant).allocated + (if target = some tenant then ids.length else 0))
    (hlimit : (f (p.quota tenant)).allocated ≤ (f (p.quota tenant)).maxQubits) :
    WellFormed size ((p.update ids change).modifyQuota tenant f) := by
  have hafter (other : Tenant) : ((p.update ids change).modifyQuota tenant f).quota other =
      if tenant = other then f (p.quota tenant) else p.quota other :=
    quota_modifyQuota (p := p.update ids change) hf other
  refine h.handover ho rfl (nodup_putQuota h.tenants) (fun other => ?_) (fun other => ?_)
  · rw [hafter]
    by_cases ht : tenant = other
    · subst ht
      rw [if_pos rfl]
      exact hquota
    · rw [if_neg ht, if_neg fun hs => ht (hsource other hs).symm,
        if_neg fun hs => ht (htarget other hs).symm]
  · rw [hafter]
    split
    · exact hlimit
    · exact h.limited other

theorem WellFormed.given (h : WellFormed size p) (ho : Handover p ids change none (some tenant))
    (hroom : (p.quota tenant).allocated + ids.length ≤ (p.quota tenant).maxQubits) :
    WellFormed size ((p.update ids change).modifyQuota tenant
      fun q => { q with allocated := q.allocated + ids.length }) :=
  h.exchange ho (quota_tenant p tenant) (fun _ hs => by cases hs)
    (fun _ ht => (Option.some.inj ht).symm) (by simp) hroom

/-- What is taken from a tenant is no more than its quota counts. -/
theorem WellFormed.length_le (h : WellFormed size p)
    (ho : Handover p ids change (some tenant) none) :
    ids.length ≤ (p.quota tenant).allocated := by
  have hbalance := h.balance ho tenant
  rw [if_pos rfl, if_neg (by simp)] at hbalance
  rw [h.counted]
  omega

theorem WellFormed.taken (h : WellFormed size p) (ho : Handover p ids change (some tenant) none) :
    WellFormed size ((p.update ids change).modifyQuota tenant
      fun q => { q with allocated := q.allocated - ids.length }) := by
  have hle := h.length_le ho
  refine h.exchange ho (quota_tenant p tenant) (fun _ hs => (Option.some.inj hs).symm)
    (fun _ ht => by cases ht) ?_ (Nat.le_trans (Nat.sub_le _ _) (h.limited tenant))
  rw [if_pos rfl, if_neg (by simp)]
  exact Nat.sub_add_cancel hle

/-- The subtraction from the quota is exact. -/
theorem WellFormed.quota_taken (h : WellFormed size p)
    (ho : Handover p ids change (some tenant) none) :
    (p.quota tenant).allocated = (((p.update ids change).modifyQuota tenant
      fun q => { q with allocated := q.allocated - ids.length }).quota tenant).allocated +
        ids.length := by
  have hquota := quota_modifyQuota (p := p.update ids change)
    (f := fun q => { q with allocated := q.allocated - ids.length }) (quota_tenant _ tenant) tenant
  rw [hquota, if_pos rfl]
  exact (Nat.sub_add_cancel (h.length_le ho)).symm

theorem WellFormed.moved (h : WellFormed size p) (ho : Handover p ids change none none) :
    WellFormed size (p.update ids change) :=
  h.handover ho rfl h.tenants (fun _ => rfl) h.limited

/-- A quota that still counts the same is changed alone. -/
theorem WellFormed.modifyQuota (h : WellFormed size p) {f : Quota → Quota}
    (hf : (f (p.quota tenant)).tenant = tenant)
    (hquota : (f (p.quota tenant)).allocated = (p.quota tenant).allocated)
    (hlimit : (f (p.quota tenant)).allocated ≤ (f (p.quota tenant)).maxQubits) :
    WellFormed size (p.modifyQuota tenant f) := by
  have ho : Handover p [] (fun q => q) none none := by constructor <;> simp
  have hsame : p.update [] (fun q => q) = p := by simp [update]
  have := h.exchange ho hf (fun _ hs => by cases hs) (fun _ ht => by cases ht) hquota hlimit
  rwa [hsame] at this

end Pool

end QubitWarden
