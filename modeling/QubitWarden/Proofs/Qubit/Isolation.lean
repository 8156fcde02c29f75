import QubitWarden.Proofs.Qubit.Refusal

/-!
# Tenants apart from each other

What a tenant sees of the pool is what it holds and its quota. Nobody else changes this, and what
the tenant is told depends on nothing else.

* `Pool.view`: what a tenant holds, since when, and its quota.
* `view_step`: operations that do not concern a tenant leave its view alone.
* `TenantView.step`: what a tenant can do to its view, a machine that knows nothing of the pool.
  `ownStep_view` says that the pool, seen by the tenant, is this machine.
* `tenants_isolated`: both together, for pools that agree in one view and in nothing else.
-/

namespace QubitWarden

/-- What a tenant sees: its qubits in ascending order, each with the time when it got it, and its
quota. -/
structure TenantView where
  held : List (QubitId × Option Timestamp)
  quota : Quota
  deriving DecidableEq

/-- The items of a changed list that pass a test are those that were left alone. -/
theorem filter_map_eq {α : Type} {test kept : α → Bool} {change : α → α} {l : List α}
    (hkept : ∀ a ∈ l, kept a = true → change a = a ∧ test a = true)
    (hgone : ∀ a ∈ l, kept a = false → test (change a) = false) :
    (l.map change).filter test = l.filter kept := by
  induction l with
  | nil => rfl
  | cons a rest ih =>
    have hrest := ih (fun b hb => hkept b (List.mem_cons_of_mem _ hb))
      fun b hb => hgone b (List.mem_cons_of_mem _ hb)
    cases hk : kept a with
    | true =>
      obtain ⟨hsame, htest⟩ := hkept a List.mem_cons_self hk
      simp [hsame, htest, hk, hrest]
    | false => simp [hgone a List.mem_cons_self hk, hk, hrest]

namespace Pool

/-- What a tenant sees of the pool. -/
def view (p : Pool) (tenant : Tenant) : TenantView where
  held := (p.qubits.filter fun q => q.isOwnedBy tenant).map fun q => (q.id, q.allocatedAt)
  quota := p.quota tenant

variable {size : Nat} {p : Pool} {now : Timestamp} {tenant other : Tenant} {ids : List QubitId}
  {change : Qubit → Qubit} {source target : Option Tenant} {f : Quota → Quota}

/-! ## Changes that do not concern a tenant -/

theorem view_update (h : WellFormed size p) (ho : Handover p ids change source target)
    (hsource : source ≠ some tenant) (htarget : target ≠ some tenant) :
    (p.update ids change).view tenant = p.view tenant := by
  have hheld : (p.update ids change).qubits.filter (fun q => q.isOwnedBy tenant) =
      p.qubits.filter fun q => q.isOwnedBy tenant := by
    refine filter_map_eq (fun q hq howned => ?_) fun q hq hforeign => ?_
    · -- A qubit of the tenant is not listed, as the listed ones come from somebody else.
      rw [(h.marked q hq).isOwnedBy_eq, decide_eq_true_eq] at howned
      have hnot : q.id ∉ ids := fun hmem => hsource (ho.source q hq hmem ▸ howned)
      rw [if_neg hnot, (h.marked q hq).isOwnedBy_eq]
      exact ⟨rfl, decide_eq_true howned⟩
    · split
      next hmem =>
        rw [(ho.marked q hq hmem).isOwnedBy_eq, ho.target q hq hmem]
        exact decide_eq_false htarget
      next => exact hforeign
  rw [view, hheld]
  rfl

theorem view_modifyQuota (hf : (f (p.quota other)).tenant = other) (hne : other ≠ tenant) :
    (p.modifyQuota other f).view tenant = p.view tenant := by
  rw [view, quota_modifyQuota hf, if_neg hne]
  rfl

theorem view_log (p : Pool) (logged : Tenant) (ids : List QubitId) (action : AllocationAction) :
    (p.log logged ids action now).view tenant = p.view tenant := rfl

theorem source_of_denied (h : WellFormed size p) {id : QubitId}
    (ho : Handover p [id] change source target) (hdenied : p.verifyAccess tenant id = false) :
    source ≠ some tenant := by
  rintro rfl
  obtain ⟨q, hq, rfl⟩ := List.mem_map.1 (ho.known id List.mem_cons_self)
  have howner : q.owner = some tenant := ho.source q hq List.mem_cons_self
  have hgranted : p.verifyAccess tenant q.id = true := by
    refine verifyAccess_iff.2 ⟨q, find?_of_mem h.distinct hq, ?_⟩
    rw [(h.marked q hq).isOwnedBy_eq]
    exact decide_eq_true howner
  rw [hgranted] at hdenied
  cases hdenied

/-- An operation that does not concern a tenant: one for another tenant, or one on qubits that the
tenant does not own. -/
def Foreign (p : Pool) (tenant : Tenant) : Call → Prop
  | .allocate other _ _ | .deallocate other _ _ | .setQuota other _ | .releaseTenant other =>
    other ≠ tenant
  | .takeOffline id _ => p.verifyAccess tenant id = false
  | .completeReset _ | .completeAllResets | .restore _ => True

theorem view_deallocate (h : WellFormed size p) (hne : other ≠ tenant) (qubits : List QubitId)
    (reset : Bool) :
    (p.deallocate now other qubits reset).2.view tenant = p.view tenant := by
  obtain ⟨e, he⟩ | ⟨taken, ho, he⟩ := deallocate_cases h now other qubits reset <;> rw [he]
  rw [view_log, view_modifyQuota (quota_tenant _ other) hne]
  exact view_update h ho (by simpa using hne) (by simp)

/-- **Operations that do not concern a tenant leave its view alone.** -/
theorem view_step (h : WellFormed size p) (now : Timestamp) {call : Call}
    (hforeign : Foreign p tenant call) : (step p now call).2.view tenant = p.view tenant := by
  cases call with
  | allocate other count preferred =>
    have hne : other ≠ tenant := hforeign
    obtain ⟨e, he⟩ | ⟨selected, ho, -, -, he⟩ := allocate_cases h now other count preferred <;>
      simp only [step, reply, he]
    rw [view_log, view_modifyQuota (quota_tenant _ other) hne]
    exact view_update h ho (by simp) (by simpa using hne)
  | deallocate other qubits reset => exact view_deallocate h hforeign qubits reset
  | completeReset id =>
    obtain ⟨e, he⟩ | ⟨ho, -, he⟩ := completeReset_cases h id <;> simp only [step, reply, he]
    exact view_update h ho (by simp) (by simp)
  | completeAllResets =>
    obtain ⟨pending, ho, -, he⟩ := completeAllResets_eq h
    simp only [step, reply, he]
    exact view_update h ho (by simp) (by simp)
  | takeOffline id target =>
    obtain ⟨e, he⟩ | ⟨source, ho, -, he⟩ := takeOffline_cases h now id target <;>
      simp only [step, reply, he]
    have hsource := source_of_denied h ho hforeign
    cases source with
    | none => exact view_update h ho hsource (by simp)
    | some owner =>
      have hne : owner ≠ tenant := fun heq => hsource (congrArg some heq)
      dsimp only
      rw [view_log, view_modifyQuota (quota_tenant _ owner) hne]
      exact view_update h ho hsource (by simp)
  | restore id =>
    obtain ⟨e, he⟩ | ⟨ho, -, he⟩ := restore_cases h id <;> simp only [step, reply, he]
    exact view_update h ho (by simp) (by simp)
  | setQuota other maxQubits =>
    have hne : other ≠ tenant := hforeign
    simp only [step, reply, setQuota_eq]
    split
    · rfl
    · rw [view_modifyQuota (quota_tenant _ other) hne, view_modifyQuota (quota_tenant _ other) hne]
  | releaseTenant other =>
    simp only [step, reply, releaseTenant]
    split
    · rfl
    · exact view_deallocate h hforeign _ true

end Pool

/-! ## A tenant on its own -/

/-- What a tenant asks about itself, and what it has done to its qubits and its quota. -/
inductive OwnCall where
  | verifyAccess (id : QubitId)
  | tenantQubits
  | quota
  | deallocate (qubits : List QubitId) (reset : Bool)
  | releaseTenant
  | setQuota (maxQubits : Nat)

inductive OwnAnswer where
  | access (granted : Bool)
  | qubits (result : Except AllocationError (List QubitId))
  | quota (result : Except AllocationError Quota)

namespace TenantView

/-- The qubits held, in ascending order. -/
def ids (v : TenantView) : List QubitId := v.held.map Prod.fst

def deallocate (v : TenantView) (qubits : List QubitId) :
    Except AllocationError (List QubitId) × TenantView :=
  let taken := QubitId.ascending qubits
  let foreign := taken.filter fun id => id ∉ v.ids
  if taken = [] then (.error (.invalidRequest .nothingToDeallocate), v)
  else if foreign ≠ [] then (.error (.notOwned v.quota.tenant foreign), v)
  else
    (.ok taken, {
      held := v.held.filter fun entry => entry.1 ∉ taken
      quota := { v.quota with allocated := v.quota.allocated - taken.length } })

def releaseTenant (v : TenantView) : Except AllocationError (List QubitId) × TenantView :=
  if v.ids = [] then (.ok [], v) else v.deallocate v.ids

def setQuota (v : TenantView) (maxQubits : Nat) : Except AllocationError Quota × TenantView :=
  if maxQubits < v.quota.allocated then
    (.error (.invalidRequest (.quotaBelowHoldings maxQubits v.quota.allocated)), v)
  else (.ok { v.quota with maxQubits }, { v with quota := { v.quota with maxQubits } })

/-- The answer to a call, and the view afterwards. -/
def step (v : TenantView) : OwnCall → OwnAnswer × TenantView
  | .verifyAccess id => (.access (id ∈ v.ids), v)
  | .tenantQubits => (.qubits (.ok v.ids), v)
  | .quota => (.quota (.ok v.quota), v)
  | .deallocate qubits _ => reply .qubits (v.deallocate qubits)
  | .releaseTenant => reply .qubits v.releaseTenant
  | .setQuota maxQubits => reply .quota (v.setQuota maxQubits)

/-- The answers to some calls, and the view after them. -/
def run (v : TenantView) : List OwnCall → List OwnAnswer × TenantView
  | [] => ([], v)
  | call :: rest =>
    let after := (v.step call).2.run rest
    ((v.step call).1 :: after.1, after.2)

end TenantView

namespace Pool

/-- The answer of the pool to a tenant, and the pool afterwards. -/
def ownStep (tenant : Tenant) (p : Pool) (now : Timestamp) : OwnCall → OwnAnswer × Pool
  | .verifyAccess id => (.access (p.verifyAccess tenant id), p)
  | .tenantQubits => (.qubits (.ok (p.tenantQubits tenant)), p)
  | .quota => (.quota (.ok (p.quota tenant)), p)
  | .deallocate qubits reset => reply .qubits (p.deallocate now tenant qubits reset)
  | .releaseTenant => reply .qubits (p.releaseTenant now tenant)
  | .setQuota maxQubits => reply .quota (p.setQuota tenant maxQubits)

variable {size : Nat} {p : Pool} {now : Timestamp} {tenant : Tenant}

theorem wellFormed_ownStep (h : WellFormed size p) (now : Timestamp) (call : OwnCall) :
    WellFormed size (ownStep tenant p now call).2 := by
  cases call with
  | verifyAccess | tenantQubits | quota => exact h
  | deallocate qubits reset => exact wellFormed_deallocate h qubits reset
  | releaseTenant => exact wellFormed_releaseTenant h
  | setQuota maxQubits => exact wellFormed_setQuota h tenant maxQubits

/-! ## The pool as a tenant sees it -/

theorem ids_view (p : Pool) (tenant : Tenant) : (p.view tenant).ids = p.tenantQubits tenant := by
  simp [TenantView.ids, view, tenantQubits]

theorem verifyAccess_eq (h : WellFormed size p) (id : QubitId) :
    p.verifyAccess tenant id = decide (id ∈ (p.view tenant).ids) := by
  rw [ids_view, Bool.eq_iff_iff, decide_eq_true_eq]
  refine ⟨fun hgranted => ?_, verifyAccess_of_held h⟩
  obtain ⟨q, hf, howned⟩ := verifyAccess_iff.1 hgranted
  obtain ⟨hq, rfl⟩ := mem_of_find? hf
  exact List.mem_map_of_mem (List.mem_filter.2 ⟨hq, howned⟩)

theorem foreignTo_eq (h : WellFormed size p) (qubits : List QubitId) :
    p.foreignTo tenant qubits =
      (QubitId.ascending qubits).filter fun id => id ∉ (p.view tenant).ids := by
  simp only [foreignTo, verifyAccess_eq h, decide_not]

theorem view_released (ids : List QubitId) (reset : Bool) :
    (p.update ids (released reset)).view tenant =
      { p.view tenant with held := (p.view tenant).held.filter fun entry => entry.1 ∉ ids } := by
  have hkept : (p.update ids (released reset)).qubits.filter (fun q => q.isOwnedBy tenant) =
      p.qubits.filter fun q => decide (q.id ∉ ids) && q.isOwnedBy tenant := by
    refine filter_map_eq (fun q _ hkept => ?_) fun q _ hgone => ?_
    · simp only [Bool.and_eq_true, decide_eq_true_eq] at hkept
      exact ⟨if_neg hkept.1, hkept.2⟩
    · split
      next => cases reset <;> simp [released, Qubit.clear, Qubit.isOwnedBy]
      next hnot => simpa [hnot] using hgone
  simp only [view, hkept, List.filter_map, List.filter_filter]
  rfl

theorem view_modifyQuota_self {f : Quota → Quota} (hf : (f (p.quota tenant)).tenant = tenant) :
    (p.modifyQuota tenant f).view tenant = { p.view tenant with quota := f (p.quota tenant) } := by
  rw [view, quota_modifyQuota hf, if_pos rfl]
  rfl

/-- A result with what the tenant sees of the pool afterwards. -/
def seen {α : Type} (tenant : Tenant) (r : α × Pool) : α × TenantView := (r.1, r.2.view tenant)

theorem seen_deallocate (h : WellFormed size p) (qubits : List QubitId) (reset : Bool) :
    seen tenant (p.deallocate now tenant qubits reset) = (p.view tenant).deallocate qubits := by
  have htenant : (p.view tenant).quota.tenant = tenant := quota_tenant p tenant
  simp only [seen, deallocate_eq h, foreignTo_eq h, TenantView.deallocate, htenant]
  split
  · rfl
  split
  · rfl
  · rw [view_log, view_modifyQuota_self (quota_tenant _ tenant), view_released,
      quota_tenant]
    rfl

theorem seen_releaseTenant (h : WellFormed size p) :
    seen tenant (p.releaseTenant now tenant) = (p.view tenant).releaseTenant := by
  unfold releaseTenant TenantView.releaseTenant
  simp only [List.isEmpty_iff, ids_view]
  split
  · rfl
  · exact seen_deallocate h _ true

theorem seen_setQuota (p : Pool) (tenant : Tenant) (maxQubits : Nat) :
    seen tenant (p.setQuota tenant maxQubits) = (p.view tenant).setQuota maxQubits := by
  have hquota : (p.view tenant).quota = p.quota tenant := rfl
  simp only [seen, setQuota_eq, TenantView.setQuota, hquota]
  split
  · rfl
  · rw [view_modifyQuota_self (quota_tenant _ tenant), view_modifyQuota_self (quota_tenant _ tenant)]

/-- **The pool, as a tenant sees it, is the machine of its view.** -/
theorem ownStep_view (h : WellFormed size p) (now : Timestamp) (call : OwnCall) :
    seen tenant (ownStep tenant p now call) = (p.view tenant).step call := by
  cases call with
  | verifyAccess id => simp only [seen, ownStep, TenantView.step, verifyAccess_eq h]
  | tenantQubits => simp only [seen, ownStep, TenantView.step, ids_view]
  | quota => rfl
  | deallocate qubits reset => exact congrArg (reply _) (seen_deallocate h qubits reset)
  | releaseTenant => exact congrArg (reply _) (seen_releaseTenant h)
  | setQuota maxQubits => exact congrArg (reply _) (seen_setQuota p tenant maxQubits)

theorem ownRun_view (h : WellFormed size p) (tenant : Tenant)
    (asked : List (Timestamp × OwnCall)) :
    let r := runFrom (ownStep tenant) p asked
    (r.trace.map Exchange.answer, r.state.view tenant) =
      (p.view tenant).run (asked.map Prod.snd) := by
  induction asked generalizing p with
  | nil => rfl
  | cons c rest ih =>
    rw [List.map_cons, TenantView.run, ← ownStep_view h c.1 c.2]
    simp only [seen, ← ih (wellFormed_ownStep h c.1 c.2)]
    rfl

/-- **Tenants are isolated.** On every pool that a run leads to, operations that do not concern a
tenant leave alone which qubits it holds, since when, and its quota. On two such pools that agree in
this and may differ in everything else, whatever the tenant asks about itself, gives back or sets as
its quota has the same answers, errors included, and leaves the same view. A qubit that it does not
hold, be it unknown, free, out of service or of somebody else, is refused in one and the same
way. -/
theorem tenants_isolated (tenant : Tenant) (config : PoolConfig)
    (calls : List (Timestamp × Call)) :
    let p := (run config calls).state
    (∀ now call, Foreign p tenant call → (step p now call).2.view tenant = p.view tenant) ∧
      (∀ config' calls', let p' := (run config' calls').state
        p.view tenant = p'.view tenant →
          ∀ asked asked' : List (Timestamp × OwnCall),
            asked.map Prod.snd = asked'.map Prod.snd →
              let r := runFrom (ownStep tenant) p asked
              let r' := runFrom (ownStep tenant) p' asked'
              r.trace.map Exchange.answer = r'.trace.map Exchange.answer ∧
                r.state.view tenant = r'.state.view tenant) ∧
      ∀ id, id ∉ p.tenantQubits tenant →
        p.verifyAccess tenant id = false ∧
          ∀ now reset, p.deallocate now tenant [id] reset = (.error (.notOwned tenant [id]), p) := by
  intro p
  have h : WellFormed config.poolSize.toNat p := wellFormed_run config calls
  refine ⟨fun now call => view_step h now, fun config' calls' => ?_, fun id hid => ?_⟩
  · intro p' hview asked asked' hasked
    have h' : WellFormed config'.poolSize.toNat p' := wellFormed_run config' calls'
    have hrun := ownRun_view h tenant asked
    rw [hview, hasked, ← ownRun_view h' tenant asked'] at hrun
    exact Prod.mk.inj hrun
  · have hdenied : p.verifyAccess tenant id = false := by
      rw [verifyAccess_eq h, ids_view]
      exact decide_eq_false hid
    refine ⟨hdenied, fun now reset => ?_⟩
    rw [deallocate_eq h]
    simp [foreignTo, QubitId.ascending, QubitId.insertAscending, hdenied]

/-- The qubit `1` is unknown to the first pool and somebody else's in the second. -/
example :
    let p := (run { poolSize := 1 } []).state
    let p' := (run { poolSize := 2 } [(10, .allocate "neighbour" 2 [])]).state
    p.view "tenant" = p'.view "tenant" ∧ p.find? ⟨1⟩ = none ∧
      p'.verifyAccess "neighbour" ⟨1⟩ = true := by
  decide

end Pool

end QubitWarden
