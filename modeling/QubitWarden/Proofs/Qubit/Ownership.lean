import QubitWarden.Proofs.Qubit.Allocator

/-!
# Replaying ownership

Some events of the allocator move qubits from one owner to another. Replayed in order, they give the
owner of every qubit.

* `Transfer`: qubits with who loses and who gets them; `replay` carries transfers out.
* `Traced`: the transfers of a history lead to the owners in the pool, and each takes its qubits
  from the owner to whom the earlier ones lead.
* `traced_run`, `transfers_run`: this holds after every run of the pool, and the allocator reports
  exactly these transfers.
* `WellFormed.tenantQubits_eq`: the owners tell what each tenant holds.
-/

namespace QubitWarden

/-- Who owns which qubit. -/
abbrev Ownership := QubitId → Option Tenant

/-- Qubits that go from one owner, or none, to another. -/
structure Transfer where
  qubits : List QubitId
  source : Option Tenant
  target : Option Tenant
  deriving DecidableEq

namespace Ownership

/-- The owners after a transfer. -/
def after (owners : Ownership) (t : Transfer) : Ownership :=
  fun id => if id ∈ t.qubits then t.target else owners id

/-- The owners after some transfers, when nothing had an owner before. -/
def replay (transfers : List Transfer) : Ownership := transfers.foldl after fun _ => none

theorem replay_concat (transfers : List Transfer) (t : Transfer) :
    replay (transfers ++ [t]) = (replay transfers).after t := List.foldl_concat ..

/-- What a tenant holds of the qubits below a number, in ascending order. -/
def held (owners : Ownership) (size : Nat) (tenant : Tenant) : List QubitId :=
  ((List.range size).map QubitId.mk).filter fun id => owners id = some tenant

end Ownership

/-- The change of owners that an event reports. -/
def AllocationEvent.transfer? : AllocationEvent → Option Transfer
  | .allocated tenant qubits => some ⟨qubits, none, some tenant⟩
  | .deallocated tenant qubits _ => some ⟨qubits, some tenant, none⟩
  | .takenOffline qubit _ evicted => some ⟨[qubit], evicted, none⟩
  | .denied _ _ _ | .ownershipViolation _ _ _ | .restored _ => none

/-- The owners to which reported events lead. -/
def AllocationEvent.replay (events : List AllocationEvent) : Ownership :=
  .replay (events.filterMap transfer?)

/-- The change of owners that a fact says. -/
def QubitFact.transfer? : QubitFact → Option Transfer
  | .given tenant ids => some ⟨ids, none, some tenant⟩
  | .released tenant ids _ => some ⟨ids, some tenant, none⟩
  | .withdrawn id _ owner => some ⟨[id], owner, none⟩
  | .purged _ | .restored _ => none

theorem QubitFact.transfer?_cases (fact : QubitFact) :
    fact.transfer? = some ⟨fact.ids, fact.source, fact.target⟩ ∨
      fact.transfer? = none ∧ fact.source = none ∧ fact.target = none := by
  cases fact with
  | given | released | withdrawn => exact .inl rfl
  | purged | restored => exact .inr ⟨rfl, rfl, rfl⟩

/-! ## The pool -/

namespace Pool

variable {p after : Pool} {now : Timestamp} {told h : QubitHistory} {fact : QubitFact}

/-- The owner of a qubit. -/
def owner? (p : Pool) : Ownership := fun id => (p.find? id).bind Qubit.owner

theorem Happened.source_eq (hh : Happened p now fact after) {id : QubitId} (hid : id ∈ fact.ids) :
    p.owner? id = fact.source := by
  obtain ⟨q, hf, hsource, -⟩ := hh.find?_of_mem hid
  rw [owner?, hf]
  exact hsource

theorem Happened.owner?_eq (hh : Happened p now fact after) :
    after.owner? = p.owner?.after ⟨fact.ids, fact.source, fact.target⟩ := by
  funext id
  by_cases hid : id ∈ fact.ids
  · obtain ⟨q, -, -, -, hf, htarget⟩ := hh.find?_of_mem hid
    rw [owner?, hf, Ownership.after, if_pos hid]
    exact htarget
  · rw [owner?, hh.find?_of_not_mem hid, Ownership.after, if_neg hid]
    rfl

/-- A fact that leaves its qubits with the owner that they had changes no owner. -/
theorem Happened.owner?_eq_self (hh : Happened p now fact after)
    (hsame : fact.source = fact.target) : after.owner? = p.owner? := by
  rw [hh.owner?_eq]
  funext id
  unfold Ownership.after
  split
  next hid => exact ((hh.source_eq hid).trans hsame).symm
  next => rfl

/-- The transfers that were told lead to the owners in the pool, and each of them starts from the
owners to which those before it lead. -/
structure Traced (h : QubitHistory) (p : Pool) : Prop where
  owners : .replay (h.filterMap QubitFact.transfer?) = p.owner?
  sources : ∀ before t rest, h.filterMap QubitFact.transfer? = before ++ t :: rest →
    ∀ id ∈ t.qubits, Ownership.replay before id = t.source

theorem Effect.traced (he : Effect p now told after) (ht : Traced h p) :
    Traced (h ++ told) after := by
  cases he with
  | none hqubits =>
    have hsame : after.owner? = p.owner? := by
      funext id
      rw [owner?, find?_congr hqubits]
      rfl
    rw [List.append_nil]
    exact ⟨ht.owners.trans hsame.symm, ht.sources⟩
  | @told fact _ hh =>
    rcases fact.transfer?_cases with htransfer | ⟨htransfer, hsource, htarget⟩
    · have htransfers : (h ++ [fact]).filterMap QubitFact.transfer? =
          h.filterMap QubitFact.transfer? ++ [⟨fact.ids, fact.source, fact.target⟩] := by
        simp [htransfer]
      constructor
      · rw [htransfers, Ownership.replay_concat, ht.owners, hh.owner?_eq]
      · intro before t rest heq
        rw [htransfers] at heq
        rcases split_concat heq with ⟨-, rfl, rfl⟩ | ⟨earlier, -, hearlier⟩
        · intro id hid
          rw [ht.owners]
          exact hh.source_eq hid
        · exact ht.sources before t earlier hearlier
    · -- A purge or a restoration moves only qubits that nobody owns before and after.
      have htransfers : (h ++ [fact]).filterMap QubitFact.transfer? =
          h.filterMap QubitFact.transfer? := by simp [htransfer]
      have hsame : after.owner? = p.owner? := hh.owner?_eq_self (hsource.trans htarget.symm)
      constructor
      · rw [htransfers, ht.owners, hsame]
      · rw [htransfers]
        exact ht.sources

theorem traced_run (config : PoolConfig) (calls : List (Timestamp × Call)) :
    Traced (toldBy (run config calls).trace) (run config calls).state := by
  refine history_induction ⟨?_, ?_⟩ (fun _ he ht => he.traced ht) calls
  · funext id
    have hnone : ∀ q ∈ (new config).find? id, q.owner = none := by
      intro q hq
      obtain ⟨i, -, rfl⟩ := List.mem_map.1 (mem_of_find? hq).1
      rfl
    cases hf : (new config).find? id with
    | none => simp [owner?, hf, Ownership.replay]
    | some q => simp [owner?, hf, Ownership.replay, hnone q hf]
  · intro before t rest heq
    simp at heq

/-! ## What tenants hold -/

section
variable {size : Nat} (hp : WellFormed size p) (tenant : Tenant)
include hp

theorem WellFormed.tenantQubits_eq : p.owner?.held size tenant = p.tenantQubits tenant := by
  rw [Ownership.held, ← hp.ids, List.filter_map, tenantQubits]
  congr 1
  refine List.filter_congr fun q hq => ?_
  rw [(hp.marked q hq).isOwnedBy_eq, Function.comp_apply, owner?, find?_of_mem hp.distinct hq]
  rfl

theorem WellFormed.length_tenantQubits :
    (p.tenantQubits tenant).length = (p.quota tenant).allocated := by
  rw [hp.counted, holdings, List.countP_eq_length_filter, tenantQubits, List.length_map]

end

end Pool

/-! ## The allocator -/

namespace Allocator

/-- **A call reports the transfers that it makes**, and no others. -/
theorem transfers_step (p : Pool) (now : Timestamp) (call : Call) :
    (exchange step p now call).answer.events.filterMap AllocationEvent.transfer? =
      (facts (exchange step p now call)).filterMap QubitFact.transfer? := by
  cases call with
  | operate call =>
    rw [facts_operate]
    cases call with
    | allocate tenant count preferred =>
      simp only [exchange, step, operate, operated, allocate, Pool.facts, Pool.step, reply]
      rcases p.allocate now tenant count preferred with ⟨_ | _, _⟩ <;> rfl
    | deallocate tenant qubits reset =>
      simp only [exchange, step, operate, operated, deallocate, Pool.facts, Pool.step, reply]
      rcases p.deallocate now tenant qubits reset with ⟨e | _, _⟩
      · cases e <;> rfl
      · rfl
    | takeOffline id target =>
      simp only [exchange, step, operate, operated, takeOffline, Pool.facts, Pool.step, reply]
      rcases p.takeOffline now id target with ⟨_ | _, _⟩ <;> rfl
    | restore id =>
      simp only [exchange, step, operate, operated, restore, Pool.facts, Pool.step, reply]
      rcases p.restore id with ⟨_ | _, _⟩ <;> rfl
    | releaseTenant tenant =>
      simp only [exchange, step, operate, operated, releaseTenant, Pool.facts, Pool.step, reply]
      rcases p.releaseTenant now tenant with ⟨_ | released, _⟩
      · rfl
      · cases released <;> rfl
    | completeReset id =>
      simp only [exchange, step, operate, Pool.facts, Pool.step, reply]
      rcases p.completeReset id with ⟨_ | _, _⟩ <;> rfl
    | completeAllResets => rfl
    | setQuota tenant maxQubits => rfl
  | verifyAccess tenant qubit =>
    simp only [exchange, step, verifyAccess, facts]
    cases p.verifyAccess tenant qubit <;> rfl
  | requireAccess tenant qubit =>
    simp only [exchange, step, requireAccess, verifyAccess, facts]
    cases p.verifyAccess tenant qubit <;> rfl

theorem transfers_run (config : PoolConfig) (calls : List (Timestamp × Call)) :
    (events (run config calls).trace).filterMap AllocationEvent.transfer? =
      (toldBy (run config calls).trace).filterMap QubitFact.transfer? := by
  refine runFrom_induction (P := fun trace _ =>
    (events trace).filterMap AllocationEvent.transfer? =
      (toldBy trace).filterMap QubitFact.transfer?) step rfl ?_ calls
  intro trace p now call ih
  simp only [events, toldBy, List.flatMap_append, List.filterMap_append, List.flatMap_cons,
    List.flatMap_nil, List.append_nil] at ih ⊢
  rw [ih, transfers_step]

theorem wellFormed_run (config : PoolConfig) (calls : List (Timestamp × Call)) :
    Pool.WellFormed config.poolSize.toNat (run config calls).state := by
  rw [← (run_pool config calls).1]
  exact Pool.wellFormed_run config _

/-- **The reported transfers lead to the owners in the pool.** -/
theorem traced_run (config : PoolConfig) (calls : List (Timestamp × Call)) :
    Pool.Traced (toldBy (run config calls).trace) (run config calls).state := by
  obtain ⟨hstate, htold⟩ := run_pool config calls
  rw [← htold, ← hstate]
  exact Pool.traced_run config _

end Allocator

end QubitWarden
