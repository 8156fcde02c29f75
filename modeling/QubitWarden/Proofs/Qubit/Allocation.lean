import QubitWarden.Proofs.Qubit.Run

/-!
# What an allocation takes

Which qubits an allocation takes is said without its two passes over candidates: the preferred free
ones in the order in which they are named, and then the lowest free ones.

* `freeIds`, `picked`, `chosen`: the free qubits, those taken as preferred, and all that are taken.
* `select_eq`: a pass over candidates takes those that are free and not taken yet, each once.
* `selection_eq`: so an allocation takes what is chosen, in ascending order.
* `Settled`: listed qubits, one counter and the history are changed, and nothing else is.
* `allocations_exact`: when an allocation is granted, what it takes and what it leaves alone.
-/

namespace QubitWarden

namespace QubitId

variable {ids other : List QubitId}

theorem Ascending.eq_of_mem_iff (h : Ascending ids) (h' : Ascending other)
    (hmem : ∀ id, id ∈ ids ↔ id ∈ other) : ids = other := by
  have hperm : ids.Perm other := (List.perm_ext_iff_of_nodup h.nodup h'.nodup).2 hmem
  refine hperm.eq_of_pairwise (fun a b _ _ hab hba => ?_) h h'
  exact absurd hab (Nat.lt_asymm hba)

theorem ascending_cons (q : QubitId) (ids : List QubitId) :
    ascending (q :: ids) = insertAscending q (ascending ids) := rfl

theorem ascending_congr (hmem : ∀ id, id ∈ ids ↔ id ∈ other) : ascending ids = ascending other := by
  refine (ascending_ascending ids).eq_of_mem_iff (ascending_ascending other) fun id => ?_
  rw [mem_ascending, mem_ascending, hmem]

theorem length_ascending (h : ids.Nodup) : (ascending ids).length = ids.length := by
  have hnodup := (ascending_ascending ids).nodup
  exact ((List.perm_ext_iff_of_nodup hnodup h).2 fun _ => mem_ascending).length_eq

end QubitId

/-! ## Lists without repetition -/

theorem nodup_eraseDups {α : Type} [DecidableEq α] (l : List α) : l.eraseDups.Nodup := by
  cases l with
  | nil => exact List.nodup_nil
  | cons a rest =>
    rw [List.eraseDups_cons, List.nodup_cons]
    constructor
    · simp
    · exact nodup_eraseDups (rest.filter fun b => !b == a)
termination_by l.length
decreasing_by exact Nat.lt_succ_of_le (List.length_filter_le _ _)

theorem eraseDups_of_nodup {α : Type} [DecidableEq α] {l : List α} (h : l.Nodup) :
    l.eraseDups = l := by
  induction l with
  | nil => rfl
  | cons a rest ih =>
    obtain ⟨ha, hrest⟩ := List.nodup_cons.1 h
    have hkept : (rest.filter fun b => !b == a) = rest := by
      rw [List.filter_eq_self]
      rintro b hb
      have hne : b ≠ a := fun he => ha (he ▸ hb)
      simpa using hne
    rw [List.eraseDups_cons, hkept, ih hrest]

namespace Pool

variable {size : Nat} {p : Pool} {now : Timestamp} {tenant : Tenant}

/-! ## The choice -/

/-- The free qubits in ascending order. -/
def freeIds (p : Pool) : List QubitId := (p.qubits.filter fun q => q.state = .free).map Qubit.id

/-- The first `count` distinct free qubits in the order in which they are preferred. -/
def picked (p : Pool) (count : Nat) (preferred : List QubitId) : List QubitId :=
  (preferred.filter fun id => id ∈ p.freeIds).eraseDups.take count

/-- What is picked, completed by the lowest free qubits that are not. -/
def chosen (p : Pool) (count : Nat) (preferred : List QubitId) : List QubitId :=
  p.picked count preferred ++ (p.freeIds.filter fun id => id ∉ p.picked count preferred).take
    (count - (p.picked count preferred).length)

theorem length_freeIds (p : Pool) : p.freeIds.length = p.countIn .free := by
  rw [freeIds, List.length_map, countIn, List.countP_eq_length_filter]

theorem mem_freeIds (hd : p.Distinct) {id : QubitId} : id ∈ p.freeIds ↔ p.isFree id = true := by
  rw [isFree_iff, freeIds, List.mem_map]
  constructor
  · rintro ⟨q, hq, rfl⟩
    obtain ⟨hq, hfree⟩ := List.mem_filter.1 hq
    exact ⟨q, find?_of_mem hd hq, of_decide_eq_true hfree⟩
  · rintro ⟨q, hf, hfree⟩
    obtain ⟨hq, hid⟩ := mem_of_find? hf
    exact ⟨q, List.mem_filter.2 ⟨hq, decide_eq_true hfree⟩, hid⟩

theorem freeIds_eq_filter (hd : p.Distinct) :
    p.freeIds = (p.qubits.map Qubit.id).filter fun id => p.isFree id := by
  rw [freeIds, List.filter_map]
  refine congrArg (List.map Qubit.id) (List.filter_congr fun q hq => ?_)
  simp [isFree, find?_of_mem hd hq]

theorem nodup_freeIds (hd : p.Distinct) : p.freeIds.Nodup :=
  hd.sublist (List.filter_sublist.map _)

/-- The distinct free candidates that are not taken yet, in their order. -/
def fresh (p : Pool) (taken candidates : List QubitId) : List QubitId :=
  (candidates.filter fun id => p.isFree id ∧ id ∉ taken).eraseDups

theorem fresh_cons_of_not {taken : List QubitId} {id : QubitId}
    (h : ¬ (p.isFree id = true ∧ id ∉ taken)) (rest : List QubitId) :
    p.fresh taken (id :: rest) = p.fresh taken rest := by
  rw [fresh, List.filter_cons_of_neg (by simpa using h), fresh]

theorem fresh_cons {taken : List QubitId} {id : QubitId} (hfree : p.isFree id = true)
    (hnew : id ∉ taken) (rest : List QubitId) :
    p.fresh taken (id :: rest) = id :: p.fresh (taken ++ [id]) rest := by
  rw [fresh, List.filter_cons_of_pos (by simp [hfree, hnew]), List.eraseDups_cons,
    List.filter_filter, fresh]
  refine congrArg (fun l => id :: List.eraseDups l) (List.filter_congr fun b _ => ?_)
  by_cases hb : b = id <;> simp [hb]

/-- **A pass takes the candidates that are free and not taken yet, each once**, as long as there is
room. -/
theorem select_eq (p : Pool) {wanted : Nat} {taken : List QubitId} (hd : taken.Nodup)
    (hle : taken.length ≤ wanted) (candidates : List QubitId) :
    p.select wanted (QubitId.ascending taken) candidates =
      QubitId.ascending (taken ++ (p.fresh taken candidates).take (wanted - taken.length)) := by
  induction candidates generalizing taken with
  | nil => simp [select, fresh]
  | cons id rest ih =>
    unfold select
    rw [QubitId.length_ascending hd]
    by_cases hfull : taken.length = wanted
    · simp [hfull]
    rw [if_neg hfull]
    by_cases hfree : p.isFree id = true
    · rw [if_pos hfree, ← QubitId.ascending_cons]
      by_cases hmem : id ∈ taken
      · -- Taking it again changes nothing.
        have hsame : QubitId.ascending (id :: taken) = QubitId.ascending taken := by
          refine QubitId.ascending_congr fun a => ?_
          rw [List.mem_cons, or_iff_right_iff_imp]
          rintro rfl
          exact hmem
        rw [hsame, ih hd hle, fresh_cons_of_not fun h => h.2 hmem]
      · have hmore : QubitId.ascending (id :: taken) = QubitId.ascending (taken ++ [id]) :=
          QubitId.ascending_congr fun a => by simp [or_comm]
        have hd' : (taken ++ [id]).Nodup := by
          refine List.nodup_append.2 ⟨hd, List.nodup_singleton _, ?_⟩
          rintro a ha b hb rfl
          exact hmem (List.mem_singleton.1 hb ▸ ha)
        have hroom : wanted - taken.length = wanted - (taken ++ [id]).length + 1 := by
          rw [List.length_append, List.length_singleton]
          omega
        rw [hmore, ih hd' (by simp; omega), fresh_cons hfree hmem, hroom, List.take_succ_cons,
          List.append_assoc, List.singleton_append]
    · rw [if_neg hfree, ih hd hle, fresh_cons_of_not fun h => hfree h.1]

theorem fresh_nil (hd : p.Distinct) (preferred : List QubitId) :
    p.fresh [] preferred = (preferred.filter fun id => id ∈ p.freeIds).eraseDups := by
  rw [fresh]
  refine congrArg List.eraseDups (List.filter_congr fun id _ => ?_)
  simp [mem_freeIds hd]

theorem fresh_ids (hd : p.Distinct) (taken : List QubitId) :
    p.fresh taken (p.qubits.map Qubit.id) = p.freeIds.filter fun id => id ∉ taken := by
  have hfilter : ((p.qubits.map Qubit.id).filter fun id => p.isFree id ∧ id ∉ taken) =
      p.freeIds.filter fun id => id ∉ taken := by
    rw [freeIds_eq_filter hd, List.filter_filter]
    refine List.filter_congr fun id _ => ?_
    rw [Bool.decide_and, Bool.decide_eq_true, Bool.and_comm]
  rw [fresh, hfilter, eraseDups_of_nodup ((nodup_freeIds hd).filter _)]

theorem nodup_picked (p : Pool) (count : Nat) (preferred : List QubitId) :
    (p.picked count preferred).Nodup :=
  (nodup_eraseDups _).sublist (List.take_sublist _ _)

/-- **An allocation takes what is chosen**, in ascending order. -/
theorem selection_eq (hd : p.Distinct) (count : Nat) (preferred : List QubitId) :
    p.selection count preferred = QubitId.ascending (p.chosen count preferred) := by
  have hpicked : p.select count [] preferred = QubitId.ascending (p.picked count preferred) := by
    have hpass := p.select_eq List.nodup_nil (Nat.zero_le count) preferred
    rwa [List.nil_append, fresh_nil hd] at hpass
  have hle : (p.picked count preferred).length ≤ count := by
    rw [picked, List.length_take]
    exact Nat.min_le_left _ _
  rw [selection, hpicked, select_eq p (nodup_picked p count preferred) hle, fresh_ids hd, chosen]

/-- The pool after a request that is entered as `record`: its qubits are as `result` says, its tenant
counts `allocated` qubits, the history has one more entry, and everything else is as it was. -/
structure Settled (p : Pool) (record : AllocationRecord) (result : QubitId → Qubit)
    (allocated : Nat) (after : Pool) : Prop where
  listed : ∀ id ∈ record.qubits, after.find? id = some (result id)
  unlisted : ∀ id, id ∉ record.qubits → after.find? id = p.find? id
  ids : after.qubits.map Qubit.id = p.qubits.map Qubit.id
  quota : after.quota record.tenant = { p.quota record.tenant with allocated }
  quotas : ∀ other, other ≠ record.tenant → after.quota other = p.quota other
  history : after.history = pushBounded p.config.maxHistory p.history record
  config : after.config = p.config

theorem Handover.settled {ids : List QubitId} {change : Qubit → Qubit} {source target : Option Tenant}
    (ho : Handover p ids change source target) {result : QubitId → Qubit}
    (hresult : ∀ q, change q = result q.id) {f : Quota → Quota} {n : Nat}
    (hf : f (p.quota tenant) = { p.quota tenant with allocated := n }) (action : AllocationAction)
    (now : Timestamp) :
    Settled p ⟨tenant, ids, action, now⟩ result n
      (((p.update ids change).modifyQuota tenant f).log tenant ids action now) := by
  have htenant : (f (p.quota tenant)).tenant = tenant := by
    rw [hf]
    exact quota_tenant p tenant
  have hquota (other : Tenant) : ((p.update ids change).modifyQuota tenant f).quota other =
      if tenant = other then f (p.quota tenant) else p.quota other :=
    quota_modifyQuota (p := p.update ids change) htenant other
  have hfind (id : QubitId) :
      (((p.update ids change).modifyQuota tenant f).log tenant ids action now).find? id =
        (p.find? id).map fun q => if id ∈ ids then change q else q :=
    find?_update ho.id id
  constructor
  case listed =>
    intro id hid
    obtain ⟨q, hq⟩ := exists_find? (ho.known id hid)
    rw [hfind, hq, Option.map_some, if_pos hid, hresult, (mem_of_find? hq).2]
  case unlisted =>
    intro id hid
    rw [hfind]
    simp only [if_neg hid, Option.map_id']
  case ids => exact map_id_update ho.id
  case quota => rw [quota_log, hquota, if_pos rfl, hf]
  case quotas =>
    intro other hne
    rw [quota_log, hquota, if_neg (Ne.symm hne)]
  case history => rfl
  case config => rfl

/-! ## When an allocation is granted -/

section
variable (h : WellFormed size p) (now : Timestamp) (tenant : Tenant) (count : Nat)
  (preferred : List QubitId)
include h

/-- A request is refused for the first of three reasons, or granted as a whole. -/
theorem allocate_decided :
    let quota := p.quota tenant
    let taken := QubitId.ascending (p.chosen count preferred)
    let r := p.allocate now tenant count preferred
    (count = 0 ∧ r = (.error (.invalidRequest .zeroCount), p)) ∨
      (0 < count ∧ quota.maxQubits < quota.allocated + count ∧
        r = (.error (.quotaExceeded tenant count quota.allocated quota.maxQubits), p)) ∨
      (0 < count ∧ quota.allocated + count ≤ quota.maxQubits ∧ p.freeIds.length < count ∧
        r = (.error (.resourceExhausted count p.freeIds.length), p)) ∨
      (0 < count ∧ quota.allocated + count ≤ quota.maxQubits ∧ count ≤ p.freeIds.length ∧
        r.1 = .ok taken ∧ Settled p ⟨tenant, taken, .allocated, now⟩
          (fun id => ⟨id, .allocated, some tenant, some now⟩) (quota.allocated + count) r.2) := by
  intro quota taken r
  have hr : r = _ := allocate_eq h now tenant count preferred
  rw [selection_eq h.distinct, ← length_freeIds] at hr
  dsimp only at hr
  split at hr
  next hzero => exact .inl ⟨hzero, hr⟩
  next hpos =>
    split at hr
    next hover =>
      have hlt : quota.maxQubits < quota.allocated + count := by
        simpa [Quota.canAllocate] using hover
      exact .inr (.inl ⟨Nat.pos_of_ne_zero hpos, hlt, hr⟩)
    next hroom =>
      have hle : quota.allocated + count ≤ quota.maxQubits := by
        simpa [Quota.canAllocate] using hroom
      split at hr
      next hfew => exact .inr (.inr (.inl ⟨Nat.pos_of_ne_zero hpos, hle, hfew, hr⟩))
      next henough =>
        rw [Nat.not_lt] at henough
        obtain ⟨ho, -, -⟩ :=
          selection_handover h now tenant (length_freeIds p ▸ henough) preferred
        rw [selection_eq h.distinct] at ho
        refine .inr (.inr (.inr ⟨Nat.pos_of_ne_zero hpos, hle, henough, by rw [hr], ?_⟩))
        rw [hr]
        exact ho.settled (fun _ => rfl) rfl .allocated now

end

end Pool

end QubitWarden
