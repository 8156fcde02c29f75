import QubitWarden.Proofs.Qubit.Invariant

/-!
# Operations of the pool

What each operation does to a well-formed pool, whether it succeeds or not.

* `allocate_eq`, `deallocate_eq`: what is refused is refused before any qubit is changed.
* `allocate_cases`, `deallocate_cases`, `takeOffline_cases`: a refused operation leaves the pool
  alone; one that succeeds is a change of listed qubits, a change of one quota and an entry in the
  history.
* `completeReset_cases`, `restore_cases`, `completeAllResets_eq`: qubits without owner become free.
* `wellFormed_allocate` and the others: every operation keeps the invariant.
-/

namespace QubitWarden.Pool

variable {p : Pool} {now : Timestamp} {tenant : Tenant} {size : Nat}

/-- What is found under listed identifiers is all that the list is about. -/
theorem WellFormed.listed (h : WellFormed size p) {ids : List QubitId} {P : Qubit → Prop}
    (hids : ∀ id ∈ ids, ∃ q, p.find? id = some q ∧ P q) :
    (∀ id ∈ ids, id ∈ p.qubits.map Qubit.id) ∧ ∀ q ∈ p.qubits, q.id ∈ ids → P q := by
  refine ⟨?_, ?_⟩
  · intro id hmem
    obtain ⟨q, hf, -⟩ := hids id hmem
    obtain ⟨hq, hid⟩ := mem_of_find? hf
    exact hid ▸ List.mem_map_of_mem hq
  · intro q hq hmem
    obtain ⟨r, hf, hr⟩ := hids q.id hmem
    rw [find?_of_mem h.distinct hq] at hf
    rwa [Option.some.inj hf]

theorem verifyAccess_iff {id : QubitId} :
    p.verifyAccess tenant id = true ↔ ∃ q, p.find? id = some q ∧ q.isOwnedBy tenant = true := by
  unfold verifyAccess
  cases p.find? id <;> simp

/-! ## Allocation -/

/-- **A selection is free**, so nobody loses it, and it is as long as wanted. -/
theorem selection_handover (h : WellFormed size p) (now : Timestamp) (tenant : Tenant) {count : Nat}
    (henough : count ≤ p.countIn .free) (preferred : List QubitId) :
    Handover p (p.selection count preferred) (Qubit.given tenant now) none (some tenant) ∧
      (∀ q ∈ p.qubits, q.id ∈ p.selection count preferred → q.state = .free) ∧
      (p.selection count preferred).length = count := by
  obtain ⟨hascending, hfree, hlength⟩ := selection_spec h.distinct henough preferred
  obtain ⟨hknown, hstate⟩ := h.listed fun id hmem => isFree_iff.1 (hfree id hmem)
  refine ⟨?_, hstate, hlength⟩
  exact {
    nodup := hascending.nodup
    known := hknown
    id := fun _ => rfl
    marked := fun q _ _ => q.marked_given tenant now
    source := fun q hq hmem => ((h.marked q hq).none_of_ne (by simp [hstate q hq hmem])).1
    target := fun _ _ _ => rfl }

/-- **An allocation is decided before any qubit is changed.** -/
theorem allocate_eq (h : WellFormed size p) (now : Timestamp) (tenant : Tenant) (count : Nat)
    (preferred : List QubitId) :
    p.allocate now tenant count preferred =
      let quota := p.quota tenant
      let selected := p.selection count preferred
      if count = 0 then (.error (.invalidRequest .zeroCount), p)
      else if !quota.canAllocate count then
        (.error (.quotaExceeded tenant count quota.allocated quota.maxQubits), p)
      else if p.countIn .free < count then
        (.error (.resourceExhausted count (p.countIn .free)), p)
      else
        (.ok selected, ((p.update selected (Qubit.given tenant now)).modifyQuota tenant
          fun q => { q with allocated := q.allocated + count }).log tenant selected .allocated
            now) := by
  unfold allocate
  dsimp only
  refine ite_congr rfl (fun _ => rfl) fun _ => ?_
  refine ite_congr rfl (fun _ => rfl) fun _ => ?_
  refine ite_congr rfl (fun _ => rfl) fun henough => ?_
  obtain ⟨ho, hfree, -⟩ :=
    selection_handover h now tenant (Nat.le_of_not_lt henough) preferred
  have hstep : ∀ q ∈ p.qubits, q.id ∈ p.selection count preferred →
      Qubit.allocate tenant now q = .ok (Qubit.given tenant now q) :=
    fun q hq hmem => if_pos (hfree q hq hmem)
  rw [transitionEach_eq _ h.distinct ho.nodup ho.id hstep]

theorem allocate_cases (h : WellFormed size p) (now : Timestamp) (tenant : Tenant) (count : Nat)
    (preferred : List QubitId) :
    (∃ e, p.allocate now tenant count preferred = (.error e, p)) ∨
      ∃ selected, Handover p selected (Qubit.given tenant now) none (some tenant) ∧
        (∀ q ∈ p.qubits, q.id ∈ selected → q.state = .free) ∧
        (p.quota tenant).allocated + selected.length ≤ (p.quota tenant).maxQubits ∧
        p.allocate now tenant count preferred =
          (.ok selected, (((p.update selected (Qubit.given tenant now)).modifyQuota tenant
            fun q => { q with allocated := q.allocated + selected.length }).log tenant selected
              .allocated now)) := by
  rw [allocate_eq h]
  dsimp only
  split
  · exact .inl ⟨_, rfl⟩
  split
  · exact .inl ⟨_, rfl⟩
  next hroom =>
    split
    · exact .inl ⟨_, rfl⟩
    next henough =>
      obtain ⟨ho, hfree, hlength⟩ :=
        selection_handover h now tenant (Nat.le_of_not_lt henough) preferred
      refine .inr ⟨_, ho, hfree, ?_, by rw [hlength]⟩
      simpa [Quota.canAllocate, hlength] using hroom

theorem wellFormed_allocate (h : WellFormed size p) (count : Nat) (preferred : List QubitId) :
    WellFormed size (p.allocate now tenant count preferred).2 := by
  obtain ⟨e, he⟩ | ⟨selected, ho, -, hroom, he⟩ := allocate_cases h now tenant count preferred
  · rw [he]
    exact h
  · rw [he]
    exact (h.given ho hroom).log tenant selected _ now

/-! ## Deallocation -/

/-- The qubit as a deallocation leaves it. -/
def released (reset : Bool) (q : Qubit) : Qubit := q.clear (if reset then .resetting else .free)

theorem owned_handover (h : WellFormed size p) {ids : List QubitId} (hids : ids.Nodup)
    (howned : ∀ id ∈ ids, p.verifyAccess tenant id = true) (reset : Bool) :
    Handover p ids (released reset) (some tenant) none ∧
      ∀ q ∈ p.qubits, q.id ∈ ids → q.state = .allocated := by
  obtain ⟨hknown, howner⟩ := h.listed fun id hmem => verifyAccess_iff.1 (howned id hmem)
  have hstate : ∀ q ∈ p.qubits, q.id ∈ ids → q.state = .allocated ∧ q.owner = some tenant := by
    intro q hq hmem
    simpa [Qubit.isOwnedBy] using howner q hq hmem
  refine ⟨?_, fun q hq hmem => (hstate q hq hmem).1⟩
  exact {
    nodup := hids
    known := hknown
    id := fun _ => rfl
    marked := fun q _ _ => Qubit.marked_clear (by cases reset <;> simp)
    source := fun q hq hmem => (hstate q hq hmem).2
    target := fun _ _ _ => rfl }

/-- The listed qubits that a tenant does not own, in ascending order. -/
def foreignTo (p : Pool) (tenant : Tenant) (qubits : List QubitId) : List QubitId :=
  (QubitId.ascending qubits).filter fun id => !p.verifyAccess tenant id

theorem verifyAccess_of_foreignTo {qubits : List QubitId} (hnone : p.foreignTo tenant qubits = []) :
    ∀ id ∈ QubitId.ascending qubits, p.verifyAccess tenant id = true := by
  simpa [foreignTo] using hnone

/-- **A deallocation is decided before any qubit is changed.** -/
theorem deallocate_eq (h : WellFormed size p) (now : Timestamp) (tenant : Tenant)
    (qubits : List QubitId) (reset : Bool) :
    p.deallocate now tenant qubits reset =
      let taken := QubitId.ascending qubits
      if taken = [] then (.error (.invalidRequest .nothingToDeallocate), p)
      else if p.foreignTo tenant qubits ≠ [] then
        (.error (.notOwned tenant (p.foreignTo tenant qubits)), p)
      else
        (.ok taken, ((p.update taken (released reset)).modifyQuota tenant
          fun q => { q with allocated := q.allocated - taken.length }).log tenant taken
            (.deallocated reset) now) := by
  unfold deallocate
  dsimp only
  refine ite_congr (by simp) (fun _ => rfl) fun _ => ?_
  refine ite_congr (by simp [foreignTo]) (fun _ => rfl) fun hnone => ?_
  have howned := verifyAccess_of_foreignTo (Decidable.not_not.1 hnone)
  obtain ⟨ho, hstate⟩ :=
    owned_handover h (QubitId.ascending_ascending qubits).nodup howned reset
  have hstep : ∀ q ∈ p.qubits, q.id ∈ QubitId.ascending qubits →
      (if reset then Qubit.beginReset else Qubit.release) q = .ok (released reset q) := by
    intro q hq hmem
    cases reset <;> exact if_pos (hstate q hq hmem)
  rw [transitionEach_eq _ h.distinct ho.nodup ho.id hstep]

theorem deallocate_cases (h : WellFormed size p) (now : Timestamp) (tenant : Tenant)
    (qubits : List QubitId) (reset : Bool) :
    (∃ e, p.deallocate now tenant qubits reset = (.error e, p)) ∨
      ∃ taken, Handover p taken (released reset) (some tenant) none ∧
        p.deallocate now tenant qubits reset =
          (.ok taken, (((p.update taken (released reset)).modifyQuota tenant
            fun q => { q with allocated := q.allocated - taken.length }).log tenant taken
              (.deallocated reset) now)) := by
  rw [deallocate_eq h]
  dsimp only
  split
  · exact .inl ⟨_, rfl⟩
  split
  · exact .inl ⟨_, rfl⟩
  next hnone =>
    have howned := verifyAccess_of_foreignTo (Decidable.not_not.1 hnone)
    exact .inr ⟨_, (owned_handover h (QubitId.ascending_ascending qubits).nodup howned reset).1,
      rfl⟩

theorem wellFormed_deallocate (h : WellFormed size p) (qubits : List QubitId) (reset : Bool) :
    WellFormed size (p.deallocate now tenant qubits reset).2 := by
  obtain ⟨e, he⟩ | ⟨taken, ho, he⟩ := deallocate_cases h now tenant qubits reset
  · rw [he]
    exact h
  · rw [he]
    exact (h.taken ho).log tenant taken _ now

theorem wellFormed_releaseTenant (h : WellFormed size p) :
    WellFormed size (p.releaseTenant now tenant).2 := by
  unfold releaseTenant
  dsimp only
  split
  · exact h
  · exact wellFormed_deallocate h _ true

/-! ## Resets and restoration -/

/-- A qubit without owner becomes free. -/
theorem handover_freed (h : WellFormed size p) {ids : List QubitId} (hids : ids.Nodup)
    (hstate : ∀ id ∈ ids, ∃ q, p.find? id = some q ∧ q.state ≠ .allocated) :
    Handover p ids Qubit.freed none none := by
  obtain ⟨hknown, hstate⟩ := h.listed hstate
  have howner : ∀ q ∈ p.qubits, q.id ∈ ids → q.owner = none := fun q hq hmem =>
    ((h.marked q hq).none_of_ne (hstate q hq hmem)).1
  have hmarked : ∀ q ∈ p.qubits, q.id ∈ ids → q.freed.Marked := fun q hq hmem =>
    (h.marked q hq).freed (hstate q hq hmem)
  exact ⟨hids, hknown, fun _ => rfl, hmarked, howner, howner⟩

/-- A transition that frees a qubit in one of the states in `P`, none of which has an owner. -/
theorem transition_cases (h : WellFormed size p) (id : QubitId)
    {step : Qubit → Except AllocationError Qubit} {P : QubitState → Prop} (hP : ¬ P .allocated)
    (hstep : ∀ q r, step q = .ok r → P q.state ∧ r = q.freed) :
    (∃ e, p.transition id step = (.error e, p)) ∨
      Handover p [id] Qubit.freed none none ∧ (∀ q ∈ p.qubits, q.id = id → P q.state) ∧
        p.transition id step = (.ok (), p.update [id] Qubit.freed) := by
  unfold transition
  split
  · exact .inl ⟨_, rfl⟩
  next q hf =>
    split
    · exact .inl ⟨_, rfl⟩
    next r hr =>
      obtain ⟨hstate, rfl⟩ := hstep q r hr
      obtain ⟨hq, rfl⟩ := mem_of_find? hf
      have hids : ∀ id ∈ [q.id], ∃ r, p.find? id = some r ∧ P r.state := by
        intro id hid
        rw [List.mem_singleton.1 hid]
        exact ⟨q, hf, hstate⟩
      have ho : Handover p [q.id] Qubit.freed none none := by
        refine handover_freed h (List.nodup_singleton _) fun id hid => ?_
        obtain ⟨r, hr, hs⟩ := hids id hid
        exact ⟨r, hr, fun ha => hP (ha ▸ hs)⟩
      refine .inr ⟨ho, fun r hr hid => (h.listed hids).2 r hr (List.mem_singleton.2 hid), ?_⟩
      show (_, p.replace q.freed) = _
      rw [replace_eq_update Qubit.freed h.distinct (fun _ => rfl) hq]

theorem completeReset_cases (h : WellFormed size p) (id : QubitId) :
    (∃ e, p.completeReset id = (.error e, p)) ∨
      Handover p [id] Qubit.freed none none ∧
        (∀ q ∈ p.qubits, q.id = id → q.state = .resetting) ∧
          p.completeReset id = (.ok (), p.update [id] Qubit.freed) := by
  refine transition_cases (P := (· = .resetting)) h id (by decide) fun q r hr => ?_
  unfold Qubit.completeReset at hr
  split at hr
  next hs => exact ⟨hs, (Except.ok.inj hr).symm⟩
  next => cases hr

theorem restore_cases (h : WellFormed size p) (id : QubitId) :
    (∃ e, p.restore id = (.error e, p)) ∨
      Handover p [id] Qubit.freed none none ∧
        (∀ q ∈ p.qubits, q.id = id → q.state.isOffline = true) ∧
          p.restore id = (.ok (), p.update [id] Qubit.freed) := by
  refine transition_cases (P := (·.isOffline = true)) h id (by decide) fun q r hr => ?_
  unfold Qubit.restore at hr
  split at hr
  next hs => exact ⟨hs, (Except.ok.inj hr).symm⟩
  next => cases hr

theorem wellFormed_completeReset (h : WellFormed size p) (id : QubitId) :
    WellFormed size (p.completeReset id).2 := by
  obtain ⟨e, he⟩ | ⟨ho, -, he⟩ := completeReset_cases h id <;> rw [he]
  · exact h
  · exact h.moved ho

theorem wellFormed_restore (h : WellFormed size p) (id : QubitId) :
    WellFormed size (p.restore id).2 := by
  obtain ⟨e, he⟩ | ⟨ho, -, he⟩ := restore_cases h id <;> rw [he]
  · exact h
  · exact h.moved ho

theorem completeAllResets_eq (h : WellFormed size p) :
    ∃ pending, Handover p pending Qubit.freed none none ∧
      (∀ q ∈ p.qubits, q.id ∈ pending ↔ q.state = .resetting) ∧
        p.completeAllResets = (pending, p.update pending Qubit.freed) := by
  unfold completeAllResets
  dsimp only
  have hstate : ∀ id ∈ (p.qubits.filter fun q => q.state = .resetting).map Qubit.id,
      ∃ q, p.find? id = some q ∧ q.state = .resetting := by
    intro id hmem
    obtain ⟨q, hq, rfl⟩ := List.mem_map.1 hmem
    obtain ⟨hq, hs⟩ := List.mem_filter.1 hq
    exact ⟨q, find?_of_mem h.distinct hq, of_decide_eq_true hs⟩
  have hall : ∀ q ∈ p.qubits, q.state = .resetting →
      q.id ∈ (p.qubits.filter fun q => q.state = .resetting).map Qubit.id := fun q hq hs =>
    List.mem_map_of_mem (List.mem_filter.2 ⟨hq, decide_eq_true hs⟩)
  have hnodup : ((p.qubits.filter fun q => q.state = .resetting).map Qubit.id).Nodup :=
    h.distinct.sublist (List.filter_sublist.map _)
  generalize (p.qubits.filter fun q => q.state = .resetting).map Qubit.id = pending
    at hstate hall hnodup
  have ho : Handover p pending Qubit.freed none none :=
    handover_freed h hnodup fun id hmem =>
      let ⟨q, hf, hs⟩ := hstate id hmem
      ⟨q, hf, by simp [hs]⟩
  have honly := (h.listed hstate).2
  have hstep : ∀ q ∈ p.qubits, q.id ∈ pending → q.completeReset = .ok q.freed :=
    fun q hq hmem => if_pos (honly q hq hmem)
  refine ⟨pending, ho, fun q hq => ⟨honly q hq, hall q hq⟩, ?_⟩
  rw [transitionEach_eq _ h.distinct ho.nodup ho.id hstep]

theorem wellFormed_completeAllResets (h : WellFormed size p) :
    WellFormed size p.completeAllResets.2 := by
  obtain ⟨pending, ho, -, he⟩ := completeAllResets_eq h
  rw [he]
  exact h.moved ho

/-! ## Taking out of service -/

theorem takeOffline_cases (h : WellFormed size p) (now : Timestamp) (id : QubitId)
    (target : QubitState) :
    (∃ e, p.takeOffline now id target = (.error e, p)) ∨
      ∃ source, Handover p [id] (fun q => q.clear target) source none ∧
        (target.isOffline = true ∧ ∀ q ∈ p.qubits, q.id = id → q.state ≠ target) ∧
        p.takeOffline now id target =
          (.ok source, match source with
            | none => p.update [id] fun q => q.clear target
            | some owner => ((p.update [id] fun q => q.clear target).modifyQuota owner
                fun q => { q with allocated := q.allocated - 1 }).log owner [id] .evicted now) := by
  unfold takeOffline
  cases hf : p.find? id with
  | none => exact .inl ⟨_, rfl⟩
  | some q =>
    by_cases hadmitted : target.isOffline = true ∧ q.state ≠ target
    · have htaken : q.takeOffline target = .ok (q.owner, q.clear target) := if_pos hadmitted
      obtain ⟨hq, rfl⟩ := mem_of_find? hf
      have hids : ∀ id ∈ [q.id], ∃ r, p.find? id = some r ∧ r = q := by
        intro id hid
        rw [List.mem_singleton.1 hid]
        exact ⟨q, hf, rfl⟩
      obtain ⟨hknown, honly⟩ := h.listed hids
      have htarget : target ≠ .allocated := fun he => by
        rw [he] at hadmitted
        exact absurd hadmitted.1 (by decide)
      have ho : Handover p [q.id] (fun q => q.clear target) q.owner none := {
        nodup := List.nodup_singleton _
        known := hknown
        id := fun _ => rfl
        marked := fun _ _ _ => Qubit.marked_clear htarget
        source := fun r hr hmem => by rw [honly r hr hmem]
        target := fun _ _ _ => rfl }
      have hstate : ∀ r ∈ p.qubits, r.id = q.id → r.state ≠ target := by
        intro r hr hid
        rw [honly r hr (List.mem_singleton.2 hid)]
        exact hadmitted.2
      refine .inr ⟨q.owner, ho, ⟨hadmitted.1, hstate⟩, ?_⟩
      have hreplace := replace_eq_update (fun q => q.clear target) h.distinct (fun _ => rfl) hq
      dsimp only
      rw [htaken]
      cases q.owner <;> simp only [hreplace]
    · have hrefused : q.takeOffline target = .error (q.refuse target) := if_neg hadmitted
      dsimp only
      rw [hrefused]
      exact .inl ⟨_, rfl⟩

theorem wellFormed_takeOffline (h : WellFormed size p) (id : QubitId) (target : QubitState) :
    WellFormed size (p.takeOffline now id target).2 := by
  obtain ⟨e, he⟩ | ⟨source, ho, -, he⟩ := takeOffline_cases h now id target
  · rw [he]
    exact h
  · rw [he]
    cases source with
    | none => exact h.moved ho
    | some owner => exact (h.taken ho).log owner [id] _ now

/-! ## Quotas -/

theorem qubits_setQuota (p : Pool) (tenant : Tenant) (maxQubits : Nat) :
    (p.setQuota tenant maxQubits).2.qubits = p.qubits := by
  unfold setQuota
  dsimp only
  split <;> rfl

theorem wellFormed_setQuota (h : WellFormed size p) (tenant : Tenant) (maxQubits : Nat) :
    WellFormed size (p.setQuota tenant maxQubits).2 := by
  have hstored : WellFormed size (p.modifyQuota tenant id) :=
    h.modifyQuota (quota_tenant p tenant) rfl (h.limited tenant)
  unfold setQuota
  dsimp only
  split
  · exact hstored
  next hle =>
    exact hstored.modifyQuota
      (f := fun _ => { (p.modifyQuota tenant id).quota tenant with maxQubits })
      (quota_tenant _ tenant) rfl (Nat.le_of_not_lt hle)

end QubitWarden.Pool
