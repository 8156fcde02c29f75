import QubitWarden.Proofs.Qubit.Selection

/-!
# Changing listed qubits

Taking listed qubits through a transition one after the other changes all of them at once, when each
admits it. What a tenant holds then changes by the number of listed qubits.

* `update`: the pool with listed qubits changed; `transitionEach_eq`, `replace_eq_update`.
* `holdings_update`: the balance of what is held before and after.
* `quota_modifyQuota`, `nodup_putQuota`: the quotas after one of them was changed.
-/

namespace QubitWarden.Pool

variable {p : Pool} {ids : List QubitId} {change : Qubit → Qubit}

/-- The pool with the listed qubits changed. -/
def update (p : Pool) (ids : List QubitId) (change : Qubit → Qubit) : Pool :=
  { p with qubits := p.qubits.map fun q => if q.id ∈ ids then change q else q }

theorem mem_update {r : Qubit} :
    r ∈ (p.update ids change).qubits ↔
      ∃ q ∈ p.qubits, r = if q.id ∈ ids then change q else q := by
  simp only [update, List.mem_map, eq_comm]

theorem map_id_update (hid : ∀ q, (change q).id = q.id) :
    (p.update ids change).qubits.map Qubit.id = p.qubits.map Qubit.id := by
  simp only [update, List.map_map]
  refine List.map_congr_left fun q _ => ?_
  simp only [Function.comp_apply]
  split
  · exact hid q
  · rfl

theorem distinct_update (hd : p.Distinct) (hid : ∀ q, (change q).id = q.id) :
    (p.update ids change).Distinct := by
  rw [Distinct, map_id_update hid]
  exact hd

theorem update_congr {other : List QubitId}
    (h : ∀ q ∈ p.qubits, q.id ∈ ids ↔ q.id ∈ other) :
    p.update ids change = p.update other change := by
  simp only [update, Pool.mk.injEq, true_and, and_true]
  refine List.map_congr_left fun q hq => ?_
  simp only [h q hq]

theorem find?_update (hid : ∀ q, (change q).id = q.id) (id : QubitId) :
    (p.update ids change).find? id =
      (p.find? id).map fun q => if id ∈ ids then change q else q := by
  have hkey : ∀ q : Qubit, (if q.id ∈ ids then change q else q).id = q.id := by
    intro q
    split
    · exact hid q
    · rfl
  rw [find?, update, Keyed.find?_map_of_key hkey]
  refine Option.map_congr fun q hq => ?_
  rw [(mem_of_find? hq).2]

theorem replace_eq_update (change : Qubit → Qubit) (hd : p.Distinct)
    (hid : ∀ q, (change q).id = q.id) {q : Qubit} (hq : q ∈ p.qubits) :
    p.replace (change q) = p.update [q.id] change := by
  simp only [replace, update, Pool.mk.injEq, true_and, and_true]
  refine List.map_congr_left fun r hr => ?_
  simp only [hid, List.mem_singleton]
  by_cases he : r.id = q.id
  · obtain rfl : r = q := List.inj_on_of_nodup_map hd hr hq he
    rfl
  · rw [if_neg he, if_neg he]

theorem update_update (hid : ∀ q, (change q).id = q.id) {id : QubitId} (hnot : id ∉ ids) :
    (p.update [id] change).update ids change = p.update (id :: ids) change := by
  simp only [update, Pool.mk.injEq, true_and, and_true, List.map_map]
  refine List.map_congr_left fun q _ => ?_
  simp only [Function.comp_apply, List.mem_cons, List.not_mem_nil, or_false]
  by_cases hq : q.id = id
  · have : (change q).id ∉ ids := by rwa [hid, hq]
    rw [if_pos hq, if_neg this, if_pos (.inl hq)]
  · simp only [hq, if_false, false_or]

/-- **Listed qubits that all admit a transition go through it together.** -/
theorem transitionEach_eq {step : Qubit → Except AllocationError Qubit} (change : Qubit → Qubit)
    (hd : p.Distinct) (hids : ids.Nodup) (hid : ∀ q, (change q).id = q.id)
    (hstep : ∀ q ∈ p.qubits, q.id ∈ ids → step q = .ok (change q)) :
    transitionEach step ids p = (.ok (), p.update ids change) := by
  induction ids generalizing p with
  | nil => simp [transitionEach, update]
  | cons id rest ih =>
    obtain ⟨hnot, hrest⟩ := List.nodup_cons.1 hids
    unfold transitionEach
    cases hf : p.find? id with
    | none =>
      have hne : ∀ q ∈ p.qubits, q.id ≠ id := by
        simpa [find?] using hf
      have hsame : p.update rest change = p.update (id :: rest) change :=
        update_congr fun q hq => by simp [hne q hq]
      dsimp only
      rw [ih hd hrest fun q hq hmem => hstep q hq (List.mem_cons_of_mem _ hmem), hsame]
    | some q =>
      obtain ⟨hq, rfl⟩ := mem_of_find? hf
      simp only [hstep q hq List.mem_cons_self, replace_eq_update change hd hid hq]
      rw [ih (distinct_update hd hid) hrest, update_update hid hnot]
      intro r hr hmem
      obtain ⟨old, hold, rfl⟩ := mem_update.1 hr
      by_cases he : old.id ∈ [q.id]
      · rw [if_pos he, hid, List.mem_singleton.1 he] at hmem
        exact absurd hmem hnot
      · rw [if_neg he] at hmem ⊢
        exact hstep old hold (List.mem_cons_of_mem _ hmem)

/-! ## What a tenant holds -/

/-- The number of qubits that a tenant holds. -/
def holdings (p : Pool) (tenant : Tenant) : Nat := p.qubits.countP fun q => q.isOwnedBy tenant

theorem countP_map_ite {α : Type} (selected held : α → Bool) (change : α → α) {before after : Bool}
    {l : List α}
    (h : ∀ a ∈ l, selected a = true → held a = before ∧ held (change a) = after) :
    (l.map fun a => if selected a then change a else a).countP held +
        (if before then l.countP selected else 0) =
      l.countP held + (if after then l.countP selected else 0) := by
  induction l with
  | nil => simp
  | cons a rest ih =>
    have hrest := ih fun b hb => h b (List.mem_cons_of_mem _ hb)
    cases hs : selected a with
    | false =>
      simp only [List.map_cons, List.countP_cons, hs, Bool.false_eq_true, if_false, Nat.add_zero]
      omega
    | true =>
      obtain ⟨hbefore, hafter⟩ := h a List.mem_cons_self hs
      simp only [List.map_cons, List.countP_cons, hs, if_true, hbefore, hafter]
      cases before <;> cases after <;>
        simp only [Bool.false_eq_true, if_false, if_true] at hrest ⊢ <;> omega

/-- **The balance of a change**: what a tenant holds loses the listed qubits if they were its own
before, and gains them if they are its own after. -/
theorem holdings_update (change : Qubit → Qubit) (hd : p.Distinct) (hids : ids.Nodup)
    (hknown : ∀ id ∈ ids, id ∈ p.qubits.map Qubit.id) (tenant : Tenant) (before after : Bool)
    (h : ∀ q ∈ p.qubits, q.id ∈ ids →
      q.isOwnedBy tenant = before ∧ (change q).isOwnedBy tenant = after) :
    (p.update ids change).holdings tenant + (if before then ids.length else 0) =
      p.holdings tenant + (if after then ids.length else 0) := by
  have hbalance := countP_map_ite (fun q => q.id ∈ ids) (fun q => q.isOwnedBy tenant) change
    (l := p.qubits) fun q hq hmem => h q hq (of_decide_eq_true hmem)
  rw [Keyed.countP_mem_keys hd hids hknown] at hbalance
  simp only [decide_eq_true_eq] at hbalance
  exact hbalance

/-! ## Quotas -/

theorem quota_tenant (p : Pool) (tenant : Tenant) : (p.quota tenant).tenant = tenant := by
  unfold quota
  cases hf : p.quotas.find? fun q => q.tenant = tenant with
  | none => rfl
  | some q => simpa using List.find?_some hf

theorem quota_of_mem (hd : (p.quotas.map Quota.tenant).Nodup) {q : Quota} (hq : q ∈ p.quotas) :
    p.quota q.tenant = q := by
  rw [quota, Keyed.find?_of_nodup_keys hd hq, Option.getD_some]

theorem quota_of_not_mem {tenant : Tenant} (h : tenant ∉ p.quotas.map Quota.tenant) :
    p.quota tenant = p.defaultQuota tenant := by
  have hnone : p.quotas.find? (fun q => q.tenant = tenant) = none := by
    rw [List.find?_eq_none]
    intro q hq he
    exact h (of_decide_eq_true he ▸ List.mem_map_of_mem hq)
  rw [quota, hnone, Option.getD_none]

theorem putQuota_eq (q : Quota) (quotas : List Quota) :
    putQuota q quotas = Keyed.put Quota.tenant q quotas := by
  induction quotas with
  | nil => rfl
  | cons old rest ih => rw [putQuota, Keyed.put, ih]

theorem nodup_putQuota {q : Quota} {quotas : List Quota} (hd : (quotas.map Quota.tenant).Nodup) :
    ((putQuota q quotas).map Quota.tenant).Nodup := by
  rw [putQuota_eq]
  exact Keyed.nodup_put hd q

theorem quota_modifyQuota {tenant : Tenant} {f : Quota → Quota}
    (hf : (f (p.quota tenant)).tenant = tenant) (other : Tenant) :
    (p.modifyQuota tenant f).quota other =
      if tenant = other then f (p.quota tenant) else p.quota other := by
  show ((putQuota (f (p.quota tenant)) p.quotas).find? _).getD _ = _
  rw [putQuota_eq, Keyed.find?_put, hf]
  split <;> rfl

theorem quota_log (p : Pool) (logged : Tenant) (ids : List QubitId) (action : AllocationAction)
    (now : Timestamp) (tenant : Tenant) :
    (p.log logged ids action now).quota tenant = p.quota tenant := rfl

end QubitWarden.Pool
