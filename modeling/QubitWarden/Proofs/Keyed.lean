import Mathlib.Data.List.Nodup

/-!
# Lists with distinct keys

A list in which no two items have one key, as records by identifier and quotas by tenant are.

* `find?_of_nodup_keys`: every item is found under its key.
* `countP_mem_keys`: as many items have a listed key as keys are listed.
* `find?_map_of_key`: items that are changed under their keys are found under them.
* `put`: an item replaces the one with its key, or comes last; `find?_put`, `nodup_put`. One that is
  there already changes nothing (`put_eq_self`).
-/

namespace QubitWarden.Keyed

variable {α β : Type} [DecidableEq β] {key : α → β} {l : List α}

theorem find?_of_nodup_keys (hd : (l.map key).Nodup) {a : α} (ha : a ∈ l) :
    l.find? (fun x => key x = key a) = some a := by
  induction l with
  | nil => cases ha
  | cons b rest ih =>
    rw [List.map_cons, List.nodup_cons] at hd
    rcases List.mem_cons.1 ha with rfl | ha
    · simp
    · have hne : key b ≠ key a := fun he => hd.1 (he ▸ List.mem_map_of_mem ha)
      rw [List.find?_cons_of_neg (by simpa using hne)]
      exact ih hd.2 ha

theorem countP_mem_keys (hd : (l.map key).Nodup) {keys : List β} (hkeys : keys.Nodup)
    (hsub : ∀ b ∈ keys, b ∈ l.map key) : l.countP (fun x => key x ∈ keys) = keys.length := by
  have hperm : ((l.map key).filter (· ∈ keys)).Perm keys := by
    refine (List.perm_ext_iff_of_nodup (hd.filter _) hkeys).2 fun b => ?_
    rw [List.mem_filter, decide_eq_true_eq]
    exact ⟨And.right, fun hb => ⟨hsub b hb, hb⟩⟩
  rw [← hperm.length_eq, ← List.countP_eq_length_filter, List.countP_map]
  rfl

theorem find?_map_of_key {change : α → α} (hkey : ∀ a, key (change a) = key a) (b : β) :
    (l.map change).find? (fun x => key x = b) = (l.find? fun x => key x = b).map change := by
  simp only [List.find?_map, Function.comp_def, hkey]

/-! ## Putting an item -/

/-- The list with the item of the same key replaced, or `a` added. -/
def put (key : α → β) (a : α) : List α → List α
  | [] => [a]
  | b :: rest => if key b = key a then a :: rest else b :: put key a rest

theorem find?_put (a : α) (b : β) (l : List α) :
    (put key a l).find? (fun x => key x = b) =
      if key a = b then some a else l.find? fun x => key x = b := by
  induction l with
  | nil => by_cases ha : key a = b <;> simp [put, ha]
  | cons old rest ih =>
    unfold put
    split
    next he =>
      rw [List.find?_cons, List.find?_cons, he]
      by_cases ha : key a = b <;> simp [ha]
    next hne =>
      rw [List.find?_cons, List.find?_cons, ih]
      by_cases ha : key a = b
      · have : key old ≠ b := fun he => hne (he.trans ha.symm)
        simp [this, ha]
      · simp [ha]

theorem put_eq_self {a : α} (h : l.find? (fun x => key x = key a) = some a) :
    put key a l = l := by
  induction l with
  | nil => cases h
  | cons old rest ih =>
    unfold put
    by_cases he : key old = key a
    · rw [List.find?_cons_of_pos (by simpa using he)] at h
      rw [if_pos he, Option.some.inj h]
    · rw [List.find?_cons_of_neg (by simpa using he)] at h
      rw [if_neg he, ih h]

theorem mem_keys_put {a : α} {b : β} (h : b ∈ (put key a l).map key) :
    b = key a ∨ b ∈ l.map key := by
  induction l with
  | nil => exact .inl (List.mem_singleton.1 h)
  | cons old rest ih =>
    unfold put at h
    split at h
    · rw [List.map_cons, List.mem_cons] at h
      exact h.imp_right (List.mem_cons_of_mem _)
    · rw [List.map_cons, List.mem_cons] at h
      rcases h with rfl | h
      · exact .inr List.mem_cons_self
      · exact (ih h).imp_right (List.mem_cons_of_mem _)

theorem nodup_put (hd : (l.map key).Nodup) (a : α) : ((put key a l).map key).Nodup := by
  induction l with
  | nil => exact List.nodup_singleton _
  | cons old rest ih =>
    rw [List.map_cons, List.nodup_cons] at hd
    unfold put
    split
    next he =>
      rw [List.map_cons, List.nodup_cons, ← he]
      exact hd
    next hne =>
      rw [List.map_cons, List.nodup_cons]
      refine ⟨fun hmem => ?_, ih hd.2⟩
      rcases mem_keys_put hmem with he | hmem
      · exact hne he
      · exact hd.1 hmem

end QubitWarden.Keyed
