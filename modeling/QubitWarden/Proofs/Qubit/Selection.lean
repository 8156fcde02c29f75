import QubitWarden.Proofs.Keyed
import QubitWarden.Qubit.Pool

/-!
# Selecting qubits

Listed identifiers are put in ascending order without repetition, and an allocation selects exactly
as many free qubits as it wants, when there are enough.

* `Ascending`: strictly increasing, so without repetition (`Ascending.nodup`).
* `ascending_ascending`, `mem_ascending`: putting in order loses nothing and adds nothing.
* `selection_spec`: the selection of an allocation is ascending, free, and of the wanted length.
-/

namespace QubitWarden

namespace QubitId

/-- In strictly ascending order. -/
def Ascending (ids : List QubitId) : Prop := ids.Pairwise fun a b => a.index < b.index

theorem Ascending.nodup {ids : List QubitId} (h : Ascending ids) : ids.Nodup := by
  refine List.Pairwise.imp ?_ h
  intro a b hlt he
  rw [he] at hlt
  exact Nat.lt_irrefl _ hlt

theorem mem_insertAscending {a q : QubitId} {ids : List QubitId} :
    a ∈ insertAscending q ids ↔ a = q ∨ a ∈ ids := by
  induction ids with
  | nil => simp [insertAscending]
  | cons p rest ih =>
    unfold insertAscending
    split
    · exact List.mem_cons
    · split
      next h => subst h; simp
      next => rw [List.mem_cons, ih, List.mem_cons]; tauto

theorem length_insertAscending (q : QubitId) (ids : List QubitId) :
    (insertAscending q ids).length ≤ ids.length + 1 := by
  induction ids with
  | nil => exact Nat.le_refl _
  | cons p rest ih =>
    unfold insertAscending
    split
    · exact Nat.le_refl _
    · split
      · exact Nat.le_succ _
      · exact Nat.succ_le_succ ih

theorem ascending_insertAscending (q : QubitId) {ids : List QubitId} (h : Ascending ids) :
    Ascending (insertAscending q ids) := by
  induction ids with
  | nil => exact List.pairwise_singleton _ _
  | cons p rest ih =>
    obtain ⟨hp, hrest⟩ := List.pairwise_cons.1 h
    unfold insertAscending
    split
    next hlt =>
      refine List.pairwise_cons.2 ⟨fun b hb => ?_, h⟩
      rcases List.mem_cons.1 hb with rfl | hb
      · exact hlt
      · exact Nat.lt_trans hlt (hp b hb)
    next hge =>
      split
      next => exact h
      next hne =>
        refine List.pairwise_cons.2 ⟨fun b hb => ?_, ih hrest⟩
        rcases mem_insertAscending.1 hb with rfl | hb
        · have hindex : b.index ≠ p.index := fun he => hne (by cases b; cases p; cases he; rfl)
          omega
        · exact hp b hb

theorem ascending_ascending (ids : List QubitId) : Ascending (ascending ids) := by
  induction ids with
  | nil => exact .nil
  | cons q rest ih => exact ascending_insertAscending q ih

theorem mem_ascending {a : QubitId} {ids : List QubitId} : a ∈ ascending ids ↔ a ∈ ids := by
  induction ids with
  | nil => exact Iff.rfl
  | cons q rest ih =>
    rw [List.mem_cons, ← ih]
    exact mem_insertAscending

end QubitId

namespace Pool

variable {p : Pool}

/-- No two qubits have one identifier. -/
def Distinct (p : Pool) : Prop := (p.qubits.map Qubit.id).Nodup

theorem find?_of_mem (hd : p.Distinct) {q : Qubit} (hq : q ∈ p.qubits) : p.find? q.id = some q :=
  Keyed.find?_of_nodup_keys hd hq

theorem mem_of_find? {id : QubitId} {q : Qubit} (h : p.find? id = some q) :
    q ∈ p.qubits ∧ q.id = id :=
  ⟨List.mem_of_find?_eq_some h, by simpa using List.find?_some h⟩

theorem exists_find? {id : QubitId} (h : id ∈ p.qubits.map Qubit.id) :
    ∃ q, p.find? id = some q := by
  obtain ⟨q, hq, hid⟩ := List.mem_map.1 h
  exact Option.isSome_iff_exists.1 (List.find?_isSome.2 ⟨q, hq, decide_eq_true hid⟩)

theorem isFree_iff {id : QubitId} :
    p.isFree id = true ↔ ∃ q, p.find? id = some q ∧ q.state = .free := by
  unfold isFree
  cases p.find? id <;> simp

/-- A selection in progress: ascending, of free qubits, and no longer than wanted. -/
structure Selected (p : Pool) (wanted : Nat) (selected : List QubitId) : Prop where
  ascending : QubitId.Ascending selected
  free : ∀ id ∈ selected, p.isFree id = true
  le : selected.length ≤ wanted

theorem Selected.insert {wanted : Nat} {selected : List QubitId} (h : Selected p wanted selected)
    (hne : selected.length ≠ wanted) {id : QubitId} (hfree : p.isFree id = true) :
    Selected p wanted (QubitId.insertAscending id selected) where
  ascending := QubitId.ascending_insertAscending id h.ascending
  free a ha := by
    rcases QubitId.mem_insertAscending.1 ha with rfl | ha
    · exact hfree
    · exact h.free a ha
  le := by
    have := QubitId.length_insertAscending id selected
    have := h.le
    omega

/-- A pass over candidates ends with as many as wanted or with all free candidates. -/
theorem select_spec (p : Pool) (wanted : Nat) {selected : List QubitId}
    (h : Selected p wanted selected) (candidates : List QubitId) :
    Selected p wanted (p.select wanted selected candidates) ∧
      (∀ id ∈ selected, id ∈ p.select wanted selected candidates) ∧
      ((p.select wanted selected candidates).length = wanted ∨
        ∀ id ∈ candidates, p.isFree id = true → id ∈ p.select wanted selected candidates) := by
  induction candidates generalizing selected with
  | nil => exact ⟨h, fun _ hid => hid, .inr fun id hid => by cases hid⟩
  | cons id rest ih =>
    unfold select
    split
    next hfull => exact ⟨h, fun _ hid => hid, .inl hfull⟩
    next hne =>
      split
      next hfree =>
        obtain ⟨hs, hold, hall⟩ := ih (h.insert hne hfree)
        refine ⟨hs, fun a ha => hold a (QubitId.mem_insertAscending.2 (.inr ha)), ?_⟩
        refine hall.imp_right fun hall a ha hafree => ?_
        rcases List.mem_cons.1 ha with rfl | ha
        · exact hold a (QubitId.mem_insertAscending.2 (.inl rfl))
        · exact hall a ha hafree
      next hbusy =>
        obtain ⟨hs, hold, hall⟩ := ih h
        refine ⟨hs, hold, hall.imp_right fun hall a ha hafree => ?_⟩
        rcases List.mem_cons.1 ha with rfl | ha
        · exact absurd hafree hbusy
        · exact hall a ha hafree

/-- **An allocation selects exactly as many free qubits as it wants**, if there are enough. -/
theorem selection_spec (hd : p.Distinct) {count : Nat} (hle : count ≤ p.countIn .free)
    (preferred : List QubitId) :
    QubitId.Ascending (p.selection count preferred) ∧
      (∀ id ∈ p.selection count preferred, p.isFree id = true) ∧
      (p.selection count preferred).length = count := by
  have hstart : Selected p count [] := ⟨.nil, fun _ hid => (by cases hid), Nat.zero_le _⟩
  obtain ⟨hpreferred, -, -⟩ := select_spec p count hstart preferred
  obtain ⟨hs, -, hall⟩ := select_spec p count hpreferred (p.qubits.map Qubit.id)
  refine ⟨hs.ascending, hs.free, ?_⟩
  rcases hall with hfull | hall
  · exact hfull
  · -- All free qubits are selected, so there are at least as many.
    refine Nat.le_antisymm hs.le (Nat.le_trans hle ?_)
    have hnodup : ((p.qubits.filter fun q => q.state = .free).map Qubit.id).Nodup :=
      hd.sublist (List.filter_sublist.map _)
    have hsub : (p.qubits.filter fun q => q.state = .free).map Qubit.id ⊆
        p.selection count preferred := by
      intro id hid
      obtain ⟨q, hq, rfl⟩ := List.mem_map.1 hid
      obtain ⟨hq, hfree⟩ := List.mem_filter.1 hq
      exact hall q.id (List.mem_map_of_mem hq)
        (isFree_iff.2 ⟨q, find?_of_mem hd hq, of_decide_eq_true hfree⟩)
    rw [countIn, List.countP_eq_length_filter, ← List.length_map Qubit.id]
    exact List.Nodup.length_le_of_subset hnodup hsub

end Pool

end QubitWarden
