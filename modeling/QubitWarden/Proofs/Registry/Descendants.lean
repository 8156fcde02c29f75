import QubitWarden.Proofs.Registry.Ancestry

/-!
# The way down from a token

The search for the descendants of a token visits the children of each token that it found, in
whatever order the records stand, and does not remember what it has visited. Because the tokens form
trees, it finds each descendant once, the nearer ones first, and comes to an end.

* `Frontier`: what the search has listed at any time; `Treelike.frontier_step` for one visit.
* `Treelike.stops_spread`: the loop ends, and everything listed has been visited.
* `Treelike.mem_descendants`: a token descends from those on its way up and from no others.
* `lineage_dual`: both ways side by side, after every run and for every order of the records.
-/

namespace QubitWarden.Registry

variable {issuer : Issuer} {reg : Registry} {rank : TokenId → Nat} {r : Token} {x y z : TokenId}

/-! ## Children -/

theorem mem_children : y ∈ reg.children x ↔ ∃ r ∈ reg.records, r.id = y ∧ r.parent = some x := by
  simp only [children, List.mem_map, List.mem_filter, decide_eq_true_eq]
  exact ⟨fun ⟨r, ⟨hr, hparent⟩, hid⟩ => ⟨r, hr, hid, hparent⟩,
    fun ⟨r, hr, hid, hparent⟩ => ⟨r, ⟨hr, hparent⟩, hid⟩⟩

/-- Two tokens, the first of them no farther from its root. -/
def NoFarther (reg : Registry) (y z : TokenId) : Prop :=
  y ≠ z ∧ (reg.chain y).length ≤ (reg.chain z).length

section
variable (ht : Treelike rank reg)
include ht

theorem Treelike.chain_of_mem_children (hy : y ∈ reg.children x) :
    reg.chain y = y :: reg.chain x := by
  obtain ⟨r, hr, rfl, hparent⟩ := mem_children.1 hy
  exact ht.chain_child hr hparent

theorem Treelike.nodup_children (x : TokenId) : (reg.children x).Nodup := by
  have hd := ht.distinct
  rw [Distinct, grants, List.map_map] at hd
  exact hd.sublist (List.filter_sublist.map _)

/-- The children of tokens no farther apart are no farther apart. -/
theorem Treelike.noFarther_children {a b : TokenId} (hab : NoFarther reg a b)
    (hy : y ∈ reg.children a) (hz : z ∈ reg.children b) : NoFarther reg y z := by
  have hchain := ht.chain_of_mem_children hy
  have hchain' := ht.chain_of_mem_children hz
  refine ⟨?_, ?_⟩
  · rintro rfl
    rw [mem_children] at hy hz
    obtain ⟨r, hr, rfl, hparent⟩ := hy
    obtain ⟨s, hs, hid, hparent'⟩ := hz
    have hfound := ht.find? hs
    rw [hid, ht.find? hr] at hfound
    obtain rfl : r = s := Option.some.inj hfound
    exact hab.1 (Option.some.inj (hparent.symm.trans hparent'))
  · rw [hchain, hchain', List.length_cons, List.length_cons]
    exact Nat.succ_le_succ hab.2

theorem Treelike.pairwise_children (x : TokenId) :
    (reg.children x).Pairwise (NoFarther reg) := by
  refine List.Pairwise.imp_of_mem (fun hy hz hne => ⟨hne, ?_⟩) (ht.nodup_children x)
  rw [ht.chain_of_mem_children hy, ht.chain_of_mem_children hz]
  exact Nat.le_refl _

/-- What stands on a way up has the rest of it as its own way up. -/
theorem Treelike.chain_suffix :
    ∀ r ∈ reg.records, ∀ x ∈ reg.chain r.id, reg.chain x <:+ reg.chain r.id := by
  refine ht.induction ?_ ?_
  · intro r hr hroot x hx
    rw [ht.chain_root hr hroot, List.mem_singleton] at hx
    subst hx
    exact List.suffix_refl _
  · intro r hr p hp hparent ih x hx
    rw [ht.chain_child hr hparent] at hx
    rcases List.mem_cons.1 hx with rfl | hx
    · exact List.suffix_refl _
    · rw [ht.chain_child hr hparent]
      exact (ih x hx).trans (List.suffix_cons _ _)

/-- A token is on the way up from its children. -/
theorem Treelike.mem_chain_of_child (hy : y ∈ reg.children x) : x ∈ reg.chain x := by
  obtain ⟨r, hr, -, hparent⟩ := mem_children.1 hy
  obtain ⟨p, hp, rfl, -⟩ := ht.parent r hr x hparent
  rw [ht.chain_cons hp]
  exact List.mem_cons_self

end

/-! ## The search -/

/-- The search from `x` has visited some tokens in this order, and has others to visit. -/
structure Frontier (reg : Registry) (x : TokenId) (visited queue : List TokenId) : Prop where
  listed : x :: visited.flatMap reg.children = visited ++ queue
  below : ∀ y ∈ visited.flatMap reg.children, x ∈ (reg.chain y).tail
  ordered : (visited ++ queue).Pairwise (NoFarther reg)

theorem frontier_start (reg : Registry) (x : TokenId) : Frontier reg x [] [x] where
  listed := rfl
  below _ hy := absurd hy List.not_mem_nil
  ordered := List.pairwise_singleton _ _

section
variable (ht : Treelike rank reg) {visited queue : List TokenId}
include ht

/-- What is below a token is registered and comes after it. -/
theorem Treelike.noFarther_of_below (hy : x ∈ (reg.chain y).tail) :
    y ∈ reg.records.map (fun t => t.id) ∧ NoFarther reg x y := by
  cases hf : reg.find? y with
  | none =>
    rw [chain_of_unregistered hf] at hy
    cases hy
  | some r =>
    obtain rfl : r.id = y := id_of_find? hf
    have hr := mem_records_of_find? hf
    have hnodup := ht.nodup_chain hr
    rw [ht.chain_cons hr, List.nodup_cons] at hnodup
    refine ⟨List.mem_map_of_mem hr, fun he => hnodup.1 (he ▸ hy), ?_⟩
    exact (ht.chain_suffix r hr x (List.mem_of_mem_tail hy)).length_le

/-- **Visiting one more token** lists its children behind all others. -/
theorem Treelike.frontier_step (hf : Frontier reg x visited (z :: queue)) :
    Frontier reg x (visited ++ [z]) (queue ++ reg.children z) := by
  have hlisted : x :: (visited ++ [z]).flatMap reg.children =
      visited ++ [z] ++ (queue ++ reg.children z) := by
    rw [List.flatMap_append, ← List.cons_append, hf.listed]
    simp
  have hbelow : ∀ y ∈ (visited ++ [z]).flatMap reg.children, x ∈ (reg.chain y).tail := by
    intro y hy
    rw [List.flatMap_append, List.mem_append] at hy
    rcases hy with hy | hy
    · exact hf.below y hy
    · have hz : z ∈ x :: visited.flatMap reg.children := by
        rw [hf.listed]
        exact List.mem_append_right _ List.mem_cons_self
      have hy : y ∈ reg.children z := by simpa using hy
      rw [ht.chain_of_mem_children hy, List.tail_cons]
      rcases List.mem_cons.1 hz with rfl | hz
      · exact ht.mem_chain_of_child hy
      · exact List.mem_of_mem_tail (hf.below z hz)
  refine ⟨hlisted, hbelow, ?_⟩
  rw [← hlisted, List.pairwise_cons]
  refine ⟨fun y hy => (ht.noFarther_of_below (hbelow y hy)).2, List.pairwise_flatMap.2 ⟨?_, ?_⟩⟩
  · exact fun a _ => ht.pairwise_children a
  · have hvisited : (visited ++ [z]).Pairwise (NoFarther reg) :=
      hf.ordered.sublist (by simp)
    exact hvisited.imp fun hab y hy z hz => ht.noFarther_children hab hy hz

/-- What is listed is listed once, and all but the start is registered. -/
theorem Treelike.length_listed_le (hf : Frontier reg x visited queue) :
    visited.length + queue.length ≤ reg.records.length + 1 := by
  have hnodup : (visited.flatMap reg.children).Nodup := by
    have hordered := hf.ordered
    rw [← hf.listed, List.pairwise_cons] at hordered
    exact hordered.2.imp And.left
  have hsub : visited.flatMap reg.children ⊆ reg.records.map (fun t => t.id) :=
    fun y hy => (ht.noFarther_of_below (hf.below y hy)).1
  have hle := (List.subperm_of_subset hnodup hsub).length_le
  have hlength := congrArg List.length hf.listed
  rw [List.length_map] at hle
  rw [List.length_cons, List.length_append] at hlength
  omega

end

/-- One round of the search: what is to be visited, and what was found. -/
def spread (reg : Registry) : List TokenId × List TokenId → Option (List TokenId × List TokenId)
  | ([], _) => none
  | (id :: queue, found) => some (queue ++ reg.children id, found ++ reg.children id)

/-- **The search ends**, one round for each token that it visits, and then everything that it has
listed was visited. -/
theorem Treelike.stops_spread (ht : Treelike rank reg) {fuel : Nat} {visited queue : List TokenId}
    (hf : Frontier reg x visited queue) (hfuel : reg.records.length + 1 ≤ visited.length + fuel)
    (found : List TokenId) :
    Stops (spread reg) (queue.length + (reg.descendantsFrom fuel queue).length) (queue, found)
        ([], found ++ reg.descendantsFrom fuel queue) ∧
      Frontier reg x (visited ++ queue ++ reg.descendantsFrom fuel queue) [] := by
  induction fuel generalizing visited queue found with
  | zero =>
    have hle := ht.length_listed_le hf
    cases queue with
    | nil => exact ⟨by simpa [descendantsFrom] using .here rfl, by simpa [descendantsFrom] using hf⟩
    | cons z queue =>
      rw [List.length_cons] at hle
      omega
  | succ fuel ih =>
    cases queue with
    | nil => exact ⟨by simpa [descendantsFrom] using .here rfl, by simpa [descendantsFrom] using hf⟩
    | cons z queue =>
      have hnext := ht.frontier_step hf
      have hfuel' : reg.records.length + 1 ≤ (visited ++ [z]).length + fuel := by
        rw [List.length_append, List.length_singleton]
        omega
      obtain ⟨hstops, hend⟩ := ih hnext hfuel' (found ++ reg.children z)
      rw [descendantsFrom]
      refine ⟨?_, ?_⟩
      · have hrounds : (z :: queue).length +
            (reg.children z ++ reg.descendantsFrom fuel (queue ++ reg.children z)).length =
              (queue ++ reg.children z).length +
                (reg.descendantsFrom fuel (queue ++ reg.children z)).length + 1 := by
          simp only [List.length_cons, List.length_append]
          omega
        rw [hrounds, ← List.append_assoc]
        exact .round rfl hstops
      · simpa using hend

/-! ## Descendants -/

section
variable (ht : Treelike rank reg)
include ht

theorem Treelike.frontier_descendants (x : TokenId) :
    Frontier reg x (x :: reg.descendants x) [] :=
  (ht.stops_spread (frontier_start reg x) (by simp) []).2

/-- The search finds the children of the start and of what it finds. -/
theorem Treelike.descendants_eq (x : TokenId) :
    reg.descendants x = (x :: reg.descendants x).flatMap reg.children := by
  have hlisted := (ht.frontier_descendants x).listed
  rw [List.append_nil] at hlisted
  exact (List.cons.inj hlisted).2.symm

/-- **A token descends from those on its way up and from no others.** -/
theorem Treelike.mem_descendants (x y : TokenId) :
    y ∈ reg.descendants x ↔ x ∈ (reg.chain y).tail := by
  refine ⟨fun hy => ?_, fun hx => ?_⟩
  · rw [ht.descendants_eq x] at hy
    exact (ht.frontier_descendants x).below y hy
  · have hfound : ∀ r ∈ reg.records, x ∈ (reg.chain r.id).tail → r.id ∈ reg.descendants x := by
      refine ht.induction ?_ ?_
      · intro r hr hroot hx
        rw [ht.chain_root hr hroot] at hx
        cases hx
      · intro r hr p hp hparent ih hx
        rw [ht.chain_child hr hparent, List.tail_cons, ht.chain_cons hp, List.mem_cons] at hx
        have hchild : r.id ∈ reg.children p.id := mem_children.2 ⟨r, hr, rfl, hparent⟩
        rw [ht.descendants_eq x]
        refine List.mem_flatMap.2 ⟨p.id, ?_, hchild⟩
        rcases hx with rfl | hx
        · exact List.mem_cons_self
        · exact List.mem_cons_of_mem _ (ih hx)
    obtain ⟨r, hr, rfl⟩ := List.mem_map.1 (ht.noFarther_of_below hx).1
    exact hfound r hr hx

theorem Treelike.mem_descendants_iff (x y : TokenId) :
    y ∈ reg.descendants x ↔ y ≠ x ∧ x ∈ reg.chain y := by
  rw [ht.mem_descendants]
  refine ⟨fun hx => ⟨Ne.symm (ht.noFarther_of_below hx).2.1, List.mem_of_mem_tail hx⟩, ?_⟩
  rintro ⟨hne, hx⟩
  cases hf : reg.find? y with
  | none =>
    rw [chain_of_unregistered hf] at hx
    cases hx
  | some r =>
    obtain rfl : r.id = y := id_of_find? hf
    rw [ht.chain_cons (mem_records_of_find? hf), List.mem_cons] at hx
    exact hx.resolve_left fun he => hne he.symm

theorem Treelike.pairwise_descendants (x : TokenId) :
    (reg.descendants x).Pairwise (NoFarther reg) := by
  have hordered := (ht.frontier_descendants x).ordered
  rw [List.append_nil, List.pairwise_cons] at hordered
  exact hordered.2

/-- What is no farther from its root is no deeper. -/
theorem Treelike.depth_le {r s : Token} (hr : r ∈ reg.records) (hs : s ∈ reg.records)
    (h : NoFarther reg r.id s.id) : r.depth ≤ s.depth := by
  rw [UInt32.le_iff_toNat_le, ht.depth_eq r hr, ht.depth_eq s hs]
  have := h.2
  omega

end

/-! ## The order of the records -/

/-- The registry with its records in another order. -/
def reordered (reg : Registry) (order : List Token) : Registry := { reg with records := order }

section
variable {order : List Token} (ht : Treelike rank reg) (hp : order.Perm reg.records)
include ht hp

theorem Treelike.reordered : Treelike rank (reg.reordered order) where
  distinct := by
    have hperm : ((reg.reordered order).grants.map Grant.id).Perm (reg.grants.map Grant.id) :=
      (hp.map _).map _
    exact hperm.nodup_iff.2 ht.distinct
  parent r hr id hid := by
    obtain ⟨p, hmem, hp'⟩ := ht.parent r (hp.mem_iff.1 hr) id hid
    exact ⟨p, hp.mem_iff.2 hmem, hp'⟩
  root r hr := ht.root r (hp.mem_iff.1 hr)

theorem Treelike.find?_reordered (id : TokenId) :
    (reg.reordered order).find? id = reg.find? id := by
  cases hf : reg.find? id with
  | none =>
    rw [find?_eq_none] at hf ⊢
    exact fun r hr => hf r (hp.mem_iff.1 hr)
  | some r =>
    obtain rfl : r.id = id := id_of_find? hf
    exact (ht.reordered hp).find? (hp.mem_iff.2 (mem_records_of_find? hf))

theorem Treelike.chain_reordered (id : TokenId) :
    (reg.reordered order).chain id = reg.chain id := by
  have hfrom : ∀ fuel id, (reg.reordered order).chainFrom fuel id = reg.chainFrom fuel id := by
    intro fuel
    induction fuel with
    | zero => exact fun _ => rfl
    | succ fuel ih =>
      intro id
      simp only [chainFrom, ht.find?_reordered hp, ih]
  rw [chain, chain, hfrom]
  exact congrArg (reg.chainFrom · id) hp.length_eq

end

/-- **The two ways through the lineage are dual.** After every run with fresh identifiers and tags
that tell, the loop on the way up from any identifier ends, and from a registered token its way goes
from parent to parent to a root, passes no token twice and has as many steps as the depth counts,
unless the depth was cut off. In whatever order the records stand, the search for descendants ends
too: it lists exactly the tokens with the start on their way up, each once, and none before a
shallower one. -/
theorem lineage_dual (issuer : Issuer) (calls : List (Timestamp × Call))
    (fresh : (history (run issuer calls).trace).Fresh)
    (texts : (history (run issuer calls).trace).TextsFit)
    (tags : (history (run issuer calls).trace).CollisionFree issuer.sign) :
    let reg := (run issuer calls).state
    (∀ id, Stops (climb reg) (reg.chain id).length (reg.find? id, []) (none, reg.chain id)) ∧
      (∀ id, reg.find? id = none → reg.chain id = []) ∧
      (∀ id r, reg.find? id = some r → Upward reg r (reg.chain id)) ∧
      ∀ order, order.Perm reg.records → ∀ x,
        let found := (reg.reordered order).descendants x
        Stops (spread (reg.reordered order)) (1 + found.length) ([x], []) ([], found) ∧
          (∀ y, y ∈ found ↔ y ≠ x ∧ x ∈ reg.chain y) ∧
          found.Nodup ∧
          found.Pairwise fun y z =>
            ∃ r s, reg.find? y = some r ∧ reg.find? z = some s ∧ r.depth ≤ s.depth := by
  intro reg
  obtain ⟨rank, ht⟩ := treelike_run calls fresh (TokenHistory.tagsTell texts tags)
  refine ⟨ht.stops_climb, fun id => chain_of_unregistered, ?_, ?_⟩
  · intro id r hf
    obtain rfl : r.id = id := id_of_find? hf
    exact ht.upward r (mem_records_of_find? hf)
  · intro order hp x found
    have ht' := ht.reordered hp
    have hmem : ∀ y, y ∈ found ↔ y ≠ x ∧ x ∈ reg.chain y := by
      intro y
      rw [← ht.chain_reordered hp y]
      exact ht'.mem_descendants_iff x y
    have hordered := ht'.pairwise_descendants x
    refine ⟨?_, hmem, hordered.imp And.left, ?_⟩
    · exact (ht'.stops_spread (frontier_start (reg.reordered order) x) (Nat.le_add_left _ _) []).1
    · have hregistered : ∀ y ∈ found, ∃ r ∈ (reg.reordered order).records, r.id = y := by
        intro y hy
        have hbelow := (ht'.mem_descendants x y).1 hy
        exact List.mem_map.1 (ht'.noFarther_of_below hbelow).1
      refine List.Pairwise.imp_of_mem (fun {y z} hy hz h => ?_) hordered
      obtain ⟨r, hr, rfl⟩ := hregistered y hy
      obtain ⟨s, hs, rfl⟩ := hregistered z hz
      refine ⟨r, s, ?_, ?_, ht'.depth_le hr hs h⟩
      · exact ht.find? (hp.mem_iff.1 hr)
      · exact ht.find? (hp.mem_iff.1 hs)

/-! ## A small tree -/

/-- An identifier of the small tree. -/
def branchId (n : UInt8) : TokenId := ⟨.ofFn fun _ => n⟩

/-- The first child of the root of the small runs. -/
def firstBranch : Token :=
  (narrowedGrant (run sampleIssuer (sampleCalls.take 1)).state 105 (branchId 1)
    (.ofList [.measurement]) sampleRoot).sign .copying

/-- The root has two children, and the first of them has a child. -/
def branchingCalls : List (Timestamp × Call) := [
  (100, .create sampleRoot.id sampleRequest none),
  (105, .attenuate (branchId 1) sampleRoot (.ofList [.measurement])),
  (106, .attenuate (branchId 2) sampleRoot (.ofList [.compute])),
  (107, .attenuate (branchId 3) firstBranch (.ofList [.measurement]))]

/-- The last record comes first, and still the children of the root are found before its
grandchild. -/
theorem lineage_dual_branching :
    let reg := (run sampleIssuer branchingCalls).state
    let found := (reg.reordered reg.records.reverse).descendants sampleRoot.id
    (reg.chain (branchId 3) = [branchId 3, branchId 1, sampleRoot.id] ∧
        ∃ r, reg.find? (branchId 3) = some r ∧ Upward reg r (reg.chain (branchId 3))) ∧
      found = [branchId 2, branchId 1, branchId 3] ∧
      ∀ y, y ∈ found ↔ y ≠ sampleRoot.id ∧ sampleRoot.id ∈ reg.chain y := by
  intro reg found
  obtain ⟨-, -, hupward, hsearch⟩ := lineage_dual sampleIssuer branchingCalls
    (by decide +kernel) (by decide +kernel) (by decide +kernel)
  obtain ⟨-, hmem, -, -⟩ := hsearch _ reg.records.reverse_perm sampleRoot.id
  have hregistered : (reg.find? (branchId 3)).isSome := by decide +kernel
  obtain ⟨r, hr⟩ := Option.isSome_iff_exists.1 hregistered
  exact ⟨⟨by decide +kernel, r, hr, hupward _ r hr⟩, by decide +kernel, hmem⟩

end QubitWarden.Registry
