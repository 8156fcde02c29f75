import QubitWarden.Digest.Sha256
import QubitWarden.Proofs.Merkle.Preimages

/-!
# No proof for what is not in the tree

Whoever makes up a proof that leads to the root has followed the tree. The argument goes from the
root down: the bytes hashed last are those of the root, so what was reached one step earlier is one
of its two children, and so on to the leaves. A leaf is no inner node, so the way down has as many
steps as the tree has levels above the leaves.

* `mem_of_pair`: one step down.
* `Built.mem_of_replay`: all steps, from the root to the level on which the proof starts.
* `verifyAgainst_sound`: a record that a root vouches for is one of the records.
-/

namespace QubitWarden.Merkle

open Accumulator

section
variable {H : Hash} {padding : Padding} {level : List Digest} {above : List (List Digest)}

/-- A node whose step hashes a pair of the level is on the level, at the place of the pair that the
side says unless the pair was completed there by its left node. -/
theorem mem_of_pair {i : Nat} {node : Digest} {step : ProofStep}
    (hpair : (pairBytes padding level)[i]? = some (step.bytes node)) (hne : node ≠ sentinel) :
    ∃ j, level[j]? = some node ∧
      (padding = .sentinel ∨ step.side.bit + 2 * i < level.length → j = step.side.bit + 2 * i) := by
  rw [getElem?_pairBytes] at hpair
  obtain ⟨left, hleft, hbytes⟩ := Option.map_eq_some_iff.1 hpair
  obtain ⟨side, sibling⟩ := step
  cases side with
  | right =>
    obtain ⟨rfl, -⟩ := nodeBytes_inj hbytes
    exact ⟨2 * i, hleft, fun _ => (Nat.zero_add _).symm⟩
  | left =>
    obtain ⟨-, hnode⟩ := nodeBytes_inj hbytes
    cases hright : level[2 * i + 1]? with
    | some right =>
      rw [hright] at hnode
      exact ⟨2 * i + 1, hnode ▸ hright, fun _ => Nat.add_comm _ _⟩
    | none =>
      rw [hright] at hnode
      cases padding with
      | sentinel => exact absurd hnode.symm hne
      | duplicateLast =>
        refine ⟨2 * i, hnode ▸ hleft, fun h => ?_⟩
        have hlen := List.getElem?_eq_none_iff.1 hright
        rcases h with h | h
        · cases h
        · exact absurd h (by simp only [Side.bit]; omega)

theorem getElem?_topLevel (level : List Digest) (above : List (List Digest)) :
    (level :: above)[above.length]? = some (topLevel level above) := by
  induction above generalizing level with
  | nil => rfl
  | cons next rest ih => rw [topLevel_cons, ← ih]; rfl

/-- **From the root down**: steps that lead from a node to the root start on the level from which
as many steps lead up. -/
theorem Built.mem_of_replay (hb : Built H padding level above) {hashed : List Bytes}
    (hsep : Separating H hashed) (hinner : ∀ x ∈ innerBytes padding level above, x ∈ hashed)
    (hleaves : ∀ leaf ∈ level, ∃ record, leafBytes record ∈ hashed ∧ leafHash H record = leaf)
    {steps : List ProofStep} {node : Digest} (hnode : ∃ x ∈ hashed, H x = node)
    (hsteps : ∀ x ∈ stepsBytes H node steps, x ∈ hashed)
    (hroot : (topLevel level above).head? = some (steps.foldl (ProofStep.parent H) node)) :
    ∃ k lower j, k + steps.length = above.length ∧ (level :: above)[k]? = some lower ∧
      lower[j]? = some node ∧ (padding = .sentinel ∨ spelled steps < lower.length →
        j = spelled steps) := by
  induction steps generalizing node with
  | nil =>
    refine ⟨above.length, topLevel level above, 0, rfl, getElem?_topLevel level above, ?_,
      fun _ => rfl⟩
    rwa [← List.head?_eq_getElem?]
  | cons step rest ih =>
    have hstep : step.bytes node ∈ hashed := hsteps _ List.mem_cons_self
    have hparent := step.parent_eq H node
    obtain ⟨k, upper, i, hk, hupper, hi, hspelled⟩ := ih ⟨_, hstep, hparent.symm⟩
      (fun x hx => hsteps x (List.mem_cons_of_mem _ hx)) hroot
    cases k with
    | zero =>
      -- More steps than levels: an inner node would be a leaf.
      cases hupper
      obtain ⟨record, hrecord, hleaf⟩ := hleaves _ (List.mem_of_getElem? hi)
      rw [hparent] at hleaf
      have hbytes := hsep.inj _ hrecord _ hstep hleaf
      obtain ⟨side, sibling⟩ := step
      cases side <;> exact absurd hbytes (leafBytes_ne_nodeBytes _ _ _)
    | succ k =>
      obtain ⟨lower, bytes, hlower, rfl, hbytes, hmem, hdigest⟩ := hb.pair_of_upper hupper hi
      obtain rfl := hsep.inj _ (hinner _ hmem) _ hstep (hdigest.trans hparent)
      obtain ⟨x, hx, rfl⟩ := hnode
      obtain ⟨j, hj, hside⟩ := mem_of_pair hbytes (hsep.ne_sentinel x hx)
      refine ⟨k, lower, j, by rw [List.length_cons]; omega, hlower, hj, fun h => ?_⟩
      have hup : padding = .sentinel ∨ spelled rest < (nextLevel H padding lower).length := by
        rw [length_nextLevel]
        rw [spelled] at h
        exact h.imp_right fun h => by omega
      rw [hspelled hup] at hside
      exact hside h

end

section
variable {H : Hash} {padding : Padding} {records : List Bytes} {p : InclusionProof} {record : Bytes}

/-- A tree with a root that a proof leads to is not empty. -/
theorem head_of_verifyAgainst {hashed : List Bytes} (hsep : Separating H hashed)
    (hproof : ∀ x ∈ p.bytes H record, x ∈ hashed)
    (hv : p.verifyAgainst H (ofRecords H padding records).root record = true) :
    (topLevel (records.map (leafHash H)) (ofRecords H padding records).above).head? =
      some (p.steps.foldl (ProofStep.parent H) (leafHash H record)) := by
  have hreplay := (Bool.and_eq_true_iff.1 hv).2
  rw [decide_eq_true_eq, root_eq, leaves_ofRecords] at hreplay
  obtain ⟨x, hx, hdigest⟩ := replay_mem p.steps
    ⟨_, hproof _ List.mem_cons_self, rfl⟩ fun x hx => hproof x (List.mem_cons_of_mem _ hx)
  cases htop : (topLevel (records.map (leafHash H)) (ofRecords H padding records).above).head? with
  | some node =>
    rw [htop] at hreplay
    exact congrArg some hreplay.symm
  | none =>
    rw [htop] at hreplay
    exact absurd (hdigest.trans hreplay) (hsep.ne_sentinel x hx)

/-- A record with a proof stands among the records, where the proof says unless the tree does not
reach there, and the proof has one step for each level. -/
theorem getElem?_of_verifyAgainst
    (hsep : Separating H (treeBytes H padding records ++ p.bytes H record))
    (hv : p.verifyAgainst H (ofRecords H padding records).root record = true) :
    p.steps.length = (ofRecords H padding records).height ∧ ∃ i, records[i]? = some record ∧
      (padding = .sentinel ∨ spelled p.steps < records.length → i = spelled p.steps) := by
  have hproof : ∀ x ∈ p.bytes H record, x ∈ treeBytes H padding records ++ p.bytes H record :=
    fun x hx => List.mem_append_right _ hx
  have htree : ∀ x ∈ treeBytes H padding records,
      x ∈ treeBytes H padding records ++ p.bytes H record := fun x hx => List.mem_append_left _ hx
  have hleaf := hproof _ List.mem_cons_self
  have hb := built_ofRecords H padding records
  obtain ⟨k, lower, i, hk, hlower, hi, hspelled⟩ := hb.mem_of_replay hsep
    (fun x hx => htree x (List.mem_append_right _ hx))
    (fun leaf hmem => by
      obtain ⟨r, hr, rfl⟩ := List.mem_map.1 hmem
      exact ⟨r, htree _ (leafBytes_mem_treeBytes hr), rfl⟩)
    ⟨_, hleaf, rfl⟩ (fun x hx => hproof x (List.mem_cons_of_mem _ hx))
    (head_of_verifyAgainst hsep hproof hv)
  cases k with
  | zero =>
    cases hlower
    refine ⟨by rw [height, ← hk, Nat.zero_add], i, ?_, by simpa using hspelled⟩
    rw [List.getElem?_map] at hi
    obtain ⟨r, hr, hdigest⟩ := Option.map_eq_some_iff.1 hi
    have hmem := htree _ (leafBytes_mem_treeBytes (List.mem_of_getElem? hr))
    rw [hr, leafBytes_inj (hsep.inj _ hmem _ hleaf hdigest)]
  | succ k =>
    -- Fewer steps than levels: the leaf would be an inner node.
    obtain ⟨lower, bytes, -, -, hbytes, hinner, hdigest⟩ := hb.pair_of_upper hlower hi
    obtain ⟨left, right, rfl⟩ := exists_nodeBytes (List.mem_of_getElem? hbytes)
    exact absurd (hsep.inj _ hleaf _ (htree _ (List.mem_append_right _ hinner)) hdigest.symm)
      (leafBytes_ne_nodeBytes _ _ _)

/-- **A root vouches only for the records of its tree.** Whatever a proof says, if it leads from
`record` to the root of the tree of `records`, then `record` is one of them and the proof has a step
for every level above the leaves; where odd levels are completed with the sentinel, the steps spell
the position of the record. -/
theorem verifyAgainst_sound (H : Hash) (padding : Padding) (records : List Bytes)
    (p : InclusionProof) (record : Bytes)
    (hsep : Separating H (treeBytes H padding records ++ p.bytes H record))
    (hv : p.verifyAgainst H (ofRecords H padding records).root record = true) :
    records ≠ [] ∧ record ∈ records ∧
      p.steps.length = (ofRecords H padding records).height ∧
      (padding = .sentinel → records[spelled p.steps]? = some record) := by
  obtain ⟨hlen, i, hi, hspelled⟩ := getElem?_of_verifyAgainst hsep hv
  have hmem := List.mem_of_getElem? hi
  refine ⟨List.ne_nil_of_mem hmem, hmem, hlen, fun hpad => ?_⟩
  rw [← hspelled (.inl hpad)]
  exact hi

end

/-- A proof for the last of three records, in a tree that the sentinel completes. -/
def thirdOfThree : InclusionProof where
  leafIndex := 2
  leafHash := leafHash sha256 [3]
  root := sentinel
  steps := [⟨.right, sentinel⟩,
    ⟨.left, nodeHash sha256 (leafHash sha256 [1]) (leafHash sha256 [2])⟩]

theorem verifyAgainst_sound_third :
    let records : List Bytes := [[1], [2], [3]]
    let acc := ofRecords sha256 .sentinel records
    let p := thirdOfThree
    Separating sha256 (treeBytes sha256 .sentinel records ++ p.bytes sha256 [3]) ∧
      p.verifyAgainst sha256 acc.root [3] = true ∧
      records ≠ [] ∧ [3] ∈ records ∧ p.steps.length = acc.height ∧
        records[spelled p.steps]? = some [3] := by
  intro records acc p
  have h : Separating sha256 (treeBytes sha256 .sentinel records ++ p.bytes sha256 [3]) ∧
      p.verifyAgainst sha256 acc.root [3] = true := by
    decide +kernel
  obtain ⟨hne, hmem, hlen, hplace⟩ := verifyAgainst_sound sha256 .sentinel records p [3] h.1 h.2
  exact ⟨h.1, h.2, hne, hmem, hlen, hplace rfl⟩

-- Where the last node completes an odd level, the sides may also spell the position after it.
example :
    let steps : List ProofStep := [⟨.left, leafHash sha256 [3]⟩,
      ⟨.left, nodeHash sha256 (leafHash sha256 [1]) (leafHash sha256 [2])⟩]
    let p : InclusionProof := ⟨3, leafHash sha256 [3], sentinel, steps⟩
    spelled steps = 3 ∧ p.verifyAgainst sha256
      (ofRecords sha256 .duplicateLast [[1], [2], [3]]).root [3] = true := by
  decide +kernel

end QubitWarden.Merkle
