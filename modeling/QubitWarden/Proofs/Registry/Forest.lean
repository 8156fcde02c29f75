import QubitWarden.Proofs.Registry.Provenance

/-!
# The delegation forest

A delegated token never exceeds the token it was delegated from, and it is never registered without
it. Both ways to delegate read the presented copy of the parent, so tags have to tell that the copy
agrees with the record; a collection takes no parent before its children, because no child outlives
its parent.

* `Contained`: what a child may not exceed; `Delegated.contained`.
* `Forest`: the invariant, kept by every exchange (`forest_effect`, `forest_run`).
* `Forest.checkLineage`: in a forest no record fails the check against its parent.
-/

namespace QubitWarden.Registry

variable {issuer : Issuer} {policy : TokenPolicy} {reg after : Registry} {now : Timestamp}
  {h told : TokenHistory}

/-- A grant that does not exceed the one it was delegated from. -/
structure Contained (policy : TokenPolicy) (child parent : Grant) : Prop where
  nonempty : child.capabilities.isEmpty = false
  subset : child.capabilities.isSubset parent.capabilities = true
  expiresAt : child.expiresAt ≤ parent.expiresAt
  uses : ∀ limit, parent.maxUses = some limit → ∃ n, child.maxUses = some n ∧ n ≤ limit
  depth : child.depth = Saturating.succ32 parent.depth
  depth_le : child.depth ≤ policy.maxDepth

/-- Every registered grant that names a parent is contained in a registered grant of that name. -/
def Forest (policy : TokenPolicy) (reg : Registry) : Prop :=
  ∀ child ∈ reg.grants, ∀ id, child.parent = some id →
    ∃ parent ∈ reg.grants, parent.id = id ∧ Contained policy child parent

theorem sub32_le (a b : UInt32) : Saturating.sub32 a b ≤ a := by
  rw [UInt32.le_iff_toNat_le, Saturating.toNat_sub32]
  exact Nat.sub_le _ _

/-- What is delegated from a copy that agrees with its record is contained in the record. -/
theorem Delegated.contained {source record : Token} {g : Grant}
    (hd : Delegated policy reg source g) (found : reg.find? source.id = some record)
    (same : record.toGrant = source.toGrant) : Contained policy g record.toGrant where
  nonempty := hd.nonempty
  subset := same ▸ hd.subset
  expiresAt := same ▸ hd.expiresAt
  uses limit hlimit := by
    have hleft : reg.remainingUses source.id = some (Saturating.sub32 limit record.useCount) := by
      rw [remainingUses, found, Option.bind_some, Token.remainingUses, hlimit, Option.map_some]
    obtain ⟨n, hn, hle⟩ := hd.uses _ hleft
    exact ⟨n, hn, UInt32.le_trans hle (sub32_le limit record.useCount)⟩
  depth := same ▸ hd.depth
  depth_le := hd.depth_le

theorem forest_effect (hp : Provenance issuer.sign h reg) (fresh : (h ++ told).Fresh)
    (tags : (h ++ told).TagsTell issuer.sign) (e : Effect issuer reg now told after)
    (hf : Forest issuer.policy reg) : Forest issuer.policy after := by
  intro child hchild id hid
  obtain ⟨g, shown, origin, rfl, hgrants⟩ | ⟨rfl, hgrants⟩ | ⟨-, -, hgrants⟩ :=
    e.grants_cases hp fresh
  · rw [hgrants, List.mem_append, List.mem_singleton] at hchild
    -- An old parent is still registered, and the new grant has an old parent.
    suffices hold : ∃ parent ∈ reg.grants, parent.id = id ∧ Contained issuer.policy child parent by
      obtain ⟨parent, hparent, hcontained⟩ := hold
      exact ⟨parent, hgrants ▸ List.mem_append_left _ hparent, hcontained⟩
    rcases hchild with hchild | rfl
    · exact hf child hchild id hid
    · cases origin with
      | root hroot => rw [hroot] at hid; cases hid
      | @delegated source record _ accepted delegated =>
        have same : record.toGrant = source.toGrant :=
          hp.accepted tags (by simp [TokenHistory.presented]) accepted
        obtain rfl : source.id = id := Option.some.inj (delegated.parent.symm.trans hid)
        exact ⟨record.toGrant, mem_grants_of_find? accepted.found, id_of_find? accepted.found,
          delegated.contained accepted.found same⟩
  · -- A child that is kept has not expired, so its parent has not either.
    rw [hgrants, List.mem_filter, decide_eq_true_eq] at hchild
    obtain ⟨parent, hparent, hpid, hcontained⟩ := hf child hchild.1 id hid
    refine ⟨parent, ?_, hpid, hcontained⟩
    rw [hgrants, List.mem_filter, decide_eq_true_eq]
    exact ⟨hparent, UInt64.le_trans hchild.2 hcontained.expiresAt⟩
  · rw [hgrants] at hchild ⊢
    exact hf child hchild id hid

theorem forest_run (calls : List (Timestamp × Call))
    (fresh : (history (run issuer calls).trace).Fresh)
    (tags : (history (run issuer calls).trace).TagsTell issuer.sign) :
    Forest issuer.policy (run issuer calls).state :=
  invariant_run (P := fun _ reg => Forest issuer.policy reg) (fun _ hchild => by cases hchild)
    forest_effect calls fresh tags

/-! ## The check against the parent -/

/-- The record of a parent, and what its child may not exceed. -/
theorem Forest.parent (hf : Forest policy reg) (hd : reg.Distinct) {child : Token}
    (hchild : child ∈ reg.records) {id : TokenId} (hid : child.parent = some id) :
    ∃ parent, reg.find? id = some parent ∧ Contained policy child.toGrant parent.toGrant := by
  obtain ⟨g, hg, rfl, hcontained⟩ := hf child.toGrant (mem_grants.2 ⟨child, hchild, rfl⟩) id hid
  obtain ⟨parent, hparent, rfl⟩ := find?_of_mem_grants hd hg
  exact ⟨parent, hparent, hcontained⟩

theorem Forest.checkLineage (hf : Forest policy reg) (hd : reg.Distinct) {record : Token}
    (hr : record ∈ reg.records) : reg.checkLineage record = .ok () := by
  unfold Registry.checkLineage
  cases hid : record.parent with
  | none => rfl
  | some id =>
    obtain ⟨parent, hparent, hcontained⟩ := hf.parent hd hr hid
    rw [Option.bind_some, hparent]
    exact if_pos ⟨hcontained.subset, hcontained.depth⟩

/-- **Every registered token stays within its registered parent**, whatever was asked, presented
and dropped before. So no token is refused for its lineage, and the check against the parent passes
over a record only if the record names none. -/
theorem delegations_contained (issuer : Issuer) (calls : List (Timestamp × Call))
    (fresh : (history (run issuer calls).trace).Fresh)
    (texts : (history (run issuer calls).trace).TextsFit)
    (tags : (history (run issuer calls).trace).CollisionFree issuer.sign) :
    let reg := (run issuer calls).state
    (∀ child ∈ reg.records, ∀ id, child.parent = some id →
      ∃ parent, reg.find? id = some parent ∧
        Contained issuer.policy child.toGrant parent.toGrant) ∧
      (∀ record ∈ reg.records, record.parent.bind reg.find? = none → record.parent = none) ∧
      ∀ now t, reg.evaluate issuer.sign now t ≠ .error .lineageViolation := by
  intro reg
  have tell := TokenHistory.tagsTell texts tags
  have hd : reg.Distinct := (registration_run calls fresh tell).distinct
  have hf : Forest issuer.policy reg := forest_run calls fresh tell
  refine ⟨fun child hchild id hid => hf.parent hd hchild hid, ?_, ?_⟩
  · intro record hr hnone
    cases hid : record.parent with
    | none => rfl
    | some id =>
      obtain ⟨parent, hparent, -⟩ := hf.parent hd hr hid
      rw [hid, Option.bind_some, hparent] at hnone
      cases hnone
  · intro now t hviolation
    cases refused_of_evaluate hviolation with
    | lineage hfound hlineage =>
      exact hlineage (hf.checkLineage hd (mem_records_of_find? hfound))

/-! ## A small run -/

/-- Signs by copying, with the default limits. -/
def sampleIssuer : Issuer := ⟨.copying, {}⟩

/-- What the root token of the small runs is asked to grant: two uses within a minute. -/
def sampleRequest : TokenRequest where
  capabilities := .ofList [.measurement, .compute]
  tenant := "lab"
  ttl := some 60
  maxUses := some 2

/-- The root token as it is issued at second 100. -/
def sampleRoot : Token := (rootGrant {} 100 default sampleRequest).sign .copying

/-- The root is used once and delegated from, while the clock goes back and forth. -/
def sampleCalls : List (Timestamp × Call) := [
  (100, .create sampleRoot.id sampleRequest none),
  (110, .use sampleRoot),
  (105, .attenuate ⟨.ofFn fun _ => 1⟩ sampleRoot (.ofList [.measurement])),
  (160, .collectExpired)]

theorem delegations_contained_sample :
    let reg := (run sampleIssuer sampleCalls).state
    (∃ child ∈ reg.records, child.parent = some sampleRoot.id ∧ child.maxUses = some 1 ∧
      ∃ parent, reg.find? sampleRoot.id = some parent ∧
        Contained sampleIssuer.policy child.toGrant parent.toGrant) ∧
      ∀ now t, reg.evaluate sampleIssuer.sign now t ≠ .error .lineageViolation := by
  intro reg
  obtain ⟨hcontained, -, hlineage⟩ := delegations_contained sampleIssuer sampleCalls
    (by decide +kernel) (by decide +kernel) (by decide +kernel)
  have hchild : ∃ child ∈ reg.records, child.parent = some sampleRoot.id ∧
      child.maxUses = some 1 := by decide +kernel
  obtain ⟨child, hmem, hparent, huses⟩ := hchild
  exact ⟨⟨child, hmem, hparent, huses, hcontained child hmem _ hparent⟩, hlineage⟩

end QubitWarden.Registry
