import QubitWarden.Proofs.Qubit.Allocator

/-!
# Purging before reuse

A qubit that was released with a reset is withheld: it waits for its reset or is out of service, and
no tenant gets it. The completion of the reset ends this. So does a restoration after the qubit was
taken out of service while it waited, and then it was never purged.

* `Unpurged`: a release with a reset, with what happened since, and no completion of the reset.
* `Pool.Effect.withheld`: nothing but a completed reset or a restoration ends the withholding.
* `withheld_until_purged`: without a restoration, an unpurged qubit is withheld in every run.
* `restored_unpurged`: with one, the next tenant gets the qubit as the last one left it.
-/

namespace QubitWarden

/-- The qubit was released with a reset, the rest of the history happened since, and the reset was
not completed. -/
structure Unpurged (id : QubitId) (h since : QubitHistory) : Prop where
  released : ∃ before tenant ids, h = before ++ .released tenant ids true :: since ∧ id ∈ ids
  unpurged : ∀ ids, .purged ids ∈ since → id ∉ ids

variable {id : QubitId}

/-- The last fact is the release, or it happened to the unpurged qubit. -/
theorem Unpurged.concat {h since : QubitHistory} {fact : QubitFact}
    (hu : Unpurged id (h ++ [fact]) since) :
    (since = [] ∧ ∃ tenant ids, fact = .released tenant ids true ∧ id ∈ ids) ∨
      ∃ earlier, since = earlier ++ [fact] ∧ Unpurged id h earlier := by
  obtain ⟨⟨before, tenant, ids, heq, hid⟩, hpurged⟩ := hu
  rcases split_concat heq with ⟨rfl, -, rfl⟩ | ⟨earlier, rfl, rfl⟩
  · exact .inl ⟨rfl, tenant, ids, rfl, hid⟩
  · refine .inr ⟨earlier, rfl, ⟨before, tenant, ids, rfl, hid⟩, ?_⟩
    intro purged hmem
    exact hpurged purged (List.mem_append_left _ hmem)

namespace Pool

variable {p after : Pool} {now : Timestamp} {told h : QubitHistory}

/-- There is such a qubit, and it is neither free nor allocated. -/
def Withheld (p : Pool) (id : QubitId) : Prop :=
  ∃ q, p.find? id = some q ∧ q.state ≠ .free ∧ q.state ≠ .allocated

theorem Happened.withheld_of_released {tenant : Tenant} {ids : List QubitId}
    (hh : Happened p now (.released tenant ids true) after) (hid : id ∈ ids) :
    after.Withheld id := by
  obtain ⟨q, -, -, -, hf, -⟩ := hh.find?_of_mem hid
  refine ⟨_, hf, ?_, ?_⟩ <;> simp [QubitFact.change, released, Qubit.clear]

/-- **Only a completed reset or a restoration ends the withholding.** -/
theorem Effect.withheld (he : Effect p now told after) (hw : p.Withheld id)
    (hpurged : ∀ ids, .purged ids ∈ told → id ∉ ids) (hrestored : .restored id ∉ told) :
    after.Withheld id ∧ ∀ tenant ids, .given tenant ids ∈ told → id ∉ ids := by
  obtain ⟨q, hf, hfree, hallocated⟩ := hw
  cases he with
  | none hqubits =>
    refine ⟨⟨q, ?_, hfree, hallocated⟩, fun _ _ hmem => by cases hmem⟩
    rw [find?_congr hqubits, hf]
  | @told fact _ hh =>
    by_cases hid : id ∈ fact.ids
    · obtain ⟨r, hr, -, hadmits, hafter, -⟩ := hh.find?_of_mem hid
      rw [hf] at hr
      cases hr
      cases fact with
      | given tenant ids => exact absurd hadmits hfree
      | released tenant ids reset => exact absurd hadmits hallocated
      | purged ids => exact absurd hid (hpurged ids (List.mem_singleton.2 rfl))
      | withdrawn other target owner =>
        -- From one state out of service, or from a pending reset, to another.
        have htarget : target.isOffline = true := hadmits.1
        refine ⟨⟨_, hafter, ?_, ?_⟩, by simp⟩
        · rintro rfl
          cases htarget
        · rintro rfl
          cases htarget
      | restored other =>
        cases List.mem_singleton.1 hid
        exact absurd (List.mem_singleton.2 rfl) hrestored
    · refine ⟨⟨q, ?_, hfree, hallocated⟩, ?_⟩
      · rw [hh.find?_of_not_mem hid, hf]
      · intro tenant ids hmem
        cases List.mem_singleton.1 hmem
        exact hid

/-- What holds of a qubit that was released with a reset and not purged or restored since. -/
def Withholds (id : QubitId) (h : QubitHistory) (p : Pool) : Prop :=
  ∀ since, Unpurged id h since → .restored id ∉ since →
    p.Withheld id ∧ ∀ tenant ids, .given tenant ids ∈ since → id ∉ ids

theorem Effect.withholds (he : Effect p now told after) (hp : Withholds id h p) :
    Withholds id (h ++ told) after := by
  intro since hu hrestored
  cases he with
  | none hqubits =>
    rw [List.append_nil] at hu
    have hsilent : Effect p now [] after := .none hqubits
    obtain ⟨hw, hgiven⟩ := hp since hu hrestored
    exact ⟨(hsilent.withheld hw (by simp) (by simp)).1, hgiven⟩
  | @told fact _ hh =>
    rcases hu.concat with ⟨rfl, tenant, ids, rfl, hid⟩ | ⟨earlier, rfl, hu'⟩
    · exact ⟨hh.withheld_of_released hid, by simp⟩
    · simp only [List.mem_append, not_or] at hrestored
      obtain ⟨hw, hgiven⟩ := hp earlier hu' hrestored.1
      have hpurged : ∀ ids, .purged ids ∈ [fact] → id ∉ ids := by
        intro ids hmem
        exact hu.unpurged ids (List.mem_append_right _ hmem)
      obtain ⟨hw', hgiven'⟩ := (Effect.told hh).withheld hw hpurged hrestored.2
      refine ⟨hw', fun tenant ids hmem => ?_⟩
      rcases List.mem_append.1 hmem with hmem | hmem
      · exact hgiven tenant ids hmem
      · exact hgiven' tenant ids hmem

theorem withholds_run (config : PoolConfig) (id : QubitId) (calls : List (Timestamp × Call)) :
    Withholds id (toldBy (run config calls).trace) (run config calls).state := by
  refine history_induction (P := Withholds id) ?_ (fun _ he hp => he.withholds hp) calls
  rintro since ⟨⟨before, tenant, ids, heq, -⟩, -⟩
  simp at heq

end Pool

/-- **An unpurged qubit is withheld**, in every run of the pool and of the allocator in which it was
not restored: it is not free, and no tenant got it. -/
theorem withheld_until_purged (config : PoolConfig) (id : QubitId) (since : QubitHistory)
    (hrestored : .restored id ∉ since) :
    (∀ calls, let r := Pool.run config calls
      Unpurged id (Pool.toldBy r.trace) since →
        r.state.Withheld id ∧ ∀ tenant ids, .given tenant ids ∈ since → id ∉ ids) ∧
      ∀ calls, let r := Allocator.run config calls
        Unpurged id (Allocator.toldBy r.trace) since →
          r.state.Withheld id ∧ ∀ tenant ids, .given tenant ids ∈ since → id ∉ ids := by
  refine ⟨?_, ?_⟩
  · intro calls r hu
    exact Pool.withholds_run config id calls since hu hrestored
  · intro calls r hu
    obtain ⟨hstate, htold⟩ := Allocator.run_pool config calls
    have hpool := Pool.withholds_run config id (r.trace.flatMap Allocator.asked) since
    rw [htold, hstate] at hpool
    exact hpool hu hrestored

/-! ## Restored without a purge -/

namespace Pool

/-- A tenant's only qubit is released with a reset, taken out of service and restored. -/
def sampleDetour : List (Timestamp × Call) :=
  [(1, .allocate "first" 1 []), (2, .deallocate "first" [⟨0⟩] true),
    (3, .takeOffline ⟨0⟩ .faulty), (4, .restore ⟨0⟩), (5, .allocate "second" 1 [])]

end Pool

/-- **A restoration skips the reset**: the withholding does not last until the qubit is purged. -/
theorem restored_unpurged : ¬ ∀ (config : PoolConfig) (id : QubitId) (since : QubitHistory) calls,
    let r := Pool.run config calls
    Unpurged id (Pool.toldBy r.trace) since →
      r.state.Withheld id ∧ ∀ tenant ids, .given tenant ids ∈ since → id ∉ ids := by
  intro h
  have htold : Pool.toldBy (Pool.run ⟨1, 1, 10⟩ Pool.sampleDetour).trace =
      [.given "first" [⟨0⟩], .released "first" [⟨0⟩] true, .withdrawn ⟨0⟩ .faulty none,
        .restored ⟨0⟩, .given "second" [⟨0⟩]] := by decide +kernel
  have hu : Unpurged ⟨0⟩ (Pool.toldBy (Pool.run ⟨1, 1, 10⟩ Pool.sampleDetour).trace)
      [.withdrawn ⟨0⟩ .faulty none, .restored ⟨0⟩, .given "second" [⟨0⟩]] :=
    ⟨⟨[.given "first" [⟨0⟩]], "first", [⟨0⟩], htold, by simp⟩, by simp⟩
  have hgiven := (h ⟨1, 1, 10⟩ ⟨0⟩ _ Pool.sampleDetour hu).2 "second" [⟨0⟩]
  simp at hgiven

/-- Out of service, the released qubit of the sample is withheld. -/
theorem withheld_until_purged_sample :
    let r := Pool.run ⟨1, 1, 10⟩ (Pool.sampleDetour.take 3)
    .restored ⟨0⟩ ∉ [QubitFact.withdrawn ⟨0⟩ .faulty none] ∧
      Unpurged ⟨0⟩ (Pool.toldBy r.trace) [.withdrawn ⟨0⟩ .faulty none] ∧ r.state.Withheld ⟨0⟩ := by
  have htold : Pool.toldBy (Pool.run ⟨1, 1, 10⟩ (Pool.sampleDetour.take 3)).trace =
      [.given "first" [⟨0⟩], .released "first" [⟨0⟩] true, .withdrawn ⟨0⟩ .faulty none] := by
    decide +kernel
  have hu : Unpurged ⟨0⟩ (Pool.toldBy (Pool.run ⟨1, 1, 10⟩ (Pool.sampleDetour.take 3)).trace)
      [.withdrawn ⟨0⟩ .faulty none] :=
    ⟨⟨[.given "first" [⟨0⟩]], "first", [⟨0⟩], htold, by simp⟩, by simp⟩
  exact ⟨by decide, hu,
    ((withheld_until_purged ⟨1, 1, 10⟩ ⟨0⟩ _ (by decide)).1 (Pool.sampleDetour.take 3) hu).1⟩

end QubitWarden
