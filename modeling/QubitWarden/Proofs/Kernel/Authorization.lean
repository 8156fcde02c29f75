import QubitWarden.Proofs.Kernel.Run

/-!
# Authorization

What the kernel grants, over whole runs and for any presented token.

* `issued_of_allowed`: only the grant of an issued token is authorized, for what it holds.
* `allowed_of_issued`: on a clock that does not go back, an issued token is authorized as long as
  it is unexpired, unrevoked and not used up.
* `authorization_exact`: both together.
-/

namespace QubitWarden.Kernel

variable {k : Kernel} {now later : Timestamp} {t : Token} {operation : Operation}

theorem allowed_iff :
    (k.check now t operation later).1.allowed = true ↔
      (∃ record, Registry.Accepted k.key.sign k.registry now t record) ∧ later ≤ t.expiresAt ∧
        k.mediator.table.Permits k.mediator.config.strict operation t.capabilities :=
  k.mediator.check_allowed_iff k.key.sign k.registry now later t operation

theorem require_ok_iff :
    (∃ d, (k.require now t operation later).1 = .ok d) ↔
      (k.check now t operation later).1.allowed = true := by
  rw [← (require_eq k now t operation later).1]
  cases (k.require now t operation later).1 <;> simp [Except.isOk, Except.toBool]

/-! ## Times of a run -/

theorem collections_issuedBy (answer : Answer) : (issuedBy answer).collections = [] := by
  unfold issuedBy
  split <;> rfl

theorem collections_checkFacts (t : Token) (granted : Bool) :
    (Mediator.checkFacts t granted).collections = [] := by
  cases granted <;> rfl

/-- Records are dropped only at the time of the exchange. -/
theorem collections_facts {e : Exchange Call Answer} {c : Timestamp}
    (h : c ∈ (facts e).collections) : c = e.now := by
  obtain ⟨now, call, answer⟩ := e
  cases call with
  | issue _ _ parent =>
    simp only [facts, TokenHistory.collections_append, TokenHistory.collections_presented,
      collections_issuedBy, List.append_nil] at h
    cases h
  | attenuate =>
    simp only [facts, TokenHistory.collections_append, collections_issuedBy, List.append_nil] at h
    cases h
  | collectExpired => exact List.mem_singleton.1 h
  | check | require => rw [facts, collections_checkFacts] at h; cases h
  | _ => cases h

/-- On a clock that does not go back, records were dropped at no later time. -/
theorem collections_le {start : Kernel} {calls : List (Timestamp × Call)} {now c : Timestamp}
    (clock : (calls.map Prod.fst ++ [now]).Pairwise (· ≤ ·))
    (hc : c ∈ (history (run start calls).trace).collections) : c ≤ now := by
  obtain ⟨fact, hfact, hnow⟩ := List.mem_filterMap.1 hc
  obtain ⟨e, he, hfact⟩ := List.mem_flatMap.1 hfact
  obtain rfl : c = e.now := collections_facts (List.mem_filterMap.2 ⟨fact, hfact, hnow⟩)
  refine (List.pairwise_append.1 clock).2.2 e.now ?_ now (List.mem_singleton_self now)
  have hasked : (run start calls).trace.map (fun e => (e.now, e.call)) = calls :=
    runFrom_asked step start calls
  rw [← hasked, List.map_map]
  exact List.mem_map_of_mem he

/-! ## What is granted -/

section
variable {config : Config} {ephemeral : Key} {start : Kernel}
  (valid : Kernel.new config ephemeral = .ok start) {calls : List (Timestamp × Call)}
include valid

theorem provenance_run (calls : List (Timestamp × Call)) :
    Registry.Provenance start.key.sign (history (run start calls).trace)
      (run start calls).state.registry := by
  obtain ⟨asked, hstate, hhistory⟩ := run_registry valid calls
  rw [← hstate, ← hhistory]
  exact Registry.provenance_run start.issuer asked

theorem consistent_run (fresh : (history (run start calls).trace).Fresh)
    (tags : (history (run start calls).trace).TagsTell start.key.sign) :
    Registry.Consistent start.issuer (history (run start calls).trace)
      (run start calls).state.registry := by
  obtain ⟨asked, hstate, hhistory⟩ := run_registry valid calls
  rw [← hhistory] at fresh tags ⊢
  rw [← hstate]
  exact Registry.consistent_run asked fresh tags

/-- A kernel signs with the key that it started with. -/
theorem run_sign (calls : List (Timestamp × Call)) :
    (run start calls).state.key.sign = start.key.sign :=
  congrArg Issuer.sign (run_steady valid calls).1

/-- **Only what was issued is authorized**, for what it holds. -/
theorem issued_of_allowed
    (tags : TokenHistory.TagsTell start.key.sign
      (history (run start calls).trace ++ [.presented t]))
    (hallowed : ((run start calls).state.check now t operation later).1.allowed = true) :
    ∃ i ∈ (history (run start calls).trace).issued, i.toGrant = t.toGrant ∧ now ≤ i.expiresAt ∧
      later ≤ i.expiresAt ∧
      Requirements.standard.Permits config.mediator.strict operation i.capabilities := by
  obtain ⟨⟨record, haccepted⟩, hlater, hpermits⟩ := allowed_iff.1 hallowed
  obtain ⟨-, hconfig, htable⟩ := run_steady valid calls
  rw [run_sign valid] at haccepted
  rw [hconfig, htable] at hpermits
  obtain ⟨i, hi, hgrant⟩ := (provenance_run valid calls).issued_of_accepted tags haccepted
  refine ⟨i, hi, hgrant, ?_, ?_, ?_⟩
  · rw [hgrant]
    exact haccepted.unexpired
  · rw [hgrant]
    exact hlater
  · rw [hgrant]
    exact hpermits

/-- **What was issued is authorized** while it is unexpired, unrevoked and not used up, on a clock
that does not go back. -/
theorem allowed_of_issued (fresh : (history (run start calls).trace).Fresh)
    (tags : (history (run start calls).trace).TagsTell start.key.sign)
    (clock : (calls.map Prod.fst ++ [now]).Pairwise (· ≤ ·)) {i : Token}
    (hi : i ∈ (history (run start calls).trace).issued)
    (hcopy : Registry.FaithfulCopy (run start calls).state.registry i t)
    (unexpired : now ≤ i.expiresAt) (hlater : later ≤ i.expiresAt)
    (unrevoked : i.id ∉ (history (run start calls).trace).revoked)
    (left : (run start calls).state.registry.remainingUses i.id ≠ some 0)
    (permits : Requirements.standard.Permits config.mediator.strict operation i.capabilities) :
    ((run start calls).state.check now t operation later).1.allowed = true := by
  have hc := consistent_run valid fresh tags
  obtain ⟨-, hconfig, htable⟩ := run_steady valid calls
  -- No collection has passed the expiry, so the token is still registered.
  have hregistered := hc.registration.kept i hi fun c hmem =>
    UInt64.le_trans (collections_le clock hmem) unexpired
  obtain ⟨record, found, hgrant⟩ :=
    Registry.find?_of_mem_grants hc.registration.distinct hregistered
  have hbelow : ∀ n, i.maxUses = some n →
      (history (run start calls).trace).uses i.id < n.toNat := by
    intro n hn
    rw [← hc.counted.useCount_eq hi hn found]
    refine Nat.lt_of_not_le fun hle => left ?_
    have hmax : record.maxUses = some n := (congrArg Grant.maxUses hgrant).trans hn
    have hzero : Saturating.sub32 n record.useCount = 0 := by
      rw [← UInt32.toNat_inj, Saturating.toNat_sub32]
      exact Nat.sub_eq_zero_of_le hle
    rw [Registry.remainingUses, found, Option.bind_some, Token.remainingUses, hmax, Option.map_some,
      hzero]
  have haccepted := hc.accepted hi hcopy found unexpired unrevoked hbelow
  refine allowed_iff.2 ⟨⟨record, ?_⟩, ?_, ?_⟩
  · rw [run_sign valid]
    exact haccepted
  · rw [hcopy.grant]
    exact hlater
  · rw [hconfig, htable, hcopy.grant]
    exact permits

/-- **Authorization is exact.** Whatever is presented, an operation is granted only with the nine
signed fields of a token that the run issued, before its expiry, and only if it is in the table or
the mediator is lenient, and the issued capabilities contain what it needs. And on a clock that does
not go back, a faithful copy of an issued token is granted all that, as long as the token is
unexpired, was never revoked and has uses left. The clock may move while a token is checked. -/
theorem authorization_exact (calls : List (Timestamp × Call)) (now later : Timestamp) (t : Token)
    (operation : Operation)
    (texts : TokenHistory.TextsFit (history (run start calls).trace ++ [.presented t]))
    (tags : TokenHistory.CollisionFree start.key.sign
      (history (run start calls).trace ++ [.presented t])) :
    let k := (run start calls).state
    let h := history (run start calls).trace
    let strict := config.mediator.strict
    ((k.check now t operation later).1.allowed = true ∨
        (∃ d, (k.require now t operation later).1 = .ok d) →
      ∃ i ∈ h.issued, i.toGrant = t.toGrant ∧ now ≤ i.expiresAt ∧ later ≤ i.expiresAt ∧
        (strict = true → (Requirements.standard.required? operation).isSome) ∧
        Requirements.standard.Permits strict operation i.capabilities) ∧
      (h.Fresh → (calls.map Prod.fst ++ [now]).Pairwise (· ≤ ·) →
        ∀ i ∈ h.issued, Registry.FaithfulCopy k.registry i t → now ≤ i.expiresAt →
          later ≤ i.expiresAt → i.id ∉ h.revoked → k.registry.remainingUses i.id ≠ some 0 →
          Requirements.standard.Permits strict operation i.capabilities →
          (k.check now t operation later).1.allowed = true ∧
            ∃ d, (k.require now t operation later).1 = .ok d) := by
  intro k h strict
  have tell := TokenHistory.tagsTell texts tags
  refine ⟨?_, ?_⟩
  · rw [require_ok_iff, or_self]
    intro hallowed
    obtain ⟨i, hi, hgrant, hnow, hlater, hpermits⟩ := issued_of_allowed valid tell hallowed
    exact ⟨i, hi, hgrant, hnow, hlater, hpermits.mapped, hpermits⟩
  · intro fresh clock i hi hcopy unexpired hlater unrevoked left permits
    rw [require_ok_iff, and_self]
    exact allowed_of_issued valid fresh tell.left clock hi hcopy unexpired hlater unrevoked left
      permits

end

/-! ## A small run -/

/-- The key of the small run. -/
def sampleKey : Key := ⟨.zero 32⟩

/-- A kernel with the default settings. -/
def sampleKernel : Kernel := (assemble {} .standard sampleKey).refreshGauges

/-- What the tokens of the small run are asked to grant. -/
def sampleRequest : TokenRequest where
  capabilities := .ofList [.measurement]
  tenant := "lab"
  maxUses := some 1

/-- A token of the small run as it is issued at second 100. -/
def sampleToken (id : TokenId) : Token :=
  (Registry.rootGrant {} 100 id sampleRequest).sign sampleKey.sign

/-- Two tokens are issued, then qubits are allocated and records collected. -/
def sampleCalls : List (Timestamp × Call) := [
  (100, .issue default sampleRequest none),
  (100, .issue ⟨.ofFn fun _ => 1⟩ sampleRequest none),
  (110, .allocate "lab" 1 []),
  (120, .collectExpired)]

theorem authorization_exact_sample :
    let k := (run sampleKernel sampleCalls).state
    (k.check 130 (sampleToken default) "measure" 131).1.allowed = true ∧
      ∃ i ∈ (history (run sampleKernel sampleCalls).trace).issued,
        i.toGrant = (sampleToken default).toGrant ∧ 131 ≤ i.expiresAt := by
  have valid : Kernel.new {} sampleKey = .ok sampleKernel := rfl
  have hmem : ∀ g ∈ TokenHistory.grants (history (run sampleKernel sampleCalls).trace ++
      [.presented (sampleToken default)]),
      g = (sampleToken default).toGrant ∨ g = (sampleToken ⟨.ofFn fun _ => 1⟩).toGrant := by
    decide +kernel
  have hne : sampleKey.sign (sampleToken default).payload ≠
      sampleKey.sign (sampleToken ⟨.ofFn fun _ => 1⟩).payload := by
    decide +kernel
  obtain ⟨sound, complete⟩ := authorization_exact valid sampleCalls 130 131
    (sampleToken default) "measure" (by decide +kernel)
    (TokenHistory.collisionFree_of_pair hmem hne)
  have hallowed := complete (by decide +kernel) (by decide +kernel) (sampleToken default)
    List.mem_cons_self (Registry.faithfulCopy_sign ..) (by decide) (by decide) (by decide +kernel)
    (by decide +kernel) ⟨.ofList [.measurement], rfl, by decide⟩
  obtain ⟨i, hi, hgrant, -, hexpiry, -⟩ := sound (.inl hallowed.1)
  exact ⟨hallowed.1, i, hi, hgrant, hexpiry⟩

end QubitWarden.Kernel
