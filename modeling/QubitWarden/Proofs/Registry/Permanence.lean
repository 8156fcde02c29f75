import QubitWarden.Proofs.Registry.Forest

/-!
# Revocation and collection are permanent

What was revoked stays revoked, and a record that was dropped does not come back, whatever is called
afterwards and wherever the clock is set.

* `Barred`: nobody gets anywhere with an identifier, at any time (`barred_of_evaluate`).
* `mem_revokedIds_of_called`: a revocation in a run is an entry of the registry it leads to.
* `distinct_run`: whatever identifiers are drawn, each has at most one record.
* `unregistered_run`: an identifier without record gets one only by being drawn.
* `barred_forever`: both bar an identifier in every later state.
-/

namespace QubitWarden.Registry

variable {issuer : Issuer} {reg after : Registry} {now : Timestamp} {told : TokenHistory}
  {id : TokenId} {t record : Token}

/-- Every token that presents the identifier is refused at all times, by checks, uses and
attenuations for a certain reason, and no child is created from it. -/
structure Barred (issuer : Issuer) (reg : Registry) (id : TokenId) (Reason : TokenError → Prop) :
    Prop where
  check : ∀ now t, t.id = id → ∃ e, Reason e ∧ reg.evaluate issuer.sign now t = .error e
  use : ∀ now t, t.id = id → ∃ e, Reason e ∧ reg.use issuer.sign now t = (.error e, reg)
  attenuate : ∀ now t, t.id = id → ∀ drawn capabilities,
    ∃ e, Reason e ∧ reg.attenuate issuer now drawn t capabilities = (.error e, reg)
  create : ∀ now t, t.id = id → ∀ drawn request,
    ∃ e, reg.create issuer now drawn request (some t) = (.error e, reg)

theorem attenuate_of_error {e : TokenError} (h : reg.evaluate issuer.sign now t = .error e)
    (drawn : TokenId) (capabilities : CapabilitySet) :
    reg.attenuate issuer now drawn t capabilities = (.error e, reg) := by
  unfold attenuate attenuatedGrant
  rw [h]
  rfl

theorem create_of_error {e : TokenError} (h : reg.evaluate issuer.sign now t = .error e)
    (drawn : TokenId) (request : TokenRequest) :
    ∃ e, reg.create issuer now drawn request (some t) = (.error e, reg) := by
  unfold create
  cases hg : requestedGrant issuer reg now drawn request (some t) with
  | error e => exact ⟨e, rfl⟩
  | ok g =>
    cases (requestedGrant_ok hg).2 with
    | delegated accepted =>
      rw [evaluate_eq_ok_iff.2 ⟨_, accepted⟩] at h
      cases h

/-- Whoever fails the check fails everywhere. -/
theorem barred_of_evaluate {Reason : TokenError → Prop}
    (h : ∀ now t, t.id = id → ∃ e, Reason e ∧ reg.evaluate issuer.sign now t = .error e) :
    Barred issuer reg id Reason := by
  refine ⟨h, ?_, ?_, ?_⟩
  · intro now t ht
    obtain ⟨e, hreason, he⟩ := h now t ht
    exact ⟨e, hreason, use_of_error he⟩
  · intro now t ht drawn capabilities
    obtain ⟨e, hreason, he⟩ := h now t ht
    exact ⟨e, hreason, attenuate_of_error he drawn capabilities⟩
  · intro now t ht drawn request
    obtain ⟨e, -, he⟩ := h now t ht
    exact create_of_error he drawn request

/-! ## Revoked identifiers -/

theorem isRevoked_iff : reg.isRevoked id = true ↔ id ∈ reg.revokedIds := decide_eq_true_iff

theorem evaluate_of_revoked (h : t.id ∈ reg.revokedIds) :
    reg.evaluate issuer.sign now t = .error .revoked := by
  have hcounts : reg.countsAsRevoked t = true := by
    rw [countsAsRevoked, isRevoked_iff.2 h]
    rfl
  rw [evaluate, if_pos hcounts]

theorem barred_of_revoked (h : id ∈ reg.revokedIds) : Barred issuer reg id (· = .revoked) := by
  refine barred_of_evaluate ?_
  rintro now t rfl
  exact ⟨.revoked, rfl, evaluate_of_revoked h⟩

theorem revoke_of_revoked (h : id ∈ reg.revokedIds) : (reg.revoke id).1 = false := by
  unfold revoke
  rw [if_pos (isRevoked_iff.2 h)]

/-- **What was revoked in a run is revoked at its end.** -/
theorem mem_revokedIds_of_called {calls : List (Timestamp × Call)} (h : (now, .revoke id) ∈ calls) :
    id ∈ (run issuer calls).state.revokedIds := by
  rw [(provenance_run issuer calls).revokedIds]
  rw [← runFrom_asked (step issuer) empty calls] at h
  obtain ⟨e, he, hcall⟩ := List.mem_map.1 h
  have hcall : e.call = .revoke id := congrArg Prod.snd hcall
  have hfact : TokenFact.revoked id ∈ history (run issuer calls).trace := by
    refine List.mem_flatMap.2 ⟨e, he, ?_⟩
    rw [facts, hcall]
    exact List.mem_singleton.2 rfl
  exact List.mem_filterMap.2 ⟨_, hfact, rfl⟩

/-! ## Dropped records -/

theorem Effect.distinct (e : Effect issuer reg now told after) (hd : reg.Distinct) :
    after.Distinct := by
  cases e with
  | none => exact hd
  | issued _ records _ =>
    rw [Distinct, grants_of_records records]
    exact distinct_put hd _
  | used =>
    rw [Distinct, grants_modify Token.use_toGrant]
    exact hd
  | revoked =>
    rw [Distinct, grants_revoke]
    exact hd
  | collected => exact distinct_collectExpired hd

theorem distinct_run (issuer : Issuer) (calls : List (Timestamp × Call)) :
    (run issuer calls).state.Distinct :=
  history_induction (P := fun _ reg => reg.Distinct) List.nodup_nil (fun e hd => e.distinct hd) calls

/-- The identifier that comes with a call for a new token. -/
def Call.drawn? : Call → Option TokenId
  | .create id _ _ | .attenuate id _ _ => some id
  | .check _ | .use _ | .revoke _ | .isRevoked _ | .collectExpired => none

theorem drawn_of_issued {call : Call}
    (h : t ∈ TokenHistory.issued (facts (exchange (step issuer) reg now call))) :
    call.drawn? = some t.id := by
  cases call with
  | create id request parent =>
    simp only [exchange, step, reply, facts, create] at h
    cases hg : requestedGrant issuer reg now id request parent with
    | error e => simp [hg, issuedBy, TokenHistory.issued] at h
    | ok g =>
      obtain rfl : t = g.sign issuer.sign := by
        simpa [hg, issuedBy, TokenHistory.issued] using h
      exact congrArg some (requestedGrant_ok hg).1.symm
  | attenuate id source capabilities =>
    simp only [exchange, step, reply, facts, attenuate] at h
    cases hg : attenuatedGrant issuer reg now id source capabilities with
    | error e => simp [hg, issuedBy, TokenHistory.issued] at h
    | ok g =>
      obtain rfl : t = g.sign issuer.sign := by
        simpa [hg, issuedBy, TokenHistory.issued] using h
      exact congrArg some (attenuatedGrant_ok hg).1.symm
  | use shown =>
    simp only [exchange, step, reply, facts] at h
    cases hu : (reg.use issuer.sign now shown).1 <;> rw [hu] at h <;> cases h
  | check | revoke | isRevoked | collectExpired => cases h

/-- **Only a draw registers an identifier.** -/
theorem unregistered_step (hnone : reg.find? id = none) (now : Timestamp) {call : Call}
    (hdrawn : call.drawn? ≠ some id) : (step issuer reg now call).2.find? id = none := by
  rw [find?_eq_none] at hnone ⊢
  intro r hr hid
  rcases (step_effect issuer reg now call).record_cases hr with ⟨q, hq, hgrant, -⟩ | ⟨g, -, hr⟩
  · exact hnone q hq ((congrArg Grant.id hgrant).symm.trans hid)
  · exact hdrawn (hid ▸ drawn_of_issued hr)

theorem unregistered_run (issuer : Issuer) {start : Registry} (hnone : start.find? id = none)
    {calls : List (Timestamp × Call)} (hdrawn : ∀ c ∈ calls, c.2.drawn? ≠ some id) :
    (runFrom (step issuer) start calls).state.find? id = none := by
  induction calls generalizing start with
  | nil => exact hnone
  | cons c rest ih =>
    rw [List.forall_mem_cons] at hdrawn
    exact ih (unregistered_step hnone c.1 hdrawn.1) hdrawn.2

theorem barred_of_unregistered (hnone : reg.find? id = none) :
    Barred issuer reg id fun _ => True := by
  refine barred_of_evaluate ?_
  rintro now t rfl
  cases he : reg.evaluate issuer.sign now t with
  | error e => exact ⟨e, trivial, rfl⟩
  | ok =>
    obtain ⟨record, accepted⟩ := evaluate_eq_ok_iff.1 he
    rw [accepted.found] at hnone
    cases hnone

/-! ## Every later state -/

/-- **Revocation and collection are permanent**, whatever is called afterwards and at whatever
times. A revoked identifier stays revoked, further revocations say that it was, no collection
removes it, and whoever presents it is refused as revoked. An identifier whose record was dropped
after its expiry has no record again, and whoever presents it is refused, also when the clock is set
back, as long as it is not drawn again. -/
theorem barred_forever (issuer : Issuer) (before : List (Timestamp × Call)) (now : Timestamp)
    (id : TokenId) :
    (∀ later, let reg := (run issuer (before ++ (now, .revoke id) :: later)).state
      reg.isRevoked id = true ∧ (reg.revoke id).1 = false ∧
        (∀ time, (reg.collectExpired time).2.isRevoked id = true) ∧
          Barred issuer reg id (· = .revoked)) ∧
      ∀ record later, (run issuer before).state.find? id = some record → record.expiresAt < now →
        (∀ c ∈ later, c.2.drawn? ≠ some id) →
          let reg := (run issuer (before ++ (now, .collectExpired) :: later)).state
          reg.find? id = none ∧ Barred issuer reg id fun _ => True := by
  refine ⟨?_, ?_⟩
  · intro later reg
    have hcalled : (now, Call.revoke id) ∈ before ++ (now, .revoke id) :: later :=
      List.mem_append_right _ List.mem_cons_self
    have hrevoked : id ∈ reg.revokedIds := mem_revokedIds_of_called hcalled
    exact ⟨isRevoked_iff.2 hrevoked, revoke_of_revoked hrevoked,
      fun _ => isRevoked_iff.2 hrevoked, barred_of_revoked hrevoked⟩
  · intro record later found expired hdrawn reg
    have hdropped : ((run issuer before).state.collectExpired now).2.find? id = none := by
      rw [find?_collectExpired (distinct_run issuer before), found, Option.filter_some,
        if_neg (by simpa using expired)]
    have hnone : reg.find? id = none := by
      have hlater := unregistered_run issuer hdropped hdrawn
      show (run issuer (before ++ (now, .collectExpired) :: later)).state.find? id = none
      rw [run, runFrom_append]
      exact hlater
    exact ⟨hnone, barred_of_unregistered hnone⟩

/-- The root token of the small runs is dropped after its expiry, and refused with the clock set
back. -/
theorem barred_forever_sample :
    let before := sampleCalls.take 2
    let reg := (run sampleIssuer (before ++ [(161, .collectExpired), (120, .check sampleRoot)])).state
    (run sampleIssuer before).state.find? sampleRoot.id = some sampleRoot.use ∧
      sampleRoot.use.expiresAt < 161 ∧
        ∃ e, reg.evaluate sampleIssuer.sign 120 sampleRoot = .error e := by
  intro before reg
  have found : (run sampleIssuer before).state.find? sampleRoot.id = some sampleRoot.use := by
    decide +kernel
  have expired : sampleRoot.use.expiresAt < 161 := by decide
  obtain ⟨-, hbarred⟩ := (barred_forever sampleIssuer before 161 sampleRoot.id).2 sampleRoot.use
    [(120, .check sampleRoot)] found expired (by simp [Call.drawn?])
  obtain ⟨e, -, he⟩ := hbarred.check 120 sampleRoot rfl
  exact ⟨found, expired, e, he⟩

end QubitWarden.Registry
