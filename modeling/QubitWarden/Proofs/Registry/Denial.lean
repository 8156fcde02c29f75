import QubitWarden.Proofs.Registry.Permanence

/-!
# Denials are permanent

All that a check of a presented token looks at moves one way: revocations stay, uses add up, the
clock goes on, and a record that is gone does not come back. So acceptance goes back in time: what
is accepted later was accepted before, on the strength of the same record.

* `LaterState`: a record with the marks that were added since.
* `Descends`: what became of an identifier in a later registry (`Effect.descends`, `descends_run`).
* `Descends.accepted`: an accepted token was accepted in every earlier registry, on an earlier clock.
* `denials_permanent`: a token that was refused once is refused from then on.
-/

namespace QubitWarden.Registry

variable {issuer : Issuer} {sign : Signer} {reg mid after : Registry} {now time : Timestamp}
  {told : TokenHistory} {id : TokenId} {t r later : Token}

/-- `later` is the record `r` with marks that were added since. -/
structure LaterState (r later : Token) : Prop where
  grant : later.toGrant = r.toGrant
  signature : later.signature = r.signature
  useCount : r.useCount ≤ later.useCount
  revoked : r.revoked = true → later.revoked = true

theorem LaterState.refl (r : Token) : LaterState r r := ⟨rfl, rfl, UInt32.le_refl _, fun h => h⟩

theorem LaterState.trans {q : Token} (h : LaterState q r) (k : LaterState r later) :
    LaterState q later :=
  ⟨k.grant.trans h.grant, k.signature.trans h.signature, UInt32.le_trans h.useCount k.useCount,
    fun hq => k.revoked (h.revoked hq)⟩

theorem laterState_use (r : Token) : LaterState r r.use := by
  refine ⟨rfl, rfl, ?_, fun h => h⟩
  have hlt : r.useCount.toNat < UInt32.size := r.useCount.toNat_lt
  rw [UInt32.le_iff_toNat_le, Token.use, Saturating.toNat_succ32]
  omega

theorem laterState_revoke (r : Token) : LaterState r r.revoke :=
  ⟨rfl, rfl, UInt32.le_refl _, fun _ => rfl⟩

/-- In the registry `after`, the identifier has at most a later state of its record in `reg`, and
all revocations stand. -/
structure Descends (id : TokenId) (reg after : Registry) : Prop where
  record : ∀ later, after.find? id = some later → ∃ r, reg.find? id = some r ∧ LaterState r later
  revokedIds : reg.revokedIds ⊆ after.revokedIds

theorem Descends.refl (id : TokenId) (reg : Registry) : Descends id reg reg :=
  ⟨fun later found => ⟨later, found, .refl later⟩, fun _ h => h⟩

theorem Descends.trans (h : Descends id reg mid) (k : Descends id mid after) :
    Descends id reg after := by
  refine ⟨fun later found => ?_, fun x hx => k.revokedIds (h.revokedIds hx)⟩
  obtain ⟨q, hq, hlater⟩ := k.record later found
  obtain ⟨r, hr, hq'⟩ := h.record q hq
  exact ⟨r, hr, hq'.trans hlater⟩

theorem descends_modify {change : Token → Token} (hc : ∀ t, LaterState t (change t))
    (other : TokenId) : Descends id reg (reg.modify other change) := by
  refine ⟨fun later found => ?_, fun _ h => h⟩
  rw [find?_modify fun t => (hc t).grant] at found
  obtain ⟨r, hr, rfl⟩ := Option.map_eq_some_iff.1 found
  refine ⟨r, hr, ?_⟩
  split
  · exact hc r
  · exact .refl r

/-- **An exchange that does not issue the identifier adds marks to its record, or drops it.** -/
theorem Effect.descends (e : Effect issuer reg now told after) (hd : reg.Distinct)
    (hnew : ∀ i ∈ told.issued, i.id ≠ id) : Descends id reg after := by
  cases e with
  | none => exact .refl id reg
  | @issued shown g _ _ records revokedIds =>
    have hid : (g.sign issuer.sign).id ≠ id := hnew _ (by simp [TokenHistory.issued])
    refine ⟨fun later found => ⟨later, ?_, .refl later⟩, fun x hx => revokedIds ▸ hx⟩
    rwa [find?_of_records records, find?_put, if_neg hid] at found
  | @used t _ _ => exact descends_modify laterState_use t.id
  | revoked other =>
    have hmarked : Descends id reg (reg.modify other Token.revoke) :=
      descends_modify laterState_revoke other
    refine ⟨fun later found => hmarked.record later ?_, fun x hx => mem_revokedIds_revoke.2 (.inl hx)⟩
    rwa [find?_of_records records_revoke] at found
  | collected =>
    refine ⟨fun later found => ⟨later, ?_, .refl later⟩, fun _ h => h⟩
    rw [find?_collectExpired hd] at found
    exact Option.eq_some_of_filter_eq_some found

/-- **So does a run.** -/
theorem descends_run (issuer : Issuer) {start : Registry} (hd : start.Distinct)
    {calls : List (Timestamp × Call)}
    (hnew : ∀ i ∈ (history (runFrom (step issuer) start calls).trace).issued, i.id ≠ id) :
    Descends id start (runFrom (step issuer) start calls).state := by
  induction calls generalizing start with
  | nil => exact .refl id start
  | cons c rest ih =>
    simp only [runFrom, history, List.flatMap_cons, TokenHistory.issued_append, List.mem_append,
      or_imp, forall_and] at hnew
    have he := step_effect issuer start c.1 c.2
    exact (he.descends hd hnew.1).trans (ih (he.distinct hd) hnew.2)

/-! ## Acceptance goes back -/

/-- What is accepted later was accepted before, if no record exceeds its parent. -/
theorem Descends.accepted (h : Descends t.id reg after) (clock : now ≤ time)
    (lineage : ∀ record ∈ reg.records, reg.checkLineage record = .ok ())
    (ha : Accepted sign after time t later) : ∃ record, Accepted sign reg now t record := by
  obtain ⟨record, found, hlater⟩ := h.record later ha.found
  exact ⟨record, {
    found := found
    unrevoked := fun hid => ha.unrevoked (h.revokedIds hid)
    unmarked := ha.unmarked
    record_unmarked := by
      refine Bool.eq_false_iff.2 fun hmarked => ?_
      have hunmarked := ha.record_unmarked
      rw [hlater.revoked hmarked] at hunmarked
      cases hunmarked
    unexpired := UInt64.le_trans clock ha.unexpired
    left := fun limit hlimit =>
      (ha.left limit hlimit).imp_left (UInt32.lt_of_le_of_lt hlater.useCount)
    signed := ha.signed
    same := hlater.signature.symm.trans ha.same
    lineage := lineage record (mem_records_of_find? found) }⟩

/-- **Denials are permanent.** Once a check has refused a token whose identifier was issued before,
the token is refused by every later check, use and attenuation, and no child is created from it,
whatever is called in between. The clock has to show no earlier time than at the denial. -/
theorem denials_permanent (issuer : Issuer) (before between : List (Timestamp × Call))
    {now time : Timestamp} {t : Token} {e : TokenError}
    (fresh : (history (run issuer (before ++ between)).trace).Fresh)
    (texts : (history (run issuer (before ++ between)).trace).TextsFit)
    (tags : (history (run issuer (before ++ between)).trace).CollisionFree issuer.sign)
    (issued : ∃ i ∈ (history (run issuer before).trace).issued, i.id = t.id)
    (clock : now ≤ time)
    (denied : (run issuer before).state.evaluate issuer.sign now t = .error e) :
    let reg := (run issuer (before ++ between)).state
    ∃ e, reg.evaluate issuer.sign time t = .error e ∧
      reg.use issuer.sign time t = (.error e, reg) ∧
      (∀ id capabilities,
        reg.attenuate issuer time id t capabilities = (.error e, reg)) ∧
      ∀ id request, ∃ e, reg.create issuer time id request (some t) = (.error e, reg) := by
  intro reg
  have tell := TokenHistory.tagsTell texts tags
  have hrun : run issuer (before ++ between) =
      ⟨(run issuer before).trace ++
          (runFrom (step issuer) (run issuer before).state between).trace,
        (runFrom (step issuer) (run issuer before).state between).state⟩ :=
    runFrom_append (step issuer) empty before between
  rw [hrun, history, List.flatMap_append] at fresh tell
  have hd : (run issuer before).state.Distinct := distinct_run issuer before
  have hf : Forest issuer.policy (run issuer before).state :=
    forest_run before fresh.left tell.left
  -- Fresh identifiers: the one of `t` is not issued again.
  have hdescends : Descends t.id (run issuer before).state reg := by
    obtain ⟨i, hi, hid⟩ := issued
    show Descends t.id _ (run issuer (before ++ between)).state
    rw [hrun]
    exact descends_run issuer hd fun u hu hne => fresh.id_ne hi hu (hid.trans hne.symm)
  cases he : reg.evaluate issuer.sign time t with
  | ok =>
    obtain ⟨later, accepted⟩ := evaluate_eq_ok_iff.1 he
    have hearlier := hdescends.accepted clock (fun record hr => hf.checkLineage hd hr) accepted
    rw [evaluate_eq_ok_iff.2 hearlier] at denied
    cases denied
  | error e =>
    exact ⟨e, rfl, use_of_error he, attenuate_of_error he, create_of_error he⟩

/-- The root token of the small runs is used up. -/
def exhaustedCalls : List (Timestamp × Call) := [
  (100, .create sampleRoot.id sampleRequest none),
  (110, .use sampleRoot),
  (110, .use sampleRoot)]

/-- A used up token stays refused when its record, and with it the count, is dropped and the clock
is set back. -/
theorem denials_permanent_exhausted :
    let reg := (run sampleIssuer (exhaustedCalls ++ [(161, .collectExpired)])).state
    (run sampleIssuer exhaustedCalls).state.evaluate sampleIssuer.sign 110 sampleRoot =
        .error (.useLimitExceeded 2) ∧
      reg.find? sampleRoot.id = none ∧
        ∃ e, reg.use sampleIssuer.sign 150 sampleRoot = (.error e, reg) := by
  intro reg
  have denied : (run sampleIssuer exhaustedCalls).state.evaluate sampleIssuer.sign 110 sampleRoot =
      .error (.useLimitExceeded 2) := by decide +kernel
  obtain ⟨e, -, huse, -⟩ := denials_permanent sampleIssuer exhaustedCalls
    [(161, .collectExpired)] (by decide +kernel) (by decide +kernel) (by decide +kernel)
    ⟨sampleRoot, by decide +kernel, rfl⟩ (by decide : (110 : Timestamp) ≤ 150) denied
  exact ⟨denied, by decide +kernel, e, huse⟩

end QubitWarden.Registry
