import QubitWarden.Proofs.Registry.Denial

/-!
# Records are immutable

A record is made by the call that returns its token and dropped by a collection after its expiry.
In between only its two marks change, each in one direction, and only by the calls that are about
it; a call that fails changes nothing at all.

* `Framed`: the registry after a call, given the answer. Whatever is not mentioned is as before.
* `framed_step`: every call keeps to it, if its identifier is fresh.
* `Effect.persists`, `persists_run`: what becomes of a record.
* `records_immutable`: both, over whole runs.
-/

namespace QubitWarden.Registry

variable {issuer : Issuer} {reg mid after : Registry} {now : Timestamp} {h told : TokenHistory}
  {id : TokenId} {r t : Token}

/-! ## One call -/

/-- A token under an identifier without record, without marks. -/
structure Unmarked (reg : Registry) (id : TokenId) (t : Token) : Prop where
  id_eq : t.id = id
  unregistered : reg.find? id = none
  useCount : t.useCount = 0
  revoked : t.revoked = false

/-- The registry after a call, given the answer. A call that is not listed, and one that fails,
leaves it as it was. -/
def Framed (reg : Registry) (now : Timestamp) (call : Call) (answer : Answer) (after : Registry) :
    Prop :=
  match call, answer with
  | .create id _ _, .token (.ok t) =>
    Unmarked reg id t ∧
      after = { reg with records := reg.records ++ [t], issued := reg.issued + 1 }
  | .attenuate id _ _, .token (.ok t) =>
    Unmarked reg id t ∧
      after = { reg with records := reg.records ++ [t], attenuated := reg.attenuated + 1 }
  | .use t, .used (.ok n) =>
    (∃ record, reg.find? t.id = some record ∧ n = Saturating.succ32 record.useCount) ∧
      after = { reg with
        records := reg.records.map fun r => if r.id = t.id then { r with useCount := n } else r }
  | .revoke id, .flag new =>
    (new = true ↔ id ∉ reg.revokedIds) ∧
      after = { reg with
        records := reg.records.map fun r => if r.id = id then { r with revoked := true } else r
        revokedIds := if new then reg.revokedIds ++ [id] else reg.revokedIds }
  | .collectExpired, .dropped n =>
    n = reg.records.countP (fun r => r.expiresAt < now) ∧
      after = { reg with
        records := reg.records.filter fun r => now ≤ r.expiresAt
        collected := reg.collected + n }
  | _, _ => after = reg

theorem put_eq (hnew : t.id ∉ reg.grants.map Grant.id) :
    reg.put t = { reg with records := reg.records ++ [t] } := by
  rw [← records_put hnew]
  rfl

theorem unmarked_sign {g : Grant} (hid : g.id = id) (hnew : g.id ∉ reg.grants.map Grant.id) :
    Unmarked reg id (g.sign issuer.sign) := by
  refine ⟨hid, find?_eq_none.2 fun r hr he => hnew ?_, rfl, rfl⟩
  rw [hid, ← he]
  exact List.mem_map_of_mem (mem_grants.2 ⟨r, hr, rfl⟩)

theorem framed_create (hp : Provenance issuer.sign h reg) {request : TokenRequest}
    {parent : Option Token}
    (fresh : (h ++ facts (exchange (step issuer) reg now (.create id request parent))).Fresh) :
    Framed reg now (.create id request parent)
      (.token (reg.create issuer now id request parent).1)
      (reg.create issuer now id request parent).2 := by
  obtain ⟨e, -, hcreate⟩ | ⟨g, hg, hcreate⟩ := create_cases issuer reg now id request parent
  · rw [hcreate]
    rfl
  · have hissued : g.sign issuer.sign ∈ TokenHistory.issued
        (facts (exchange (step issuer) reg now (.create id request parent))) := by
      simp [exchange, step, reply, facts, hcreate, issuedBy, TokenHistory.issued]
    have hnew := hp.id_unregistered fresh hissued
    rw [hcreate, put_eq hnew]
    exact ⟨unmarked_sign (requestedGrant_ok hg).1 hnew, rfl⟩

theorem framed_attenuate (hp : Provenance issuer.sign h reg) {source : Token}
    {capabilities : CapabilitySet}
    (fresh : (h ++ facts (exchange (step issuer) reg now
      (.attenuate id source capabilities))).Fresh) :
    Framed reg now (.attenuate id source capabilities)
      (.token (reg.attenuate issuer now id source capabilities).1)
      (reg.attenuate issuer now id source capabilities).2 := by
  obtain ⟨e, -, hattenuate⟩ | ⟨g, hg, hattenuate⟩ :=
    attenuate_cases issuer reg now id source capabilities
  · rw [hattenuate]
    rfl
  · have hissued : g.sign issuer.sign ∈ TokenHistory.issued
        (facts (exchange (step issuer) reg now (.attenuate id source capabilities))) := by
      simp [exchange, step, reply, facts, hattenuate, issuedBy, TokenHistory.issued]
    have hnew := hp.id_unregistered fresh hissued
    rw [hattenuate, put_eq hnew]
    exact ⟨unmarked_sign (attenuatedGrant_ok hg).1 hnew, rfl⟩

theorem framed_use (hd : reg.Distinct) :
    Framed reg now (.use t) (.used (reg.use issuer.sign now t).1)
      (reg.use issuer.sign now t).2 := by
  cases he : reg.evaluate issuer.sign now t with
  | error e =>
    rw [use_of_error he]
    rfl
  | ok =>
    obtain ⟨record, accepted⟩ := evaluate_eq_ok_iff.1 he
    rw [use_of_accepted accepted]
    refine ⟨⟨record, accepted.found, rfl⟩, ?_⟩
    refine congrArg (fun records => { reg with records }) (List.map_congr_left fun r hr => ?_)
    by_cases hid : r.id = t.id
    · -- The only record under the identifier is the one that was found.
      have hfound := find?_of_mem hd hr
      rw [hid, accepted.found] at hfound
      obtain rfl : record = r := Option.some.inj hfound
      rw [if_pos hid, if_pos hid]
      rfl
    · rw [if_neg hid, if_neg hid]

theorem framed_revoke :
    Framed reg now (.revoke id) (.flag (reg.revoke id).1) (reg.revoke id).2 := by
  obtain ⟨hid, hrevoke⟩ | ⟨hid, hrevoke⟩ := reg.revoke_cases id
  · rw [hrevoke]
    exact ⟨by simp [hid], rfl⟩
  · rw [hrevoke]
    exact ⟨by simp [hid], rfl⟩

/-- Every record has expired or has not. -/
theorem length_records (reg : Registry) (now : Timestamp) :
    reg.records.length = reg.records.countP (fun r => r.expiresAt < now) +
      (reg.records.filter fun r => now ≤ r.expiresAt).length := by
  rw [List.length_eq_countP_add_countP fun r : Token => r.expiresAt < now,
    ← List.countP_eq_length_filter]
  simp

theorem framed_collectExpired :
    Framed reg now .collectExpired (.dropped (reg.collectExpired now).1)
      (reg.collectExpired now).2 := by
  have hkept : reg.records.filter (fun r => !r.isExpiredAt now) =
      reg.records.filter fun r => now ≤ r.expiresAt := by
    refine List.filter_congr fun r _ => ?_
    rw [Token.isExpiredAt, Bool.eq_iff_iff]
    simp
  have hcount := length_records reg now
  rw [collectExpired, hkept]
  exact ⟨by omega, rfl⟩

/-- **Every call keeps to its frame**, if the identifier that it draws is fresh. -/
theorem framed_step (hp : Provenance issuer.sign h reg) (hd : reg.Distinct) {call : Call}
    (fresh : (h ++ facts (exchange (step issuer) reg now call)).Fresh) :
    Framed reg now call (step issuer reg now call).1 (step issuer reg now call).2 := by
  cases call with
  | create => exact framed_create hp fresh
  | attenuate => exact framed_attenuate hp fresh
  | use => exact framed_use hd
  | revoke => exact framed_revoke
  | collectExpired => exact framed_collectExpired
  | check | isRevoked => exact rfl

/-! ## What becomes of a record -/

/-- The record is still there, up to marks that were added, or it was dropped by a collection after
its expiry. -/
def Persists (id : TokenId) (r : Token) (collections : List Timestamp) (after : Registry) : Prop :=
  (∃ later, after.find? id = some later ∧ LaterState r later) ∨
    after.find? id = none ∧ ∃ c ∈ collections, r.expiresAt < c

theorem persists_modify {change : Token → Token} (hc : ∀ t, LaterState t (change t))
    (other : TokenId) (found : reg.find? id = some r) (collections : List Timestamp) :
    Persists id r collections (reg.modify other change) := by
  have hafter : (reg.modify other change).find? id =
      some (if r.id = other then change r else r) := by
    rw [find?_modify fun t => (hc t).grant, found]
    rfl
  refine .inl ⟨_, hafter, ?_⟩
  split
  · exact hc r
  · exact .refl r

/-- Only a collection after its expiry takes a record away. -/
theorem Effect.persists (e : Effect issuer reg now told after) (hd : reg.Distinct)
    (hnew : ∀ i ∈ told.issued, i.id ≠ id) (found : reg.find? id = some r) :
    Persists id r told.collections after := by
  cases e with
  | none => exact .inl ⟨r, found, .refl r⟩
  | @issued shown g _ _ records _ =>
    have hid : (g.sign issuer.sign).id ≠ id := hnew _ (by simp [TokenHistory.issued])
    refine .inl ⟨r, ?_, .refl r⟩
    rw [find?_of_records records, find?_put, if_neg hid, found]
  | @used t _ _ => exact persists_modify laterState_use t.id found _
  | revoked other =>
    unfold Persists
    rw [find?_of_records records_revoke]
    exact persists_modify laterState_revoke other found _
  | collected =>
    have hafter : (reg.collectExpired now).2.find? id =
        (reg.find? id).filter fun r => now ≤ r.expiresAt := find?_collectExpired hd
    rw [found, Option.filter_some] at hafter
    by_cases hnow : now ≤ r.expiresAt
    · rw [if_pos (decide_eq_true hnow)] at hafter
      exact .inl ⟨r, hafter, .refl r⟩
    · rw [if_neg (by simpa using hnow)] at hafter
      exact .inr ⟨hafter, now, List.mem_singleton_self now, UInt64.not_le.1 hnow⟩

theorem Persists.trans {first second : List Timestamp} (hr : Persists id r first mid)
    (hd : Descends id mid after)
    (hmid : ∀ q, mid.find? id = some q → Persists id q second after) :
    Persists id r (first ++ second) after := by
  obtain ⟨q, hq, hstate⟩ | ⟨hnone, c, hc, hexpired⟩ := hr
  · obtain ⟨later, hlater, hstate'⟩ | ⟨hnone, c, hc, hexpired⟩ := hmid q hq
    · exact .inl ⟨later, hlater, hstate.trans hstate'⟩
    · rw [hstate.grant] at hexpired
      exact .inr ⟨hnone, c, List.mem_append_right _ hc, hexpired⟩
  · refine .inr ⟨?_, c, List.mem_append_left _ hc, hexpired⟩
    cases hafter : after.find? id with
    | none => rfl
    | some later =>
      obtain ⟨q, hq, -⟩ := hd.record later hafter
      rw [hnone] at hq
      cases hq

/-- **So it is in a run**, as long as the identifier is not issued again. -/
theorem persists_run (issuer : Issuer) {start : Registry} (hd : start.Distinct)
    {calls : List (Timestamp × Call)}
    (hnew : ∀ i ∈ (history (runFrom (step issuer) start calls).trace).issued, i.id ≠ id)
    (found : start.find? id = some r) :
    Persists id r (history (runFrom (step issuer) start calls).trace).collections
      (runFrom (step issuer) start calls).state := by
  induction calls generalizing start r with
  | nil => exact .inl ⟨r, found, .refl r⟩
  | cons c rest ih =>
    simp only [runFrom, history, List.flatMap_cons, TokenHistory.issued_append, List.mem_append,
      or_imp, forall_and] at hnew
    simp only [runFrom, history, List.flatMap_cons, TokenHistory.collections_append]
    have he := step_effect issuer start c.1 c.2
    exact (he.persists hd hnew.1 found).trans (descends_run issuer (he.distinct hd) hnew.2)
      fun q hq => ih (he.distinct hd) hnew.2 hq

theorem collections_issuedBy (answer : Answer) : (issuedBy answer).collections = [] := by
  unfold issuedBy
  split <;> rfl

theorem collectExpired_of_collected {e : Exchange Call Answer} {c : Timestamp}
    (hc : c ∈ (facts e).collections) : e.call = .collectExpired ∧ e.now = c := by
  obtain ⟨time, call, answer⟩ := e
  cases call with
  | collectExpired => exact ⟨rfl, (List.mem_singleton.1 hc).symm⟩
  | create | attenuate =>
    simp only [facts, TokenHistory.collections_append, collections_issuedBy] at hc
    simp [TokenHistory.collections] at hc
  | use =>
    cases answer with
    | used result => cases result <;> cases hc
    | token | checked | flag | dropped => cases hc
  | check | revoke | isRevoked => cases hc

/-- What was collected was called for. -/
theorem called_of_collected {start : Registry} {calls : List (Timestamp × Call)} {c : Timestamp}
    (hc : c ∈ (history (runFrom (step issuer) start calls).trace).collections) :
    (c, .collectExpired) ∈ calls := by
  obtain ⟨fact, hfact, hnow⟩ := List.mem_filterMap.1 hc
  obtain ⟨e, he, hfact⟩ := List.mem_flatMap.1 hfact
  rw [← runFrom_asked (step issuer) start calls]
  refine List.mem_map.2 ⟨e, he, ?_⟩
  have hcollected : c ∈ (facts e).collections := List.mem_filterMap.2 ⟨fact, hfact, hnow⟩
  obtain ⟨hcall, rfl⟩ := collectExpired_of_collected hcollected
  rw [hcall]

/-- **Records are immutable but for their two marks, and failures are atomic.** In a run with fresh
identifiers no two records share one, and every call changes the registry as its frame says: one
that fails leaves it as it was, a successful creation or attenuation adds the record of the returned
token, a use adds one to the count of one record, a revocation marks one record and enters one
identifier, and a collection drops the expired records. So a record keeps its grant and its
signature until a collection after its expiry drops it, and its marks only grow; it is marked as
revoked only if its identifier was revoked. -/
theorem records_immutable (issuer : Issuer) (before between : List (Timestamp × Call))
    (fresh : (history (run issuer (before ++ between)).trace).Fresh) :
    let reg := (run issuer before).state
    let later := (run issuer (before ++ between)).state
    reg.Distinct ∧
    (∀ now call rest, between = (now, call) :: rest →
      Framed reg now call (step issuer reg now call).1 (step issuer reg now call).2) ∧
    (∀ id r, reg.find? id = some r →
      (∃ r', later.find? id = some r' ∧ LaterState r r') ∨
        later.find? id = none ∧ ∃ c, (c, .collectExpired) ∈ between ∧ r.expiresAt < c) ∧
    ∀ r ∈ reg.records, r.revoked = true → r.id ∈ reg.revokedIds := by
  intro reg later
  have hrun : run issuer (before ++ between) =
      ⟨(run issuer before).trace ++ (runFrom (step issuer) reg between).trace,
        (runFrom (step issuer) reg between).state⟩ :=
    runFrom_append (step issuer) empty before between
  have hp : Provenance issuer.sign (history (run issuer before).trace) reg :=
    provenance_run issuer before
  have hd : reg.Distinct := distinct_run issuer before
  rw [hrun, history, List.flatMap_append] at fresh
  refine ⟨hd, ?_, ?_, hp.marked⟩
  · rintro now call rest rfl
    refine framed_step hp hd (TokenHistory.Fresh.left (k := history (runFrom (step issuer)
      (step issuer reg now call).2 rest).trace) ?_)
    rw [List.append_assoc]
    exact fresh
  · intro id r found
    obtain ⟨i, hi, hgrant, -⟩ := hp.genuine r (mem_records_of_find? found)
    have hid : i.id = id := (congrArg Grant.id hgrant).trans (id_of_find? found)
    have hnew : ∀ u ∈ (history (runFrom (step issuer) reg between).trace).issued, u.id ≠ id :=
      fun u hu hne => fresh.id_ne hi hu (hid.trans hne.symm)
    have hlater : later = (runFrom (step issuer) reg between).state := by
      show (run issuer (before ++ between)).state = _
      rw [hrun]
    rw [hlater]
    obtain hkept | ⟨hnone, c, hc, hexpired⟩ := persists_run issuer hd hnew found
    · exact .inl hkept
    · exact .inr ⟨hnone, c, called_of_collected hc, hexpired⟩

/-- The record of the root token of the small runs through a use, a delegation and a collection at
the second of its expiry. -/
theorem records_immutable_sample :
    let before := sampleCalls.take 1
    let between := sampleCalls.drop 1
    let reg := (run sampleIssuer before).state
    reg.find? sampleRoot.id = some sampleRoot ∧
      Framed reg 110 (.use sampleRoot) (.used (reg.use sampleIssuer.sign 110 sampleRoot).1)
        (reg.use sampleIssuer.sign 110 sampleRoot).2 ∧
        ∃ later, (run sampleIssuer (before ++ between)).state.find? sampleRoot.id = some later ∧
          LaterState sampleRoot later ∧ later ≠ sampleRoot := by
  intro before between reg
  have found : reg.find? sampleRoot.id = some sampleRoot := by decide +kernel
  have kept : (run sampleIssuer (before ++ between)).state.find? sampleRoot.id =
      some sampleRoot.use := by decide +kernel
  obtain ⟨-, hframed, hkept, -⟩ := records_immutable sampleIssuer before between (by decide +kernel)
  refine ⟨found, hframed 110 (.use sampleRoot) _ rfl, ?_⟩
  obtain ⟨later, hlater, hstate⟩ | ⟨hnone, -⟩ := hkept _ _ found
  · refine ⟨later, hlater, hstate, ?_⟩
    rw [kept] at hlater
    obtain rfl := Option.some.inj hlater
    decide
  · rw [kept] at hnone
    cases hnone

end QubitWarden.Registry
