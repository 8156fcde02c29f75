import Mathlib.Algebra.GroupWithZero.Nat
import Mathlib.Data.List.Dedup
import Mathlib.Data.List.Induction
import QubitWarden.Proofs.Registry.Immutability

/-!
# The counters of the registry

The counters are kept beside the records and the revoked identifiers, each by the calls that concern
it. Yet no token gets lost between them: what was issued or attenuated is registered or was
collected, and what counts as revoked is what was asked to be.

* `Entered`, `entered_step`: what one exchange does to the counters and to the records.
* `Tallied`: the counters next to a trace and next to the records. Each exchange keeps them in step
  (`Entered.tallied`), and so does a run (`tallied_run`).
* `statistics_conserved`: the balance, and each counter by what was asked and answered.
-/

namespace QubitWarden.Registry

variable {issuer : Issuer} {reg after : Registry} {now : Timestamp} {call : Call} {answer : Answer}
  {trace : List (Exchange Call Answer)}

/-! ## What counts -/

/-- Whether a token was created. -/
def isCreation (e : Exchange Call Answer) : Bool :=
  match e.call, e.answer with
  | .create _ _ _, .token (.ok _) => true
  | _, _ => false

/-- Whether a token was attenuated. -/
def isAttenuation (e : Exchange Call Answer) : Bool :=
  match e.call, e.answer with
  | .attenuate _ _ _, .token (.ok _) => true
  | _, _ => false

/-- Whether a revocation was answered to be a new one. -/
def isRevocation (e : Exchange Call Answer) : Bool :=
  match e.call, e.answer with
  | .revoke _, .flag new => new
  | _, _ => false

/-- The number of records that a collection was answered to have dropped. -/
def droppedBy (e : Exchange Call Answer) : Nat :=
  match e.call, e.answer with
  | .collectExpired, .dropped n => n
  | _, _ => 0

/-- The identifier that is to be revoked. -/
def Call.revoked? : Call → Option TokenId
  | .revoke id => some id
  | _ => none

/-! ## One exchange -/

/-- What an exchange does to the counters, the number of records and the revoked identifiers. -/
structure Entered (reg : Registry) (e : Exchange Call Answer) (after : Registry) : Prop where
  issued : after.issued = reg.issued + (isCreation e).toNat
  attenuated : after.attenuated = reg.attenuated + (isAttenuation e).toNat
  collected : after.collected = reg.collected + droppedBy e
  records : after.records.length + droppedBy e =
    reg.records.length + (isCreation e).toNat + (isAttenuation e).toNat
  revokedIds :
    (isRevocation e = false ∧ after.revokedIds = reg.revokedIds ∧
        ∀ id, e.call.revoked? = some id → id ∈ reg.revokedIds) ∨
      (isRevocation e = true ∧ ∃ id, e.call.revoked? = some id ∧ id ∉ reg.revokedIds ∧
        after.revokedIds = reg.revokedIds ++ [id])

/-- An exchange that counts nothing and asks for no revocation leaves everything as it is. -/
theorem entered_refl {e : Exchange Call Answer} (hcreation : isCreation e = false)
    (hattenuation : isAttenuation e = false) (hrevocation : isRevocation e = false)
    (hdropped : droppedBy e = 0) (hrevoked : e.call.revoked? = none) : Entered reg e reg where
  issued := by rw [hcreation]; rfl
  attenuated := by rw [hattenuation]; rfl
  collected := by rw [hdropped]; rfl
  records := by rw [hcreation, hattenuation, hdropped]; rfl
  revokedIds := .inl ⟨hrevocation, rfl, fun id hid => by rw [hrevoked] at hid; cases hid⟩

/-- **Every exchange enters what it does**, if the identifier that it draws is fresh. -/
theorem entered_step {h : TokenHistory} (hp : Provenance issuer.sign h reg) (hd : reg.Distinct)
    (fresh : (h ++ facts (exchange (step issuer) reg now call)).Fresh) :
    Entered reg (exchange (step issuer) reg now call) (step issuer reg now call).2 := by
  -- The frame says what a call does; a new record stands behind all others, as its key is fresh.
  have hframed := framed_step hp hd fresh
  cases call with
  | create id request parent =>
    simp only [exchange, step, reply] at hframed ⊢
    generalize reg.create issuer now id request parent = result at hframed ⊢
    obtain ⟨_ | t, after⟩ := result
    · obtain rfl : after = reg := hframed
      exact entered_refl rfl rfl rfl rfl rfl
    · obtain ⟨-, rfl⟩ := hframed
      exact ⟨rfl, rfl, rfl, List.length_append, .inl ⟨rfl, rfl, fun _ hid => by cases hid⟩⟩
  | attenuate id source capabilities =>
    simp only [exchange, step, reply] at hframed ⊢
    generalize reg.attenuate issuer now id source capabilities = result at hframed ⊢
    obtain ⟨_ | t, after⟩ := result
    · obtain rfl : after = reg := hframed
      exact entered_refl rfl rfl rfl rfl rfl
    · obtain ⟨-, rfl⟩ := hframed
      exact ⟨rfl, rfl, rfl, List.length_append, .inl ⟨rfl, rfl, fun _ hid => by cases hid⟩⟩
  | use t =>
    simp only [exchange, step, reply] at hframed ⊢
    generalize reg.use issuer.sign now t = result at hframed ⊢
    obtain ⟨_ | n, after⟩ := result
    · obtain rfl : after = reg := hframed
      exact entered_refl rfl rfl rfl rfl rfl
    · obtain ⟨-, rfl⟩ := hframed
      exact ⟨rfl, rfl, rfl, List.length_map _, .inl ⟨rfl, rfl, fun _ hid => by cases hid⟩⟩
  | revoke id =>
    simp only [exchange, step, reply] at hframed ⊢
    generalize (reg.revoke id).1 = new, (reg.revoke id).2 = after at hframed ⊢
    obtain ⟨hnew, rfl⟩ := hframed
    refine ⟨rfl, rfl, rfl, List.length_map _, ?_⟩
    cases new with
    | false =>
      have hold : id ∈ reg.revokedIds := by simpa using hnew
      exact .inl ⟨rfl, rfl, fun other hother => Option.some.inj hother ▸ hold⟩
    | true => exact .inr ⟨rfl, id, rfl, hnew.1 rfl, rfl⟩
  | collectExpired =>
    simp only [exchange, step, reply] at hframed ⊢
    generalize (reg.collectExpired now).1 = n, (reg.collectExpired now).2 = after at hframed ⊢
    obtain ⟨hn, rfl⟩ := hframed
    refine ⟨rfl, rfl, rfl, ?_, .inl ⟨rfl, rfl, fun _ hid => by cases hid⟩⟩
    show (reg.records.filter fun r => now ≤ r.expiresAt).length + n = reg.records.length
    rw [hn, length_records reg now, Nat.add_comm]
  | check | isRevoked => exact entered_refl rfl rfl rfl rfl rfl

/-! ## Runs -/

/-- The counters are what the trace counts, and they balance with the records. -/
structure Tallied (trace : List (Exchange Call Answer)) (reg : Registry) : Prop where
  issued : reg.issued = trace.countP isCreation
  attenuated : reg.attenuated = trace.countP isAttenuation
  collected : reg.collected = (trace.map droppedBy).sum
  balance : reg.issued + reg.attenuated = reg.records.length + reg.collected
  revoked : reg.revokedIds.length = trace.countP isRevocation
  distinct : reg.revokedIds.Nodup
  asked : ∀ id, id ∈ reg.revokedIds ↔ id ∈ trace.filterMap fun e => e.call.revoked?

theorem countP_concat {α : Type} (p : α → Bool) (l : List α) (a : α) :
    (l ++ [a]).countP p = l.countP p + (p a).toNat := by
  rw [List.countP_append, List.countP_singleton]
  cases p a <;> rfl

/-- **What an exchange enters keeps the counters in step.** -/
theorem Entered.tallied {e : Exchange Call Answer} (he : Entered reg e after)
    (ht : Tallied trace reg) : Tallied (trace ++ [e]) after where
  issued := by rw [he.issued, ht.issued, countP_concat]
  attenuated := by rw [he.attenuated, ht.attenuated, countP_concat]
  collected := by simp [he.collected, ht.collected]
  balance := by
    have := he.issued
    have := he.attenuated
    have := he.collected
    have := he.records
    have := ht.balance
    omega
  revoked := by
    rw [countP_concat, ← ht.revoked]
    rcases he.revokedIds with ⟨hrevocation, hids, -⟩ | ⟨hrevocation, id, -, -, hids⟩
    · rw [hrevocation, hids]
      rfl
    · rw [hrevocation, hids]
      exact List.length_append
  distinct := by
    rcases he.revokedIds with ⟨-, hids, -⟩ | ⟨-, id, -, hnew, hids⟩
    · rw [hids]
      exact ht.distinct
    · rw [hids, List.nodup_append]
      refine ⟨ht.distinct, List.nodup_singleton _, fun a ha b hb hab => hnew ?_⟩
      rwa [← List.mem_singleton.1 hb, ← hab]
  asked id := by
    rw [List.filterMap_append, List.mem_append, ← ht.asked]
    rcases he.revokedIds with ⟨-, hids, hold⟩ | ⟨-, other, hcall, -, hids⟩
    · rw [hids, List.mem_filterMap]
      refine ⟨.inl, fun hid => hid.elim (fun hid => hid) fun ⟨e', he', hcall⟩ => ?_⟩
      rw [List.mem_singleton.1 he'] at hcall
      exact hold id hcall
    · simp [hids, hcall]

theorem tallied_empty : Tallied [] empty := by
  refine ⟨rfl, rfl, rfl, rfl, rfl, List.nodup_nil, fun id => Iff.rfl⟩

theorem tallied_run (issuer : Issuer) (calls : List (Timestamp × Call))
    (fresh : (history (run issuer calls).trace).Fresh) :
    Tallied (run issuer calls).trace (run issuer calls).state := by
  induction calls using List.reverseRecOn with
  | nil => exact tallied_empty
  | append_singleton calls c ih =>
    rw [run, runFrom_concat, history_concat] at fresh
    rw [run, runFrom_concat]
    have hentered := entered_step (provenance_run issuer calls) (distinct_run issuer calls) fresh
    exact hentered.tallied (ih fresh.left)

/-- **The counters of the registry balance.** After every run with fresh identifiers, at whatever
times, what was issued or attenuated is as much as what is registered or was collected. Each counter
is what it is called: the successful creations and attenuations, the identifiers that have a record,
what all collections were answered to have dropped, and the distinct identifiers that were ever to
be revoked, known or not, which are as many as the revocations answered to be new. -/
theorem statistics_conserved (issuer : Issuer) (calls : List (Timestamp × Call))
    (fresh : (history (run issuer calls).trace).Fresh) :
    let r := run issuer calls
    let stats := r.state.statistics
    stats.issued + stats.attenuated = stats.active + stats.collected ∧
      stats.issued = r.trace.countP isCreation ∧
      stats.attenuated = r.trace.countP isAttenuation ∧
      (∃ ids : List TokenId, ids.Nodup ∧ (∀ id, id ∈ ids ↔ (r.state.find? id).isSome) ∧
        stats.active = ids.length) ∧
      stats.collected = (r.trace.map droppedBy).sum ∧
      stats.revoked = (calls.filterMap fun c => c.2.revoked?).dedup.length ∧
      stats.revoked = r.trace.countP isRevocation := by
  intro r stats
  have ht : Tallied r.trace r.state := tallied_run issuer calls fresh
  refine ⟨ht.balance, ht.issued, ht.attenuated, ⟨r.state.grants.map Grant.id, ?_, ?_, ?_⟩,
    ht.collected, ?_, ht.revoked⟩
  · exact distinct_run issuer calls
  · intro id
    rw [find?, List.find?_isSome]
    simp [grants]
  · rw [List.length_map, grants, List.length_map]
    rfl
  · refine ((List.perm_ext_iff_of_nodup ht.distinct (List.nodup_dedup _)).2 fun id => ?_).length_eq
    rw [List.mem_dedup, ht.asked, ← runFrom_asked (step issuer) empty calls, List.filterMap_map]
    rfl

/-- The root of the small runs is revoked before and after it is collected with its child, and an
identifier that nobody was issued is revoked once. -/
def revokingCalls : List (Timestamp × Call) := sampleCalls ++ [
  (120, .revoke sampleRoot.id),
  (161, .collectExpired),
  (90, .revoke sampleRoot.id),
  (90, .revoke ⟨.ofFn fun _ => 7⟩),
  (95, .create sampleRoot.id { sampleRequest with capabilities := .ofList [] } none)]

theorem statistics_conserved_sample :
    let r := run sampleIssuer revokingCalls
    let stats := r.state.statistics
    stats = ⟨1, 1, 0, 2, 2⟩ ∧
      stats.issued + stats.attenuated = stats.active + stats.collected ∧
      stats.revoked = r.trace.countP isRevocation := by
  intro r stats
  obtain ⟨hbalance, -, -, -, -, -, hrevoked⟩ :=
    statistics_conserved sampleIssuer revokingCalls (by decide +kernel)
  exact ⟨by decide +kernel, hbalance, hrevoked⟩

end QubitWarden.Registry
