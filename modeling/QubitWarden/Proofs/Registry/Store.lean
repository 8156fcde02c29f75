import QubitWarden.Proofs.Keyed
import QubitWarden.Registry.Issue

/-!
# What the registry holds

The registry seen from outside: which grants are registered, and which record an identifier has.
Later proofs use these facts and do not look into the list of records.

* `grants`: the registered grants. Marks do not show in them, so only putting and collecting change
  them (`grants_put`, `grants_collectExpired`).
* `Accepted`, `Refused`: why a presented token is accepted or not, each check by its meaning
  (`evaluate_eq_ok_iff`, `refused_of_evaluate`).
* `use_of_accepted`, `use_of_error`: a use either counts one or leaves the registry alone.
* `create_cases`, `attenuate_cases`: a new token is registered and counted, or nothing changes.
-/

namespace QubitWarden

@[simp] theorem Token.use_toGrant (t : Token) : t.use.toGrant = t.toGrant := rfl

@[simp] theorem Token.use_signature (t : Token) : t.use.signature = t.signature := rfl

@[simp] theorem Token.revoke_toGrant (t : Token) : t.revoke.toGrant = t.toGrant := rfl

@[simp] theorem Token.revoke_signature (t : Token) : t.revoke.signature = t.signature := rfl

theorem Token.isExpiredAt_eq_false {t : Token} {now : Timestamp} :
    t.isExpiredAt now = false ↔ now ≤ t.expiresAt := by
  rw [Token.isExpiredAt, decide_eq_false_iff_not, UInt64.not_lt]

namespace Registry

/-- The registered grants, oldest record first. -/
def grants (reg : Registry) : List Grant := reg.records.map Token.toGrant

/-- Every identifier has at most one record. -/
def Distinct (reg : Registry) : Prop := (reg.grants.map Grant.id).Nodup

variable {reg : Registry} {id : TokenId} {r t : Token} {now : Timestamp}

theorem mem_grants {g : Grant} : g ∈ reg.grants ↔ ∃ r ∈ reg.records, r.toGrant = g := List.mem_map

/-! ## Looking up -/

theorem mem_records_of_find? (h : reg.find? id = some r) : r ∈ reg.records :=
  List.mem_of_find?_eq_some h

theorem id_of_find? (h : reg.find? id = some r) : r.id = id := by
  simpa using List.find?_some h

theorem mem_grants_of_find? (h : reg.find? id = some r) : r.toGrant ∈ reg.grants :=
  List.mem_map_of_mem (mem_records_of_find? h)

theorem find?_eq_none : reg.find? id = none ↔ ∀ r ∈ reg.records, r.id ≠ id := by
  simp [find?]

/-- With distinct identifiers, every record is found. -/
theorem find?_of_mem (hd : reg.Distinct) (hr : r ∈ reg.records) : reg.find? r.id = some r := by
  rw [Distinct, grants, List.map_map] at hd
  exact Keyed.find?_of_nodup_keys hd hr

theorem find?_of_mem_grants (hd : reg.Distinct) {g : Grant} (hg : g ∈ reg.grants) :
    ∃ r, reg.find? g.id = some r ∧ r.toGrant = g := by
  obtain ⟨r, hr, rfl⟩ := mem_grants.1 hg
  exact ⟨r, find?_of_mem hd hr, rfl⟩

/-! ## Putting, marking and collecting -/

theorem mem_putRecord {l : List Token} (h : r ∈ putRecord t l) : r = t ∨ r ∈ l := by
  induction l with
  | nil => exact .inl (List.mem_singleton.1 h)
  | cons q rest ih =>
    unfold putRecord at h
    split at h
    · rcases List.mem_cons.1 h with rfl | h
      · exact .inl rfl
      · exact .inr (List.mem_cons_of_mem _ h)
    · rcases List.mem_cons.1 h with rfl | h
      · exact .inr List.mem_cons_self
      · exact (ih h).imp_right (List.mem_cons_of_mem _)

/-- A record under an unused identifier comes last. -/
theorem putRecord_eq_append {l : List Token} (h : ∀ r ∈ l, r.id ≠ t.id) :
    putRecord t l = l ++ [t] := by
  induction l with
  | nil => rfl
  | cons q rest ih =>
    rw [putRecord, if_neg (h q List.mem_cons_self), List.cons_append,
      ih fun r hr => h r (List.mem_cons_of_mem _ hr)]

theorem records_put (h : t.id ∉ reg.grants.map Grant.id) :
    (reg.put t).records = reg.records ++ [t] := by
  refine putRecord_eq_append fun r hr he => h ?_
  exact he ▸ List.mem_map_of_mem (mem_grants.2 ⟨r, hr, rfl⟩)

theorem putRecord_eq (t : Token) (l : List Token) :
    putRecord t l = Keyed.put (fun r => r.id) t l := by
  induction l with
  | nil => rfl
  | cons r rest ih => rw [putRecord, Keyed.put, ih]

theorem find?_put (t : Token) (id : TokenId) :
    (reg.put t).find? id = if t.id = id then some t else reg.find? id := by
  rw [find?, put, putRecord_eq]
  exact Keyed.find?_put t id reg.records

theorem distinct_put (hd : reg.Distinct) (t : Token) : (reg.put t).Distinct := by
  rw [Distinct, grants, List.map_map] at hd ⊢
  rw [put, putRecord_eq]
  exact Keyed.nodup_put hd t

theorem grants_put (h : t.id ∉ reg.grants.map Grant.id) :
    (reg.put t).grants = reg.grants ++ [t.toGrant] := by
  rw [grants, records_put h, List.map_append]
  rfl

theorem mem_records_modify {change : Token → Token} :
    r ∈ (reg.modify id change).records ↔
      ∃ q ∈ reg.records, r = if q.id = id then change q else q := by
  simp only [modify, List.mem_map, eq_comm]

theorem find?_modify {change : Token → Token} (hc : ∀ t, (change t).toGrant = t.toGrant)
    (id other : TokenId) :
    (reg.modify id change).find? other =
      (reg.find? other).map fun t => if t.id = id then change t else t := by
  refine Keyed.find?_map_of_key (fun t => ?_) other
  split
  · exact congrArg Grant.id (hc t)
  · rfl

/-- A change of marks does not show in the grants. -/
theorem grants_modify {change : Token → Token} (hc : ∀ t, (change t).toGrant = t.toGrant) :
    (reg.modify id change).grants = reg.grants := by
  simp only [grants, modify, List.map_map]
  refine List.map_congr_left fun t _ => ?_
  simp only [Function.comp_apply]
  split
  · exact hc t
  · rfl

theorem revoke_cases (reg : Registry) (id : TokenId) :
    (id ∈ reg.revokedIds ∧ reg.revoke id = (false, reg.modify id Token.revoke)) ∨
      (id ∉ reg.revokedIds ∧ reg.revoke id =
        (true, { reg.modify id Token.revoke with revokedIds := reg.revokedIds ++ [id] })) := by
  cases hid : reg.isRevoked id with
  | true => exact .inl ⟨of_decide_eq_true hid, by rw [revoke, hid, if_pos rfl]⟩
  | false =>
    refine .inr ⟨of_decide_eq_false hid, ?_⟩
    simp only [revoke, hid, Bool.false_eq_true, ↓reduceIte]

theorem records_revoke : (reg.revoke id).2.records = (reg.modify id Token.revoke).records := by
  rcases reg.revoke_cases id with ⟨-, hr⟩ | ⟨-, hr⟩ <;> rw [hr]

theorem grants_revoke : (reg.revoke id).2.grants = reg.grants := by
  rw [grants, records_revoke]
  exact grants_modify Token.revoke_toGrant

theorem mem_revokedIds_revoke {other : TokenId} :
    other ∈ (reg.revoke id).2.revokedIds ↔ other ∈ reg.revokedIds ∨ other = id := by
  rcases reg.revoke_cases id with ⟨hid, hr⟩ | ⟨-, hr⟩ <;> rw [hr]
  · exact ⟨.inl, fun h => h.elim (fun h => h) (fun h => h ▸ hid)⟩
  · simp only [List.mem_append, List.mem_singleton]

theorem mem_records_collectExpired :
    r ∈ (reg.collectExpired now).2.records ↔ r ∈ reg.records ∧ now ≤ r.expiresAt := by
  simp only [collectExpired, List.mem_filter, Bool.not_eq_true', Token.isExpiredAt_eq_false]

theorem distinct_collectExpired (hd : reg.Distinct) : (reg.collectExpired now).2.Distinct := by
  rw [Distinct, grants, List.map_map] at hd ⊢
  exact hd.sublist (List.filter_sublist.map _)

/-- A collection drops a record exactly after its expiry. -/
theorem find?_collectExpired (hd : reg.Distinct) :
    (reg.collectExpired now).2.find? id = (reg.find? id).filter fun r => now ≤ r.expiresAt := by
  cases hf : reg.find? id with
  | none =>
    rw [find?_eq_none] at hf
    exact find?_eq_none.2 fun r hr => hf r (mem_records_collectExpired.1 hr).1
  | some r =>
    have hr := mem_records_of_find? hf
    have hid := id_of_find? hf
    by_cases hnow : now ≤ r.expiresAt
    · rw [Option.filter_some, if_pos (decide_eq_true hnow), ← hid]
      exact find?_of_mem (distinct_collectExpired hd) (mem_records_collectExpired.2 ⟨hr, hnow⟩)
    · rw [Option.filter_some, if_neg (by simpa using hnow), find?_eq_none]
      intro q hq hqid
      obtain ⟨hq, hexpires⟩ := mem_records_collectExpired.1 hq
      have hfound := find?_of_mem hd hq
      rw [hqid, hf] at hfound
      cases hfound
      exact hnow hexpires

theorem grants_collectExpired :
    (reg.collectExpired now).2.grants = reg.grants.filter fun g => now ≤ g.expiresAt := by
  simp only [grants, collectExpired, List.filter_map]
  refine congrArg _ (List.filter_congr fun t _ => ?_)
  rw [Function.comp_apply, Token.isExpiredAt, Bool.eq_iff_iff]
  simp

/-! ## Acceptance -/

/-- A presented token is accepted on the strength of its record. -/
structure Accepted (sign : Signer) (reg : Registry) (now : Timestamp) (t record : Token) :
    Prop where
  found : reg.find? t.id = some record
  unrevoked : t.id ∉ reg.revokedIds
  unmarked : t.revoked = false
  record_unmarked : record.revoked = false
  unexpired : now ≤ t.expiresAt
  left : ∀ limit, t.maxUses = some limit → record.useCount < limit ∧ t.useCount < limit
  signed : sign t.payload = t.signature
  same : record.signature = t.signature
  lineage : reg.checkLineage record = .ok ()

theorem reachedLimit?_eq_none (h : reg.find? t.id = some r) :
    reg.reachedLimit? t = none ↔
      ∀ limit, t.maxUses = some limit → r.useCount < limit ∧ t.useCount < limit := by
  unfold reachedLimit? usesOf
  rw [h, Option.filter_eq_none_iff]
  refine forall_congr' fun limit => imp_congr_right fun _ => ?_
  simp only [decide_eq_true_eq, UInt32.not_le, UInt32.lt_iff_toNat_lt, Max.max]
  split <;> rename_i hle <;> rw [UInt32.le_iff_toNat_le] at hle <;> omega

theorem countsAsRevoked_eq_false (h : reg.find? t.id = some r) :
    reg.countsAsRevoked t = false ↔
      t.id ∉ reg.revokedIds ∧ t.revoked = false ∧ r.revoked = false := by
  simp only [countsAsRevoked, isRevoked, h, Option.any_some, Bool.or_eq_false_iff,
    decide_eq_false_iff_not, and_assoc]

theorem Accepted.countsAsRevoked {sign : Signer} (h : Accepted sign reg now t r) :
    reg.countsAsRevoked t = false :=
  (countsAsRevoked_eq_false h.found).2 ⟨h.unrevoked, h.unmarked, h.record_unmarked⟩

/-- **A presented token passes exactly when some record speaks for it.** -/
theorem evaluate_eq_ok_iff {sign : Signer} :
    reg.evaluate sign now t = .ok () ↔ ∃ record, Accepted sign reg now t record := by
  refine ⟨?_, ?_⟩
  · intro h
    unfold evaluate at h
    split at h
    · cases h
    rename_i hrevoked
    split at h
    · cases h
    rename_i hexpired
    split at h
    · cases h
    rename_i hlimit
    split at h
    · rename_i hsigned
      split at h
      · cases h
      rename_i record hfound
      split at h
      · rename_i hsame
        obtain ⟨h1, h2, h3⟩ := (countsAsRevoked_eq_false hfound).1 (Bool.eq_false_iff.2 hrevoked)
        exact ⟨record, hfound, h1, h2, h3,
          Token.isExpiredAt_eq_false.1 (Bool.eq_false_iff.2 hexpired),
          (reachedLimit?_eq_none hfound).1 hlimit, by simpa [Token.signatureMatches] using hsigned,
          hsame, h⟩
      · cases h
    · cases h
  · rintro ⟨record, h⟩
    have hlimit := (reachedLimit?_eq_none h.found).2 h.left
    have hsigned : t.signatureMatches sign = true := by
      simpa [Token.signatureMatches] using h.signed
    simp only [evaluate, h.countsAsRevoked, Token.isExpiredAt_eq_false.2 h.unexpired, hlimit,
      hsigned, h.found, h.same, h.lineage, Bool.false_eq_true, ↓reduceIte]

/-- An accepted token is accepted at any other time before its expiry. -/
theorem Accepted.of_unexpired {sign : Signer} {later : Timestamp}
    (h : Accepted sign reg now t r) (unexpired : later ≤ t.expiresAt) :
    Accepted sign reg later t r :=
  { h with unexpired }

/-- A token that was accepted before its expiry is refused after it, for nothing else. -/
theorem Accepted.evaluate_expired {sign : Signer} {later : Timestamp}
    (h : Accepted sign reg now t r) (expired : t.expiresAt < later) :
    reg.evaluate sign later t = .error (.expired t.expiresAt) := by
  have hexpired : t.isExpiredAt later = true := decide_eq_true expired
  simp only [evaluate, h.countsAsRevoked, hexpired, Bool.false_eq_true, ↓reduceIte]

/-- Why a presented token is refused. -/
inductive Refused (sign : Signer) (reg : Registry) (now : Timestamp) (t : Token) :
    TokenError → Prop
  | revoked : reg.countsAsRevoked t = true → Refused sign reg now t .revoked
  | expired : t.expiresAt < now → Refused sign reg now t (.expired t.expiresAt)
  | usedUp {limit : UInt32} : t.maxUses = some limit → limit ≤ reg.usesOf t →
      Refused sign reg now t (.useLimitExceeded limit)
  | unsigned : sign t.payload ≠ t.signature → Refused sign reg now t .invalidSignature
  | unknown : reg.find? t.id = none → Refused sign reg now t .unknownToken
  | differs {record : Token} : reg.find? t.id = some record → record.signature ≠ t.signature →
      Refused sign reg now t .invalidSignature
  | lineage {record : Token} : reg.find? t.id = some record → reg.checkLineage record ≠ .ok () →
      Refused sign reg now t .lineageViolation

theorem checkLineage_error {e : TokenError} (h : reg.checkLineage r = .error e) :
    e = .lineageViolation := by
  unfold checkLineage at h
  split at h
  · cases h
  split at h
  · cases h
  · exact (Except.error.inj h).symm

theorem refused_of_evaluate {sign : Signer} {e : TokenError}
    (h : reg.evaluate sign now t = .error e) : Refused sign reg now t e := by
  unfold evaluate at h
  split at h
  · cases h
    exact .revoked ‹_›
  split at h
  · rename_i hexpired
    cases h
    exact .expired (of_decide_eq_true hexpired)
  split at h
  · rename_i limit hlimit
    cases h
    obtain ⟨hmax, hle⟩ := Option.filter_eq_some_iff.1 hlimit
    exact .usedUp hmax (by simpa using hle)
  split at h
  · split at h
    · cases h
      exact .unknown ‹_›
    rename_i record hfound
    split at h
    · obtain rfl := checkLineage_error h
      exact .lineage hfound (by rw [h]; simp)
    · cases h
      exact .differs hfound ‹_›
  · rename_i hunsigned
    cases h
    exact .unsigned (by simpa [Token.signatureMatches] using hunsigned)

theorem use_of_accepted {sign : Signer} (h : Accepted sign reg now t r) :
    reg.use sign now t = (.ok r.use.useCount, reg.modify t.id Token.use) := by
  unfold use
  rw [evaluate_eq_ok_iff.2 ⟨r, h⟩]
  dsimp only
  rw [h.found]

theorem use_of_error {sign : Signer} {e : TokenError} (h : reg.evaluate sign now t = .error e) :
    reg.use sign now t = (.error e, reg) := by
  unfold use
  rw [h]

/-! ## New tokens -/

theorem create_cases (issuer : Issuer) (reg : Registry) (now : Timestamp) (id : TokenId)
    (request : TokenRequest) (parent : Option Token) :
    (∃ e, requestedGrant issuer reg now id request parent = .error e ∧
        reg.create issuer now id request parent = (.error e, reg)) ∨
      ∃ g, requestedGrant issuer reg now id request parent = .ok g ∧
        reg.create issuer now id request parent =
          (.ok (g.sign issuer.sign),
            { reg.put (g.sign issuer.sign) with issued := reg.issued + 1 }) := by
  cases hg : requestedGrant issuer reg now id request parent with
  | error e => exact .inl ⟨e, rfl, by rw [create, hg]⟩
  | ok g => exact .inr ⟨g, rfl, by rw [create, hg]⟩

theorem attenuate_cases (issuer : Issuer) (reg : Registry) (now : Timestamp) (id : TokenId)
    (source : Token) (capabilities : CapabilitySet) :
    (∃ e, attenuatedGrant issuer reg now id source capabilities = .error e ∧
        reg.attenuate issuer now id source capabilities = (.error e, reg)) ∨
      ∃ g, attenuatedGrant issuer reg now id source capabilities = .ok g ∧
        reg.attenuate issuer now id source capabilities =
          (.ok (g.sign issuer.sign),
            { reg.put (g.sign issuer.sign) with attenuated := reg.attenuated + 1 }) := by
  cases hg : attenuatedGrant issuer reg now id source capabilities with
  | error e => exact .inl ⟨e, rfl, by rw [attenuate, hg]⟩
  | ok g => exact .inr ⟨g, rfl, by rw [attenuate, hg]⟩

end Registry

end QubitWarden
