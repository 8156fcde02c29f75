import QubitWarden.Proofs.Registry.Provenance

/-!
# Counted uses

The use count on record is the number of uses that were counted under its identifier, up to the
largest word, and no limit is exceeded: an accepted copy has the limit of its record, which is the
limit that was issued, and the record of a used token is still below it.

* `Counted`: the invariant, kept by every exchange (`counted_effect`, `counted_run`).
* `Counted.useCount_eq`: for a token with a limit, the count on record is exact.
-/

namespace QubitWarden.Registry

variable {issuer : Issuer} {reg after : Registry} {now : Timestamp} {h told : TokenHistory}

/-- How the counts on record relate to what was counted. -/
structure Counted (h : TokenHistory) (reg : Registry) : Prop where
  known : ∀ id, 0 < h.uses id → ∃ t ∈ h.issued, t.id = id
  recorded : ∀ r ∈ reg.records, r.useCount.toNat = min (h.uses r.id) (UInt32.size - 1)
  limited : ∀ t ∈ h.issued, ∀ n, t.maxUses = some n → h.uses t.id ≤ n.toNat

theorem uses_used (t : Token) (id : TokenId) :
    TokenHistory.uses [.presented t, .used t.id] id = if t.id = id then 1 else 0 := by
  by_cases hid : t.id = id <;> simp [TokenHistory.uses, hid]

theorem uses_issued (shown : List Token) (t : Token) (id : TokenId) :
    TokenHistory.uses (shown.map .presented ++ [.issued t]) id = 0 := by
  rw [TokenHistory.uses_append, TokenHistory.uses_presented]
  simp [TokenHistory.uses]

theorem toNat_lt_size (n : UInt32) : n.toNat < UInt32.size := n.toNat_lt

/-- For a token with a limit, the count on record is exact. -/
theorem Counted.useCount_eq (hc : Counted h reg) {t record : Token} (ht : t ∈ h.issued)
    {n : UInt32} (hn : t.maxUses = some n) (found : reg.find? t.id = some record) :
    record.useCount.toNat = h.uses t.id := by
  have hid : record.id = t.id := id_of_find? found
  have hrecorded := hc.recorded record (mem_records_of_find? found)
  have hle := hc.limited t ht n hn
  have hlt := toNat_lt_size n
  rw [hid] at hrecorded
  omega

/-- A counted use stays within the limit that was issued. -/
theorem Counted.limited_used (hc : Counted h reg) (hp : Provenance issuer.sign h reg)
    (fresh : h.Fresh) {t shown record : Token} (ht : t ∈ h.issued) {n : UInt32}
    (hn : t.maxUses = some n) (hid : shown.id = t.id)
    (accepted : Accepted issuer.sign reg now shown record)
    (same : record.toGrant = shown.toGrant) : h.uses t.id < n.toNat := by
  have found : reg.find? t.id = some record := hid ▸ accepted.found
  have hgrant := (hp.record_of_issued fresh ht found).1
  have hlimit : shown.maxUses = some n := by
    rw [← hn]
    exact congrArg Grant.maxUses (same.symm.trans hgrant)
  have hbelow := UInt32.lt_iff_toNat_lt.1 (accepted.left n hlimit).1
  rwa [hc.useCount_eq ht hn found] at hbelow

/-- What is counted under no identifier leaves the counts as they are. -/
theorem Counted.of_uses_eq_zero (hc : Counted h reg) (hzero : ∀ id, told.uses id = 0)
    (fresh : (h ++ told).Fresh)
    (hrecords : ∀ r ∈ after.records,
      (∃ q ∈ reg.records, r.id = q.id ∧ r.useCount = q.useCount) ∨
        r ∈ told.issued ∧ r.useCount = 0) :
    Counted (h ++ told) after := by
  have huses (id : TokenId) : TokenHistory.uses (h ++ told) id = h.uses id := by
    rw [TokenHistory.uses_append, hzero, Nat.add_zero]
  -- A new token has not been used, since only known identifiers have.
  have hnew : ∀ t ∈ told.issued, h.uses t.id = 0 := by
    intro t ht
    refine Nat.eq_zero_of_not_pos fun hpos => ?_
    obtain ⟨i, hi, hid⟩ := hc.known t.id hpos
    exact fresh.id_ne hi ht hid
  refine ⟨?_, ?_, ?_⟩
  · intro id hpos
    obtain ⟨t, ht, hid⟩ := hc.known id (huses id ▸ hpos)
    rw [TokenHistory.issued_append]
    exact ⟨t, List.mem_append_left _ ht, hid⟩
  · intro r hr
    rw [huses]
    rcases hrecords r hr with ⟨q, hq, hid, hcount⟩ | ⟨hissued, hcount⟩
    · rw [hid, hcount]
      exact hc.recorded q hq
    · rw [hcount, hnew r hissued]
      rfl
  · intro t ht n hn
    rw [huses]
    rw [TokenHistory.issued_append, List.mem_append] at ht
    rcases ht with ht | ht
    · exact hc.limited t ht n hn
    · rw [hnew t ht]
      exact Nat.zero_le _

/-- A use adds one to its record. -/
theorem Counted.used (hc : Counted h reg) (hp : Provenance issuer.sign h reg) {t record : Token}
    (fresh : h.Fresh) (accepted : Accepted issuer.sign reg now t record)
    (same : record.toGrant = t.toGrant) :
    Counted (h ++ [.presented t, .used t.id]) (reg.modify t.id Token.use) := by
  have hissued : TokenHistory.issued (h ++ [.presented t, .used t.id]) = h.issued :=
    (TokenHistory.issued_append ..).trans (List.append_nil _)
  refine ⟨?_, ?_, ?_⟩
  · intro id hpos
    rw [hissued]
    by_cases hid : t.id = id
    · obtain ⟨i, hi, hgrant, -⟩ := hp.genuine record (mem_records_of_find? accepted.found)
      exact ⟨i, hi, (congrArg Grant.id hgrant).trans ((id_of_find? accepted.found).trans hid)⟩
    · rw [TokenHistory.uses_append, uses_used, if_neg hid] at hpos
      exact hc.known id hpos
  · intro r hr
    obtain ⟨q, hq, rfl⟩ := mem_records_modify.1 hr
    have hrecorded := hc.recorded q hq
    rw [TokenHistory.uses_append, uses_used]
    by_cases hid : q.id = t.id
    · rw [if_pos hid]
      show q.use.useCount.toNat = min (h.uses q.id + if t.id = q.id then 1 else 0) _
      rw [if_pos hid.symm, Token.use, Saturating.toNat_succ32, hrecorded]
      -- A full count stays full, on record as in the invariant.
      omega
    · rw [if_neg hid, if_neg (Ne.symm hid)]
      exact hrecorded
  · intro i hi n hn
    rw [hissued] at hi
    rw [TokenHistory.uses_append, uses_used]
    split
    next hid => exact hc.limited_used hp fresh hi hn hid accepted same
    next => exact hc.limited i hi n hn

theorem counted_effect (hp : Provenance issuer.sign h reg) (fresh : (h ++ told).Fresh)
    (tags : (h ++ told).TagsTell issuer.sign) (e : Effect issuer reg now told after)
    (hc : Counted h reg) : Counted (h ++ told) after := by
  cases e with
  | none shown =>
    exact hc.of_uses_eq_zero (TokenHistory.uses_presented shown) fresh
      fun r hr => .inl ⟨r, hr, rfl, rfl⟩
  | @issued shown g _ _ records _ =>
    refine hc.of_uses_eq_zero (uses_issued shown _) fresh fun r hr => ?_
    rcases mem_putRecord (records ▸ hr) with rfl | hr
    · exact .inr ⟨by simp [TokenHistory.issued], rfl⟩
    · exact .inl ⟨r, hr, rfl, rfl⟩
  | used accepted =>
    exact hc.used hp fresh.left accepted
      (hp.accepted tags (by simp [TokenHistory.presented]) accepted)
  | revoked id =>
    refine hc.of_uses_eq_zero (fun other => rfl) fresh fun r hr => .inl ?_
    obtain ⟨q, hq, rfl⟩ := mem_records_modify.1 (records_revoke ▸ hr)
    refine ⟨q, hq, ?_⟩
    split <;> exact ⟨rfl, rfl⟩
  | collected =>
    exact hc.of_uses_eq_zero (fun other => rfl) fresh
      fun r hr => .inl ⟨r, (mem_records_collectExpired.1 hr).1, rfl, rfl⟩

theorem counted_run (calls : List (Timestamp × Call))
    (fresh : (history (run issuer calls).trace).Fresh)
    (tags : (history (run issuer calls).trace).TagsTell issuer.sign) :
    Counted (history (run issuer calls).trace) (run issuer calls).state := by
  refine invariant_run ⟨fun id hpos => ?_, fun r hr => ?_, fun t ht => ?_⟩ counted_effect calls
    fresh tags
  · exact absurd hpos (Nat.lt_irrefl 0)
  · cases hr
  · cases ht

end QubitWarden.Registry
