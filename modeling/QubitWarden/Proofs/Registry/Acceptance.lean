import QubitWarden.Proofs.Registry.Forest
import QubitWarden.Proofs.Registry.UseCount

/-!
# Which tokens are accepted

After a run with fresh identifiers and tags that tell, the registry is consistent with the history.
A faithful copy of an issued token is then accepted as long as the token is registered, unexpired,
never revoked and below its limit.

* `Consistent`: all invariants together (`consistent_run`).
* `Provenance.issued_of_accepted`: an accepted token has the grant of an issued one.
* `Consistent.accepted`, `Consistent.refused`: faithful copies below the limit, and at it.
-/

namespace QubitWarden.Registry

variable {issuer : Issuer} {sign : Signer} {reg : Registry} {now : Timestamp} {h : TokenHistory}
  {t copy record : Token} {n : UInt32}

/-- The registry is as its history says. -/
structure Consistent (issuer : Issuer) (h : TokenHistory) (reg : Registry) : Prop where
  fresh : h.Fresh
  tags : h.TagsTell issuer.sign
  provenance : Provenance issuer.sign h reg
  registration : Registration h reg
  forest : Forest issuer.policy reg
  counted : Counted h reg

theorem consistent_run (calls : List (Timestamp × Call))
    (fresh : (history (run issuer calls).trace).Fresh)
    (tags : (history (run issuer calls).trace).TagsTell issuer.sign) :
    Consistent issuer (history (run issuer calls).trace) (run issuer calls).state where
  fresh := fresh
  tags := tags
  provenance := provenance_run issuer calls
  registration := registration_run calls fresh tags
  forest := forest_run calls fresh tags
  counted := counted_run calls fresh tags

/-- **Only tokens with an issued grant are accepted**, when tags tell. -/
theorem Provenance.issued_of_accepted (hp : Provenance sign h reg)
    (tags : TokenHistory.TagsTell sign (h ++ [.presented t]))
    (ha : Accepted sign reg now t record) :
    ∃ i ∈ h.issued, i.toGrant = t.toGrant := by
  obtain ⟨i, hi, hgrant, -⟩ := hp.genuine record (mem_records_of_find? ha.found)
  have ht : t ∈ TokenHistory.presented [.presented t] := List.mem_singleton_self t
  exact ⟨i, hi, hgrant.trans (hp.accepted tags ht ha)⟩

/-! ## Faithful copies -/

/-- A copy with the grant and the signature that were issued, without a mark of revocation, and with
a use count that is not ahead of the record. -/
structure FaithfulCopy (reg : Registry) (t copy : Token) : Prop where
  grant : copy.toGrant = t.toGrant
  signature : copy.signature = t.signature
  unmarked : copy.revoked = false
  useCount : ∀ record, reg.find? t.id = some record → copy.useCount ≤ record.useCount

/-- A token is a faithful copy of itself as it was issued. -/
theorem faithfulCopy_sign (sign : Signer) (reg : Registry) (g : Grant) :
    FaithfulCopy reg (g.sign sign) (g.sign sign) :=
  ⟨rfl, rfl, rfl, fun _ _ => UInt32.le_iff_toNat_le.2 (Nat.zero_le _)⟩

theorem Consistent.countsAsRevoked (hc : Consistent issuer h reg) (hcopy : FaithfulCopy reg t copy)
    (found : reg.find? t.id = some record) (unrevoked : t.id ∉ h.revoked) :
    reg.countsAsRevoked copy = false := by
  have hid : copy.id = t.id := congrArg Grant.id hcopy.grant
  have hnot : t.id ∉ reg.revokedIds := fun hmem => unrevoked ((hc.provenance.revokedIds _).1 hmem)
  refine (countsAsRevoked_eq_false (hid ▸ found)).2 ⟨hid ▸ hnot, hcopy.unmarked, ?_⟩
  refine Bool.eq_false_iff.2 fun hmarked => hnot ?_
  rw [← id_of_find? found]
  exact hc.provenance.marked record (mem_records_of_find? found) hmarked

/-- **A faithful copy below its limit is accepted.** -/
theorem Consistent.accepted (hc : Consistent issuer h reg) (ht : t ∈ h.issued)
    (hcopy : FaithfulCopy reg t copy) (found : reg.find? t.id = some record)
    (unexpired : now ≤ t.expiresAt) (unrevoked : t.id ∉ h.revoked)
    (left : ∀ n, t.maxUses = some n → h.uses t.id < n.toNat) :
    Accepted issuer.sign reg now copy record := by
  have hid : copy.id = t.id := congrArg Grant.id hcopy.grant
  have hfound : reg.find? copy.id = some record := hid ▸ found
  obtain ⟨hgrant, hsignature⟩ := hc.provenance.record_of_issued hc.fresh ht found
  obtain ⟨hids, hunmarked, hrecord⟩ :=
    (countsAsRevoked_eq_false hfound).1 (hc.countsAsRevoked hcopy found unrevoked)
  have hmem := mem_records_of_find? found
  have hleft : ∀ n, copy.maxUses = some n → record.useCount < n ∧ copy.useCount < n := by
    intro n hn
    rw [hcopy.grant] at hn
    have hbelow : record.useCount < n := by
      rw [UInt32.lt_iff_toNat_lt, hc.counted.useCount_eq ht hn found]
      exact left n hn
    exact ⟨hbelow, UInt32.lt_of_le_of_lt (hcopy.useCount record found) hbelow⟩
  have hsigned : issuer.sign copy.payload = copy.signature := by
    rw [hcopy.grant, hcopy.signature, ← hgrant, ← hsignature]
    exact (hc.provenance.signed hmem).symm
  exact {
    found := hfound
    unrevoked := hids
    unmarked := hunmarked
    record_unmarked := hrecord
    unexpired := by rwa [hcopy.grant]
    left := hleft
    signed := hsigned
    same := by rw [hsignature, hcopy.signature]
    lineage := hc.forest.checkLineage hc.registration.distinct hmem }

/-- The use of a faithful copy below its limit counts one more than before. -/
theorem Consistent.use_eq (hc : Consistent issuer h reg) (ht : t ∈ h.issued)
    (hn : t.maxUses = some n) (found : reg.find? t.id = some record)
    (accepted : Accepted issuer.sign reg now copy record) (left : h.uses t.id < n.toNat) :
    ∃ k after, reg.use issuer.sign now copy = (.ok k, after) ∧ k.toNat = h.uses t.id + 1 := by
  refine ⟨_, _, use_of_accepted accepted, ?_⟩
  have hlt := toNat_lt_size n
  rw [Token.use, Saturating.toNat_succ32, hc.counted.useCount_eq ht hn found]
  omega

/-- **A faithful copy at its limit is refused for that.** -/
theorem Consistent.refused (hc : Consistent issuer h reg) (ht : t ∈ h.issued)
    (hcopy : FaithfulCopy reg t copy) (found : reg.find? t.id = some record)
    (unexpired : now ≤ t.expiresAt) (unrevoked : t.id ∉ h.revoked) (hn : t.maxUses = some n)
    (used : h.uses t.id = n.toNat) :
    reg.evaluate issuer.sign now copy = .error (.useLimitExceeded n) := by
  have hid : copy.id = t.id := congrArg Grant.id hcopy.grant
  have hfound : reg.find? copy.id = some record := hid ▸ found
  have hlimit : copy.maxUses = some n := (congrArg Grant.maxUses hcopy.grant).trans hn
  have hexpired : copy.isExpiredAt now = false := by
    rwa [Token.isExpiredAt_eq_false, hcopy.grant]
  have hreached : reg.reachedLimit? copy = some n := by
    cases hr : reg.reachedLimit? copy with
    | none =>
      have hbelow := ((reachedLimit?_eq_none hfound).1 hr n hlimit).1
      rw [UInt32.lt_iff_toNat_lt, hc.counted.useCount_eq ht hn found, used] at hbelow
      exact absurd hbelow (Nat.lt_irrefl _)
    | some m =>
      have := Option.eq_some_of_filter_eq_some hr
      rw [← this, hlimit]
  simp only [evaluate, hc.countsAsRevoked hcopy found unrevoked, hexpired, hreached,
    Bool.false_eq_true, ↓reduceIte]

/-- Without a limit, no refusal is for the limit. -/
theorem evaluate_ne_useLimitExceeded (hn : t.maxUses = none) :
    reg.evaluate sign now t ≠ .error (.useLimitExceeded n) := by
  intro he
  cases refused_of_evaluate he with
  | usedUp hmax => rw [hn] at hmax; cases hmax

end QubitWarden.Registry
