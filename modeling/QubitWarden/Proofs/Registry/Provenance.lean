import QubitWarden.Proofs.Registry.Run

/-!
# Where registered tokens come from

Whatever is presented, and whatever identifiers are drawn, a record is an issued token up to its
marks, and its marks come from calls.

* `Provenance`: the invariant, kept by every exchange (`provenance_effect`, `provenance_run`).
* `Provenance.accepted`: an accepted token has the grant of a token that was issued, when tags tell.
* `registration_run`: with fresh identifiers, a token has one record until a collection after its
  expiry.
-/

namespace QubitWarden.Registry

variable {issuer : Issuer} {sign : Signer} {reg after : Registry} {now : Timestamp}
  {h told : TokenHistory}

theorem grants_of_records (hrecords : after.records = reg.records) : after.grants = reg.grants := by
  rw [grants, hrecords, grants]

theorem find?_of_records (hrecords : after.records = reg.records) {id : TokenId} :
    after.find? id = reg.find? id := by
  rw [find?, hrecords, find?]

/-- Up to its marks, a record was there before or has just been issued. -/
theorem Effect.record_cases (e : Effect issuer reg now told after) {r : Token}
    (hr : r ∈ after.records) :
    (∃ q ∈ reg.records, r.toGrant = q.toGrant ∧ r.signature = q.signature) ∨
      ∃ g : Grant, r = g.sign issuer.sign ∧ r ∈ told.issued := by
  have marked {id : TokenId} {change : Token → Token} (hc : ∀ t, (change t).toGrant = t.toGrant)
      (hs : ∀ t, (change t).signature = t.signature) (hr : r ∈ (reg.modify id change).records) :
      ∃ q ∈ reg.records, r.toGrant = q.toGrant ∧ r.signature = q.signature := by
    obtain ⟨q, hq, rfl⟩ := mem_records_modify.1 hr
    refine ⟨q, hq, ?_⟩
    split
    · exact ⟨hc q, hs q⟩
    · exact ⟨rfl, rfl⟩
  cases e with
  | none => exact .inl ⟨r, hr, rfl, rfl⟩
  | @issued _ g _ _ records _ =>
    rw [records] at hr
    rcases mem_putRecord hr with rfl | hr
    · exact .inr ⟨g, rfl, by simp [TokenHistory.issued]⟩
    · exact .inl ⟨r, hr, rfl, rfl⟩
  | used => exact .inl (marked Token.use_toGrant Token.use_signature hr)
  | revoked => exact .inl (marked Token.revoke_toGrant Token.revoke_signature (records_revoke ▸ hr))
  | collected => exact .inl ⟨r, (mem_records_collectExpired.1 hr).1, rfl, rfl⟩

/-- What was issued was signed as it is. -/
theorem Effect.issued_eq (e : Effect issuer reg now told after) {t : Token} (ht : t ∈ told.issued) :
    t = t.toGrant.sign issuer.sign := by
  cases e with
  | @issued shown g _ _ _ _ =>
    simp only [TokenHistory.issued_append, TokenHistory.issued_presented, List.nil_append] at ht
    obtain rfl : t = g.sign issuer.sign := List.mem_singleton.1 ht
    rfl
  | none => simp at ht
  | used | revoked | collected => cases ht

/-! ## The invariant -/

/-- Records are issued tokens up to their marks, and only revocation leaves marks of revocation. -/
structure Provenance (sign : Signer) (h : TokenHistory) (reg : Registry) : Prop where
  issued : ∀ t ∈ h.issued, t = t.toGrant.sign sign
  genuine : ∀ r ∈ reg.records, ∃ t ∈ h.issued, t.toGrant = r.toGrant ∧ t.signature = r.signature
  marked : ∀ r ∈ reg.records, r.revoked = true → r.id ∈ reg.revokedIds
  revokedIds : ∀ id, id ∈ reg.revokedIds ↔ id ∈ h.revoked

theorem provenance_effect (e : Effect issuer reg now told after)
    (hp : Provenance issuer.sign h reg) : Provenance issuer.sign (h ++ told) after := by
  refine ⟨?_, ?_, ?_, ?_⟩
  · intro t ht
    rw [TokenHistory.issued_append] at ht
    rcases List.mem_append.1 ht with ht | ht
    · exact hp.issued t ht
    · exact e.issued_eq ht
  · intro r hr
    rw [TokenHistory.issued_append]
    rcases e.record_cases hr with ⟨q, hq, hgrant, hsignature⟩ | ⟨g, rfl, hissued⟩
    · obtain ⟨t, ht, h1, h2⟩ := hp.genuine q hq
      exact ⟨t, List.mem_append_left _ ht, h1.trans hgrant.symm, h2.trans hsignature.symm⟩
    · exact ⟨_, List.mem_append_right _ hissued, rfl, rfl⟩
  · intro r hr hrevoked
    cases e with
    | none => exact hp.marked r hr hrevoked
    | issued _ records revokedIds =>
      rw [revokedIds]
      rcases mem_putRecord (records ▸ hr) with rfl | hr
      · cases hrevoked
      · exact hp.marked r hr hrevoked
    | used =>
      obtain ⟨q, hq, rfl⟩ := mem_records_modify.1 hr
      split at hrevoked <;> split <;> exact hp.marked q hq hrevoked
    | revoked id =>
      obtain ⟨q, hq, rfl⟩ := mem_records_modify.1 (records_revoke ▸ hr)
      refine mem_revokedIds_revoke.2 ?_
      by_cases hid : q.id = id
      · right
        rw [if_pos hid]
        exact hid
      · rw [if_neg hid] at hrevoked ⊢
        exact .inl (hp.marked q hq hrevoked)
    | collected => exact hp.marked r (mem_records_collectExpired.1 hr).1 hrevoked
  · intro id
    rw [TokenHistory.revoked_append, List.mem_append, ← hp.revokedIds id]
    cases e with
    | none => simp
    | issued _ _ revokedIds => simp [revokedIds, TokenHistory.revoked]
    | revoked other => simp [mem_revokedIds_revoke, TokenHistory.revoked]
    | used | collected => simp [TokenHistory.revoked, modify, collectExpired]

theorem provenance_empty : Provenance sign [] empty := by
  refine ⟨?_, ?_, ?_, ?_⟩ <;> simp [TokenHistory.issued, TokenHistory.revoked, empty]

theorem provenance_run (issuer : Issuer) (calls : List (Timestamp × Call)) :
    Provenance issuer.sign (history (run issuer calls).trace) (run issuer calls).state :=
  history_induction provenance_empty provenance_effect calls

/-- **Induction over a run with fresh identifiers and tags that tell**, in states of known
provenance. -/
theorem invariant_run {P : TokenHistory → Registry → Prop} (base : P [] empty)
    (kept : ∀ {h reg now told after}, Provenance issuer.sign h reg → (h ++ told).Fresh →
      (h ++ told).TagsTell issuer.sign → Effect issuer reg now told after → P h reg →
      P (h ++ told) after)
    (calls : List (Timestamp × Call)) (fresh : (history (run issuer calls).trace).Fresh)
    (tags : (history (run issuer calls).trace).TagsTell issuer.sign) :
    P (history (run issuer calls).trace) (run issuer calls).state := by
  refine (history_induction (P := fun h reg => Provenance issuer.sign h reg ∧
    (h.Fresh → h.TagsTell issuer.sign → P h reg)) ?_ ?_ calls).2 fresh tags
  · exact ⟨provenance_empty, fun _ _ => base⟩
  · intro h reg now told after e ⟨hp, hinv⟩
    exact ⟨provenance_effect e hp, fun fresh tags =>
      kept hp fresh tags e (hinv fresh.left tags.left)⟩

/-! ## Acceptance -/

/-- A record carries the tag of its payload. -/
theorem Provenance.signed (hp : Provenance sign h reg) {r : Token} (hr : r ∈ reg.records) :
    r.signature = sign r.payload := by
  obtain ⟨t, ht, hgrant, hsignature⟩ := hp.genuine r hr
  rw [← hsignature, ← hgrant, hp.issued t ht]
  rfl

theorem Provenance.mem_grants (hp : Provenance sign h reg) {g : Grant} (hg : g ∈ reg.grants) :
    ∃ t ∈ h.issued, t.toGrant = g := by
  obtain ⟨r, hr, rfl⟩ := Registry.mem_grants.1 hg
  obtain ⟨t, ht, hgrant, -⟩ := hp.genuine r hr
  exact ⟨t, ht, hgrant⟩

/-- With fresh identifiers, the record of an issued token is that token up to its marks. -/
theorem Provenance.record_of_issued (hp : Provenance sign h reg) (fresh : h.Fresh)
    {t record : Token} (ht : t ∈ h.issued) (found : reg.find? t.id = some record) :
    record.toGrant = t.toGrant ∧ record.signature = t.signature := by
  obtain ⟨i, hi, hgrant, hsignature⟩ := hp.genuine record (mem_records_of_find? found)
  have hid : i.id = t.id := (congrArg Grant.id hgrant).trans (id_of_find? found)
  obtain rfl : i = t := fresh.eq_of_id_eq hi ht hid
  exact ⟨hgrant.symm, hsignature.symm⟩

/-- **An accepted token has the grant of its record**, when tags tell. -/
theorem Provenance.accepted (hp : Provenance sign h reg)
    (tags : TokenHistory.TagsTell sign (h ++ told)) {t record : Token} (ht : t ∈ told.presented)
    (ha : Accepted sign reg now t record) :
    record.toGrant = t.toGrant := by
  have hr := mem_records_of_find? ha.found
  obtain ⟨i, hi, hgrant, -⟩ := hp.genuine record hr
  have hrecord : record.toGrant ∈ TokenHistory.grants (h ++ told) := by
    rw [← hgrant]
    exact TokenHistory.mem_grants_append _ (TokenHistory.mem_grants_of_issued hi)
  have hpresented : t.toGrant ∈ TokenHistory.grants (h ++ told) := by
    refine TokenHistory.mem_grants_of_presented ?_
    rw [TokenHistory.presented_append]
    exact List.mem_append_right _ ht
  refine tags _ hrecord _ hpresented ?_
  rw [ha.signed, ← ha.same, hp.signed hr]

/-! ## Registration -/

/-- Every identifier has one record, and an issued token is registered unless a collection came
after its expiry. -/
structure Registration (h : TokenHistory) (reg : Registry) : Prop where
  distinct : reg.Distinct
  kept : ∀ t ∈ h.issued, (∀ c ∈ h.collections, c ≤ t.expiresAt) → t.toGrant ∈ reg.grants

/-- With fresh identifiers, what an exchange registers is new. -/
theorem Provenance.id_unregistered (hp : Provenance sign h reg)
    (fresh : TokenHistory.Fresh (h ++ told)) {t : Token} (ht : t ∈ told.issued) :
    t.id ∉ reg.grants.map Grant.id := by
  intro hid
  obtain ⟨g, hg, hgid⟩ := List.mem_map.1 hid
  obtain ⟨i, hi, rfl⟩ := hp.mem_grants hg
  exact fresh.id_ne hi ht hgid

/-- With fresh identifiers, an exchange adds what it issued, or drops what has expired, or leaves
the grants alone. -/
theorem Effect.grants_cases (e : Effect issuer reg now told after)
    (hp : Provenance issuer.sign h reg) (fresh : TokenHistory.Fresh (h ++ told)) :
    (∃ g shown, Origin issuer reg now shown g ∧
        told = shown.map .presented ++ [.issued (g.sign issuer.sign)] ∧
        after.grants = reg.grants ++ [g]) ∨
      (told = [.collected now] ∧ after.grants = reg.grants.filter fun g => now ≤ g.expiresAt) ∨
      (told.issued = [] ∧ told.collections = [] ∧ after.grants = reg.grants) := by
  cases e with
  | none shown => exact .inr (.inr ⟨by simp, by simp, rfl⟩)
  | @issued shown g _ origin records _ =>
    refine .inl ⟨g, shown, origin, rfl, ?_⟩
    rw [grants_of_records records,
      grants_put (hp.id_unregistered fresh (by simp [TokenHistory.issued]))]
    rfl
  | used => exact .inr (.inr ⟨rfl, rfl, grants_modify Token.use_toGrant⟩)
  | revoked => exact .inr (.inr ⟨rfl, rfl, grants_revoke⟩)
  | collected => exact .inr (.inl ⟨rfl, grants_collectExpired⟩)

theorem registration_effect (hp : Provenance issuer.sign h reg)
    (fresh : TokenHistory.Fresh (h ++ told)) (e : Effect issuer reg now told after)
    (hr : Registration h reg) : Registration (h ++ told) after := by
  obtain ⟨g, shown, -, rfl, hgrants⟩ | ⟨rfl, hgrants⟩ | ⟨hissued, hcollections, hgrants⟩ :=
    e.grants_cases hp fresh
  · refine ⟨?_, ?_⟩
    · have hnew := hp.id_unregistered fresh (t := g.sign issuer.sign)
        (by simp [TokenHistory.issued])
      rw [Distinct, hgrants, List.map_append, List.nodup_append]
      refine ⟨hr.distinct, List.nodup_singleton _, fun id hid other hother he => hnew ?_⟩
      obtain rfl : other = g.id := by simpa using hother
      exact he ▸ hid
    · intro t ht hc
      rw [hgrants, List.mem_append]
      rw [TokenHistory.issued_append, List.mem_append] at ht
      rw [TokenHistory.collections_append] at hc
      rcases ht with ht | ht
      · exact .inl (hr.kept t ht fun c hmem => hc c (List.mem_append_left _ hmem))
      · obtain rfl : t = g.sign issuer.sign := by simpa [TokenHistory.issued] using ht
        exact .inr (List.mem_singleton_self _)
  · refine ⟨?_, ?_⟩
    · rw [Distinct, hgrants]
      exact hr.distinct.sublist (List.filter_sublist.map _)
    · intro t ht hc
      rw [TokenHistory.collections_append] at hc
      have hnow : now ≤ t.expiresAt := hc now (by simp [TokenHistory.collections])
      rw [hgrants, List.mem_filter, decide_eq_true_eq]
      refine ⟨hr.kept t (by simpa [TokenHistory.issued] using ht) fun c hmem => ?_, hnow⟩
      exact hc c (List.mem_append_left _ hmem)
  · refine ⟨?_, ?_⟩
    · rw [Distinct, hgrants]
      exact hr.distinct
    · intro t ht hc
      rw [TokenHistory.issued_append, hissued, List.append_nil] at ht
      rw [TokenHistory.collections_append, hcollections, List.append_nil] at hc
      rw [hgrants]
      exact hr.kept t ht hc

theorem registration_run (calls : List (Timestamp × Call))
    (fresh : (history (run issuer calls).trace).Fresh)
    (tags : (history (run issuer calls).trace).TagsTell issuer.sign) :
    Registration (history (run issuer calls).trace) (run issuer calls).state :=
  invariant_run ⟨List.nodup_nil, fun _ ht => by cases ht⟩
    (fun hp fresh _ => registration_effect hp fresh) calls fresh tags

end QubitWarden.Registry
