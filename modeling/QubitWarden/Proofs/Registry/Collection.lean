import Mathlib.Data.List.Induction
import QubitWarden.Proofs.Registry.Acceptance

/-!
# Collections go unnoticed

Two runs that differ only in when expired records were dropped answer every other call alike, as
long as the clock does not go back: a record that one of them has dropped is of no use to anybody.

* `Agree`: two registries with the same revocations and the same records that have not expired.
* `agree_step`: such registries answer a call alike, apart from the reason of a refusal, and still
  agree afterwards. `Agree.collected`: a collection does not disturb the agreement.
* `Interleaved`: two lists of calls that differ only in collections.
* `collections_unnoticed`: the two runs have the same successes and agree at the end.
-/

namespace QubitWarden.Registry

variable {issuer : Issuer} {sign : Signer} {reg a b : Registry} {now time : Timestamp}
  {h : TokenHistory} {t record : Token}

/-! ## What a caller sees -/

/-- Whether the call drops expired records. -/
def Call.isCollection : Call → Bool
  | .collectExpired => true
  | .create .. | .attenuate .. | .check _ | .use _ | .revoke _ | .isRevoked _ => false

/-- The tokens that a call presents. -/
def Call.shown : Call → List Token
  | .create _ _ parent => parent.toList
  | .attenuate _ source _ => [source]
  | .check t | .use t => [t]
  | .revoke _ | .isRevoked _ | .collectExpired => []

/-- An answer without the reason of a refusal. -/
inductive Success where
  | token (t : Token)
  | passed
  | used (count : UInt32)
  | flag (value : Bool)
  | dropped (count : Nat)
  deriving DecidableEq

/-- What succeeded, if the call was not refused. -/
def Answer.success? : Answer → Option Success
  | .token (.ok t) => some (.token t)
  | .checked (.ok ()) => some .passed
  | .used (.ok count) => some (.used count)
  | .flag value => some (.flag value)
  | .dropped count => some (.dropped count)
  | .token (.error _) | .checked (.error _) | .used (.error _) => none

/-- What was called in a trace apart from collections, and with what success. -/
def outcomes (trace : List (Exchange Call Answer)) : List (Timestamp × Call × Option Success) :=
  (trace.filter fun e => !e.call.isCollection).map fun e => (e.now, e.call, e.answer.success?)

theorem presented_facts (e : Exchange Call Answer) :
    TokenHistory.presented (facts e) = e.call.shown := by
  obtain ⟨now, call, answer⟩ := e
  have hissued : TokenHistory.presented (issuedBy answer) = [] := by
    unfold issuedBy
    split <;> rfl
  cases call with
  | create id request parent => simp [facts, Call.shown, hissued]
  | attenuate id source capabilities =>
    simp only [facts, Call.shown, TokenHistory.presented_append, hissued, List.append_nil]
    rfl
  | use t =>
    cases answer with
    | used result => cases result <;> rfl
    | token | checked | flag | dropped => rfl
  | check | revoke | isRevoked | collectExpired => rfl

/-! ## Agreement -/

/-- The same identifiers are revoked, and the same records have not expired. -/
structure Agree (now : Timestamp) (a b : Registry) : Prop where
  revokedIds : a.revokedIds = b.revokedIds
  records : ∀ id r, now ≤ r.expiresAt → (a.find? id = some r ↔ b.find? id = some r)

theorem Agree.symm (hab : Agree now a b) : Agree now b a :=
  ⟨hab.revokedIds.symm, fun id r hr => (hab.records id r hr).symm⟩

theorem Agree.later (hab : Agree now a b) (hle : now ≤ time) : Agree time a b :=
  ⟨hab.revokedIds, fun id r hr => hab.records id r (UInt64.le_trans hle hr)⟩

/-- **A collection does not disturb the agreement.** -/
theorem Agree.collected (hab : Agree now a b) (hd : a.Distinct) (hle : time ≤ now) :
    Agree now (a.collectExpired time).2 b := by
  refine ⟨hab.revokedIds, fun id r hr => ?_⟩
  rw [find?_collectExpired hd, Option.filter_eq_some_iff, hab.records id r hr, decide_eq_true_eq]
  exact and_iff_left (UInt64.le_trans hle hr)

theorem Agree.put (hab : Agree now a b) (t : Token) {a' b' : Registry}
    (ha : a'.records = (a.put t).records) (hb : b'.records = (b.put t).records)
    (harevoked : a'.revokedIds = a.revokedIds) (hbrevoked : b'.revokedIds = b.revokedIds) :
    Agree now a' b' := by
  refine ⟨by rw [harevoked, hbrevoked, hab.revokedIds], fun id r hr => ?_⟩
  have hfa : a'.find? id = (a.put t).find? id := by rw [find?, ha]; rfl
  have hfb : b'.find? id = (b.put t).find? id := by rw [find?, hb]; rfl
  rw [hfa, hfb, find?_put, find?_put]
  split
  · exact Iff.rfl
  · exact hab.records id r hr

theorem Agree.modify (hab : Agree now a b) (id : TokenId) {change : Token → Token}
    (hc : ∀ t, (change t).toGrant = t.toGrant) :
    Agree now (a.modify id change) (b.modify id change) := by
  refine ⟨hab.revokedIds, fun other r hr => ?_⟩
  have hsame : ∀ q : Token, (if q.id = id then change q else q).expiresAt = q.expiresAt := by
    intro q
    split
    · exact congrArg Grant.expiresAt (hc q)
    · rfl
  rw [find?_modify hc, find?_modify hc, Option.map_eq_some_iff, Option.map_eq_some_iff]
  refine exists_congr fun q => and_congr_left fun hq => ?_
  apply hab.records
  rwa [← hsame q, hq]

theorem Agree.revoke (hab : Agree now a b) (id : TokenId) :
    (a.revoke id).1 = (b.revoke id).1 ∧ Agree now (a.revoke id).2 (b.revoke id).2 := by
  have hmarked := hab.modify id Token.revoke_toGrant
  have hrevoked : a.isRevoked id = b.isRevoked id := by rw [isRevoked, hab.revokedIds, isRevoked]
  unfold Registry.revoke
  dsimp only
  rw [hrevoked]
  split
  · exact ⟨rfl, hmarked⟩
  · exact ⟨rfl, by rw [hab.revokedIds], hmarked.records⟩

/-! ## The same tokens are accepted -/

/-- Presented tokens are accepted only with the grant on record, and no record exceeds its parent. -/
structure Reliable (sign : Signer) (reg : Registry) (now : Timestamp) (shown : List Token) : Prop
    where
  same : ∀ t ∈ shown, ∀ record, Accepted sign reg now t record → record.toGrant = t.toGrant
  lineage : ∀ record ∈ reg.records, reg.checkLineage record = .ok ()

theorem Consistent.reliable (hc : Consistent issuer h reg) {shown : List Token}
    (tags : TokenHistory.TagsTell issuer.sign (h ++ shown.map .presented)) (now : Timestamp) :
    Reliable issuer.sign reg now shown := by
  refine ⟨fun t ht record ha => ?_, fun record hr => ?_⟩
  · exact hc.provenance.accepted tags (by simpa using ht) ha
  · exact hc.forest.checkLineage hc.registration.distinct hr

variable {shown : List Token}

theorem Agree.accepted (hab : Agree now a b) (ha : Reliable sign a now shown)
    (hb : Reliable sign b now shown) (ht : t ∈ shown) (haccepted : Accepted sign a now t record) :
    Accepted sign b now t record := by
  -- The record expires when the presented token does, so no collection has dropped it.
  have hexpires : record.expiresAt = t.expiresAt :=
    congrArg Grant.expiresAt (ha.same t ht record haccepted)
  have hnow : now ≤ record.expiresAt := by
    rw [hexpires]
    exact haccepted.unexpired
  have hfound : b.find? t.id = some record := (hab.records t.id record hnow).1 haccepted.found
  exact { haccepted with
    found := hfound
    unrevoked := hab.revokedIds ▸ haccepted.unrevoked
    lineage := hb.lineage record (mem_records_of_find? hfound) }

/-- **A token is accepted by both or by none**, on the strength of one record. -/
theorem Agree.evaluate_cases (hab : Agree now a b) (ha : Reliable sign a now shown)
    (hb : Reliable sign b now shown) (ht : t ∈ shown) :
    (∃ record, Accepted sign a now t record ∧ Accepted sign b now t record) ∨
      ∃ e e', a.evaluate sign now t = .error e ∧ b.evaluate sign now t = .error e' := by
  cases hea : a.evaluate sign now t with
  | ok =>
    obtain ⟨record, haccepted⟩ := evaluate_eq_ok_iff.1 hea
    exact .inl ⟨record, haccepted, hab.accepted ha hb ht haccepted⟩
  | error e =>
    cases heb : b.evaluate sign now t with
    | ok =>
      obtain ⟨record, haccepted⟩ := evaluate_eq_ok_iff.1 heb
      rw [evaluate_eq_ok_iff.2 ⟨record, hab.symm.accepted hb ha ht haccepted⟩] at hea
      cases hea
    | error e' => exact .inr ⟨e, e', rfl, rfl⟩

/-! ## The same grants -/

/-- Both results are refusals, or they are the same. -/
inductive Alike {ε α : Type} : Except ε α → Except ε α → Prop
  | refused (e e' : ε) : Alike (.error e) (.error e')
  | ok (x : α) : Alike (.ok x) (.ok x)

theorem Alike.refl {ε α : Type} (x : Except ε α) : Alike x x := by
  cases x with
  | error e => exact .refused e e
  | ok x => exact .ok x

theorem remainingUses_congr {id : TokenId} (h : a.find? id = b.find? id) :
    a.remainingUses id = b.remainingUses id := by
  rw [remainingUses, h, remainingUses]

theorem requestedGrant_alike (issuer : Issuer) (hab : Agree now a b) (id : TokenId) (request : TokenRequest)
    {parent : Option Token} (ha : Reliable issuer.sign a now parent.toList)
    (hb : Reliable issuer.sign b now parent.toList) :
    Alike (requestedGrant issuer a now id request parent)
      (requestedGrant issuer b now id request parent) := by
  unfold requestedGrant
  split
  · exact .refused _ _
  cases parent with
  | none => exact .ok _
  | some parent =>
    dsimp only
    rcases hab.evaluate_cases ha hb (List.mem_singleton_self parent) with
      ⟨record, hina, hinb⟩ | ⟨e, e', hea, heb⟩
    · have huses := remainingUses_congr (hina.found.trans hinb.found.symm)
      rw [evaluate_eq_ok_iff.2 ⟨record, hina⟩, evaluate_eq_ok_iff.2 ⟨record, hinb⟩, childGrant, huses,
        childGrant]
      exact .refl _
    · rw [hea, heb]
      cases checkSubset request.capabilities parent.capabilities with
      | error => exact .refused _ _
      | ok =>
        cases checkDepth issuer.policy (Saturating.succ32 parent.depth) <;> exact .refused _ _

theorem attenuatedGrant_alike (issuer : Issuer) (hab : Agree now a b) (id : TokenId)
    {source : Token} (capabilities : CapabilitySet) (ha : Reliable issuer.sign a now [source])
    (hb : Reliable issuer.sign b now [source]) :
    Alike (attenuatedGrant issuer a now id source capabilities)
      (attenuatedGrant issuer b now id source capabilities) := by
  unfold attenuatedGrant
  rcases hab.evaluate_cases ha hb (List.mem_singleton_self source) with
    ⟨record, hina, hinb⟩ | ⟨e, e', hea, heb⟩
  · have huses := remainingUses_congr (hina.found.trans hinb.found.symm)
    rw [evaluate_eq_ok_iff.2 ⟨record, hina⟩, evaluate_eq_ok_iff.2 ⟨record, hinb⟩, narrowedGrant, huses,
      narrowedGrant]
    exact .refl _
  · rw [hea, heb]
    exact .refused _ _

/-! ## The same answers -/

/-- The answers tell the same facts and the same success. -/
structure SameAnswer (now : Timestamp) (call : Call) (x y : Answer) : Prop where
  success : x.success? = y.success?
  facts : facts ⟨now, call, x⟩ = facts ⟨now, call, y⟩

theorem agree_create (hab : Agree now a b) (id : TokenId) (request : TokenRequest)
    {parent : Option Token} (ha : Reliable issuer.sign a now parent.toList)
    (hb : Reliable issuer.sign b now parent.toList) :
    SameAnswer now (.create id request parent) (.token (a.create issuer now id request parent).1)
        (.token (b.create issuer now id request parent).1) ∧
      Agree now (a.create issuer now id request parent).2
        (b.create issuer now id request parent).2 := by
  have halike := requestedGrant_alike issuer hab id request ha hb
  unfold create
  generalize requestedGrant issuer a now id request parent = x at halike ⊢
  generalize requestedGrant issuer b now id request parent = y at halike ⊢
  cases halike with
  | refused => exact ⟨⟨rfl, rfl⟩, hab⟩
  | ok g => exact ⟨⟨rfl, rfl⟩, hab.put (g.sign issuer.sign) rfl rfl rfl rfl⟩

theorem agree_attenuate (hab : Agree now a b) (id : TokenId) {source : Token}
    (capabilities : CapabilitySet) (ha : Reliable issuer.sign a now [source])
    (hb : Reliable issuer.sign b now [source]) :
    SameAnswer now (.attenuate id source capabilities)
        (.token (a.attenuate issuer now id source capabilities).1)
        (.token (b.attenuate issuer now id source capabilities).1) ∧
      Agree now (a.attenuate issuer now id source capabilities).2
        (b.attenuate issuer now id source capabilities).2 := by
  have halike := attenuatedGrant_alike issuer hab id capabilities ha hb
  unfold attenuate
  generalize attenuatedGrant issuer a now id source capabilities = x at halike ⊢
  generalize attenuatedGrant issuer b now id source capabilities = y at halike ⊢
  cases halike with
  | refused => exact ⟨⟨rfl, rfl⟩, hab⟩
  | ok g => exact ⟨⟨rfl, rfl⟩, hab.put (g.sign issuer.sign) rfl rfl rfl rfl⟩

theorem agree_use (hab : Agree now a b) (ha : Reliable sign a now [t]) (hb : Reliable sign b now [t]) :
    SameAnswer now (.use t) (.used (a.use sign now t).1) (.used (b.use sign now t).1) ∧
      Agree now (a.use sign now t).2 (b.use sign now t).2 := by
  rcases hab.evaluate_cases ha hb (List.mem_singleton_self t) with
    ⟨record, hina, hinb⟩ | ⟨e, e', hea, heb⟩
  · rw [use_of_accepted hina, use_of_accepted hinb]
    exact ⟨⟨rfl, rfl⟩, hab.modify t.id Token.use_toGrant⟩
  · rw [use_of_error hea, use_of_error heb]
    exact ⟨⟨rfl, rfl⟩, hab⟩

/-- **Registries that agree answer a call alike** and still agree afterwards. -/
theorem agree_step (hab : Agree now a b) {call : Call} (hcall : call.isCollection = false)
    (ha : Reliable issuer.sign a now call.shown) (hb : Reliable issuer.sign b now call.shown) :
    SameAnswer now call (step issuer a now call).1 (step issuer b now call).1 ∧
      Agree now (step issuer a now call).2 (step issuer b now call).2 := by
  cases call with
  | create id request parent => exact agree_create hab id request ha hb
  | attenuate id source capabilities => exact agree_attenuate hab id capabilities ha hb
  | check t =>
    refine ⟨⟨?_, rfl⟩, hab⟩
    rcases hab.evaluate_cases ha hb (List.mem_singleton_self t) with
      ⟨record, hina, hinb⟩ | ⟨e, e', hea, heb⟩
    · simp only [step]
      rw [evaluate_eq_ok_iff.2 ⟨record, hina⟩, evaluate_eq_ok_iff.2 ⟨record, hinb⟩]
    · simp only [step]
      rw [hea, heb]
      rfl
  | use t => exact agree_use hab ha hb
  | revoke id =>
    obtain ⟨hflag, hafter⟩ := hab.revoke id
    refine ⟨⟨?_, rfl⟩, hafter⟩
    exact congrArg (fun value => some (Success.flag value)) hflag
  | isRevoked id =>
    refine ⟨⟨?_, rfl⟩, hab⟩
    simp only [step, isRevoked, hab.revokedIds]
  | collectExpired => cases hcall

/-! ## Runs -/

/-- Two lists of calls that differ only in collections, by their last calls. -/
inductive Interleaved : List (Timestamp × Call) → List (Timestamp × Call) → Prop
  | nil : Interleaved [] []
  | both {l m : List (Timestamp × Call)} {c : Timestamp × Call} :
      Interleaved l m → c.2.isCollection = false → Interleaved (l ++ [c]) (m ++ [c])
  | left {l m : List (Timestamp × Call)} {c : Timestamp × Call} :
      Interleaved l m → c.2.isCollection = true → Interleaved (l ++ [c]) m
  | right {l m : List (Timestamp × Call)} {c : Timestamp × Call} :
      Interleaved l m → c.2.isCollection = true → Interleaved l (m ++ [c])

/-- The calls apart from collections. -/
def uncollected (calls : List (Timestamp × Call)) : List (Timestamp × Call) :=
  calls.filter fun c => !c.2.isCollection

theorem uncollected_concat (l : List (Timestamp × Call)) (c : Timestamp × Call) :
    uncollected (l ++ [c]) =
      if c.2.isCollection = true then uncollected l else uncollected l ++ [c] := by
  unfold uncollected
  rw [List.filter_append]
  cases h : c.2.isCollection <;> simp [h]

theorem interleaved_of_eq {l m : List (Timestamp × Call)} (h : uncollected l = uncollected m) :
    Interleaved l m := by
  induction l using List.reverseRecOn generalizing m with
  | nil =>
    induction m using List.reverseRecOn with
    | nil => exact .nil
    | append_singleton m d ih =>
      rw [uncollected_concat] at h
      split at h
      next hd => exact .right (ih h) hd
      next => simp [uncollected] at h
  | append_singleton l c ih =>
    rw [uncollected_concat] at h
    split at h
    next hc => exact .left (ih h) hc
    next hc =>
      -- The last call of the second list is the same, once its last collections are left out.
      induction m using List.reverseRecOn with
      | nil => simp [uncollected] at h
      | append_singleton m d ihm =>
        rw [uncollected_concat] at h
        split at h
        next hd => exact .right (ihm h) hd
        next hd =>
          obtain ⟨hlm, hcd⟩ := List.append_inj' h rfl
          cases hcd
          exact .both (ih hlm) (Bool.eq_false_iff.2 hc)

/-- The clock does not go back during the calls, and shows `now` after them. -/
def Advancing (calls : List (Timestamp × Call)) (now : Timestamp) : Prop :=
  (calls.map Prod.fst ++ [now]).Pairwise (· ≤ ·)

instance (calls : List (Timestamp × Call)) (now : Timestamp) : Decidable (Advancing calls now) :=
  inferInstanceAs (Decidable (List.Pairwise _ _))

theorem Advancing.concat {calls : List (Timestamp × Call)} {c : Timestamp × Call}
    (hc : Advancing (calls ++ [c]) now) :
    Advancing calls c.1 ∧ Advancing calls now ∧ c.1 ≤ now := by
  unfold Advancing at *
  simp only [List.map_append, List.map_cons, List.map_nil, List.pairwise_append,
    List.pairwise_singleton, List.mem_append, List.mem_singleton, forall_eq, true_and] at hc ⊢
  obtain ⟨⟨hcalls, hlast⟩, hnow⟩ := hc
  exact ⟨⟨hcalls, hlast⟩, ⟨hcalls, fun time ht => hnow time (.inl ht)⟩, hnow c.1 (.inr rfl)⟩

/-- Two runs with the same tokens and the same successes that lead to registries that agree. -/
structure Matched (issuer : Issuer) (now : Timestamp) (l m : List (Timestamp × Call)) : Prop where
  issued : (history (run issuer l).trace).issued = (history (run issuer m).trace).issued
  presented : (history (run issuer l).trace).presented = (history (run issuer m).trace).presented
  outcomes : outcomes (run issuer l).trace = outcomes (run issuer m).trace
  agree : Agree now (run issuer l).state (run issuer m).state

section
variable {l m : List (Timestamp × Call)} {c : Timestamp × Call}

theorem run_concat (issuer : Issuer) (l : List (Timestamp × Call)) (c : Timestamp × Call) :
    run issuer (l ++ [c]) =
      ⟨(run issuer l).trace ++ [exchange (step issuer) (run issuer l).state c.1 c.2],
        (step issuer (run issuer l).state c.1 c.2).2⟩ :=
  runFrom_concat (step issuer) empty l c

theorem Matched.symm (hm : Matched issuer now l m) : Matched issuer now m l :=
  ⟨hm.issued.symm, hm.presented.symm, hm.outcomes.symm, hm.agree.symm⟩

/-- A collection in one run changes nothing. -/
theorem Matched.left (hm : Matched issuer now l m) (hc : c.2.isCollection = true) (hle : c.1 ≤ now)
    (hd : (run issuer l).state.Distinct) : Matched issuer now (l ++ [c]) m := by
  obtain ⟨time, call⟩ := c
  cases call with
  | create | attenuate | check | use | revoke | isRevoked => cases hc
  | collectExpired =>
    refine ⟨?_, ?_, ?_, ?_⟩
    · rw [run_concat, history_concat, TokenHistory.issued_append, hm.issued]
      exact List.append_nil _
    · rw [run_concat, history_concat, TokenHistory.presented_append, hm.presented]
      exact List.append_nil _
    · rw [run_concat, Registry.outcomes, List.filter_append, List.map_append, ← Registry.outcomes,
        hm.outcomes]
      exact List.append_nil _
    · rw [run_concat]
      exact hm.agree.collected hd hle

/-- Any other call in both runs has the same success. -/
theorem Matched.both (hm : Matched issuer c.1 l m) (hc : c.2.isCollection = false)
    (fresh : (history (run issuer (l ++ [c])).trace).Fresh)
    (tags : (history (run issuer (l ++ [c])).trace).TagsTell issuer.sign) (hle : c.1 ≤ now) :
    Matched issuer now (l ++ [c]) (m ++ [c]) := by
  rw [run_concat, history_concat] at fresh tags
  -- What is assumed of the first run holds of the second, which has the same tokens so far.
  have hshown (reg : Registry) :
      TokenHistory.presented (facts (exchange (step issuer) reg c.1 c.2)) = c.2.shown :=
    presented_facts _
  have hconsistent : Consistent issuer (history (run issuer l).trace) (run issuer l).state :=
    consistent_run l fresh.left tags.left
  have hconsistent' : Consistent issuer (history (run issuer m).trace) (run issuer m).state := by
    refine consistent_run m (fresh.left.of_issued_eq hm.issued.symm) ?_
    exact tags.left.of_subset (by rw [hm.issued]; simp) (by rw [hm.presented]; simp)
  have hreliable : Reliable issuer.sign (run issuer l).state c.1 c.2.shown := by
    refine hconsistent.reliable (tags.of_subset ?_ ?_) c.1
    · simp
    · simp [hshown]
  have hreliable' : Reliable issuer.sign (run issuer m).state c.1 c.2.shown := by
    refine hconsistent'.reliable (tags.of_subset ?_ ?_) c.1
    · simp [hm.issued]
    · simp [hm.presented, hshown]
  obtain ⟨hsame, hagree⟩ := agree_step hm.agree hc hreliable hreliable'
  have hfacts : facts (exchange (step issuer) (run issuer l).state c.1 c.2) =
      facts (exchange (step issuer) (run issuer m).state c.1 c.2) := hsame.facts
  refine ⟨?_, ?_, ?_, ?_⟩
  · rw [run_concat, run_concat, history_concat, history_concat, TokenHistory.issued_append,
      TokenHistory.issued_append, hm.issued, hfacts]
  · rw [run_concat, run_concat, history_concat, history_concat, TokenHistory.presented_append,
      TokenHistory.presented_append, hm.presented, hfacts]
  · have hlast : Registry.outcomes [exchange (step issuer) (run issuer l).state c.1 c.2] =
        Registry.outcomes [exchange (step issuer) (run issuer m).state c.1 c.2] := by
      simp [Registry.outcomes, exchange, hc, hsame.success]
    have hsplit (trace : List (Exchange Call Answer)) (e : Exchange Call Answer) :
        Registry.outcomes (trace ++ [e]) = Registry.outcomes trace ++ Registry.outcomes [e] := by
      simp only [Registry.outcomes, List.filter_append, List.map_append]
    rw [run_concat, run_concat, hsplit, hsplit, hm.outcomes, hlast]
  · rw [run_concat, run_concat]
    exact hagree.later hle

theorem matched_of_interleaved (hi : Interleaved l m) (hl : Advancing l now) (hm : Advancing m now)
    (fresh : (history (run issuer l).trace).Fresh)
    (tags : (history (run issuer l).trace).TagsTell issuer.sign) : Matched issuer now l m := by
  -- A common call is answered at its own time; what is collected by then has expired by `now`.
  induction hi generalizing now with
  | nil => exact ⟨rfl, rfl, rfl, rfl, fun _ _ _ => Iff.rfl⟩
  | @both l m c _ hc ih =>
    obtain ⟨hltime, -, hle⟩ := hl.concat
    obtain ⟨hmtime, -, -⟩ := hm.concat
    have hprefix := fresh
    have htags := tags
    rw [run_concat, history_concat] at hprefix htags
    exact (ih hltime hmtime hprefix.left htags.left).both hc fresh tags hle
  | @left l m c _ hc ih =>
    obtain ⟨-, hlnow, hle⟩ := hl.concat
    rw [run_concat, history_concat] at fresh tags
    exact (ih hlnow hm fresh.left tags.left).left hc hle
      (registration_run l fresh.left tags.left).distinct
  | @right l m c _ hc ih =>
    obtain ⟨-, hmnow, hle⟩ := hm.concat
    have hmatched := ih hl hmnow fresh tags
    have hd : (run issuer m).state.Distinct := by
      refine (registration_run m (fresh.of_issued_eq hmatched.issued.symm) ?_).distinct
      exact tags.of_subset (by rw [hmatched.issued]; simp) (by rw [hmatched.presented]; simp)
    exact (hmatched.symm.left hc hle hd).symm

end

/-- **Collections go unnoticed while the clock does not go back.** Two runs whose calls differ only
in collections have the same successes, with the same tokens, counts and truth values, and lead to
registries with the same revocations and the same records that have not expired. -/
theorem collections_unnoticed (issuer : Issuer) (calls others : List (Timestamp × Call))
    (now : Timestamp) (same : uncollected calls = uncollected others)
    (clock : Advancing calls now) (clock' : Advancing others now)
    (fresh : (history (run issuer calls).trace).Fresh)
    (texts : (history (run issuer calls).trace).TextsFit)
    (tags : (history (run issuer calls).trace).CollisionFree issuer.sign) :
    outcomes (run issuer calls).trace = outcomes (run issuer others).trace ∧
      (run issuer calls).state.revokedIds = (run issuer others).state.revokedIds ∧
        ∀ id r, now ≤ r.expiresAt →
          ((run issuer calls).state.find? id = some r ↔
            (run issuer others).state.find? id = some r) := by
  have hmatched : Matched issuer now calls others :=
    matched_of_interleaved (interleaved_of_eq same) clock clock' fresh
      (TokenHistory.tagsTell texts tags)
  exact ⟨hmatched.outcomes, hmatched.agree.revokedIds, hmatched.agree.records⟩

/-- A root token that lasts longer than the one of the other small runs. -/
def lastingRoot : Token :=
  (rootGrant {} 100 ⟨.ofFn fun _ => 2⟩ { sampleRequest with ttl := none }).sign .copying

/-- Both root tokens are used; the short one is dropped in between, if it is collected at all. -/
def collectedCalls (collections : List (Timestamp × Call)) : List (Timestamp × Call) :=
  [(100, .create sampleRoot.id sampleRequest none),
    (100, .create lastingRoot.id { sampleRequest with ttl := none } none),
    (110, .use sampleRoot)] ++ collections ++ [(170, .use lastingRoot), (170, .check sampleRoot)]

theorem collections_unnoticed_sample :
    let one := run sampleIssuer (collectedCalls [(161, .collectExpired)])
    let other := run sampleIssuer (collectedCalls [])
    one.state.find? sampleRoot.id = none ∧ other.state.find? sampleRoot.id = some sampleRoot.use ∧
      outcomes one.trace = outcomes other.trace := by
  intro one other
  obtain ⟨houtcomes, -⟩ := collections_unnoticed sampleIssuer
    (collectedCalls [(161, .collectExpired)]) (collectedCalls []) 170 rfl (by decide) (by decide)
    (by decide +kernel) (by decide +kernel) (by decide +kernel)
  exact ⟨by decide +kernel, by decide +kernel, houtcomes⟩

end QubitWarden.Registry
