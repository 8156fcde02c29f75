import QubitWarden.Proofs.Registry.Store
import QubitWarden.Proofs.Run
import QubitWarden.Proofs.Token.History

/-!
# Runs of the registry

The registry as a machine: its calls, its answers, and what each exchange tells about tokens. All
that an exchange can do to the registry is said once, in `Effect`.

* `Delegated`: a grant that stays within a presented token, the same for both ways to delegate.
* `step_effect`: every exchange has an `Effect`; `history_induction` carries a property of history
  and registry through every run, one case for each kind of effect.
-/

namespace QubitWarden.Registry

/-- What the registry can be asked. A new token comes with the identifier drawn for it. -/
inductive Call where
  | create (id : TokenId) (request : TokenRequest) (parent : Option Token)
  | attenuate (id : TokenId) (source : Token) (capabilities : CapabilitySet)
  | check (t : Token)
  | use (t : Token)
  | revoke (id : TokenId)
  | isRevoked (id : TokenId)
  | collectExpired

/-- What the registry answers. -/
inductive Answer where
  | token (result : Except TokenError Token)
  | checked (result : Except TokenError Unit)
  | used (result : Except TokenError UInt32)
  | flag (value : Bool)
  | dropped (count : Nat)

/-- The answer to a call, and the registry afterwards. -/
def step (issuer : Issuer) (reg : Registry) (now : Timestamp) : Call → Answer × Registry
  | .create id request parent => reply .token (reg.create issuer now id request parent)
  | .attenuate id source capabilities =>
    reply .token (reg.attenuate issuer now id source capabilities)
  | .check t => (.checked (reg.evaluate issuer.sign now t), reg)
  | .use t => reply .used (reg.use issuer.sign now t)
  | .revoke id => reply .flag (reg.revoke id)
  | .isRevoked id => (.flag (reg.isRevoked id), reg)
  | .collectExpired => reply .dropped (reg.collectExpired now)

/-- The run of the calls on the empty registry. -/
def run (issuer : Issuer) (calls : List (Timestamp × Call)) : Run Registry Call Answer :=
  runFrom (step issuer) empty calls

/-- The token of an answer, as a fact. -/
def issuedBy : Answer → TokenHistory
  | .token (.ok t) => [.issued t]
  | _ => []

/-- What an exchange tells about tokens. -/
def facts (e : Exchange Call Answer) : TokenHistory :=
  match e.call, e.answer with
  | .create _ _ parent, answer => parent.toList.map .presented ++ issuedBy answer
  | .attenuate _ source _, answer => [.presented source] ++ issuedBy answer
  | .check t, _ => [.presented t]
  | .use t, .used (.ok _) => [.presented t, .used t.id]
  | .use t, _ => [.presented t]
  | .revoke id, _ => [.revoked id]
  | .isRevoked _, _ => []
  | .collectExpired, _ => [.collected e.now]

/-- What a trace tells about tokens. -/
def history (trace : List (Exchange Call Answer)) : TokenHistory := trace.flatMap facts

theorem history_concat (trace : List (Exchange Call Answer)) (e : Exchange Call Answer) :
    history (trace ++ [e]) = history trace ++ facts e := by simp [history]

/-! ## Delegation -/

/-- A grant that stays within a presented token and what is left of its uses. -/
structure Delegated (policy : TokenPolicy) (reg : Registry) (source : Token) (g : Grant) : Prop
    where
  parent : g.parent = some source.id
  nonempty : g.capabilities.isEmpty = false
  subset : g.capabilities.isSubset source.capabilities = true
  expiresAt : g.expiresAt ≤ source.expiresAt
  uses : ∀ left, reg.remainingUses source.id = some left → ∃ n, g.maxUses = some n ∧ n ≤ left
  depth : g.depth = Saturating.succ32 source.depth
  depth_le : g.depth ≤ policy.maxDepth

/-- Where a new grant comes from: from nowhere, or from an accepted token that it stays within. -/
inductive Origin (issuer : Issuer) (reg : Registry) (now : Timestamp) : List Token → Grant → Prop
  | root {g : Grant} : g.parent = none → Origin issuer reg now [] g
  | delegated {source record : Token} {g : Grant} : Accepted issuer.sign reg now source record →
      Delegated issuer.policy reg source g → Origin issuer reg now [source] g

section
variable {issuer : Issuer} {reg : Registry} {now : Timestamp} {id : TokenId} {g : Grant}

theorem checkSubset_ok {requested source : CapabilitySet} {u : Unit}
    (h : checkSubset requested source = .ok u) :
    requested.isEmpty = false ∧ requested.isSubset source = true := by
  unfold checkSubset at h
  split at h
  · cases h
  rename_i hempty
  split at h
  · exact ⟨Bool.eq_false_iff.2 hempty, ‹_›⟩
  · cases h

theorem checkDepth_ok {policy : TokenPolicy} {depth : UInt32} {u : Unit}
    (h : checkDepth policy depth = .ok u) : depth ≤ policy.maxDepth := by
  unfold checkDepth at h
  split at h
  · cases h
  · exact UInt32.not_lt.1 ‹_›

theorem capUses_le {requested : Option UInt32} {left : UInt32} :
    ∃ n, capUses requested (some left) = some n ∧ n ≤ left := by
  cases requested with
  | none => exact ⟨left, rfl, UInt32.le_refl left⟩
  | some n =>
    refine ⟨min n left, rfl, ?_⟩
    simp only [Min.min]
    split
    · assumption
    · exact UInt32.le_refl left

/-- A requested grant is a root, or it stays within its presented parent. -/
theorem requestedGrant_ok {request : TokenRequest} {parent : Option Token}
    (h : requestedGrant issuer reg now id request parent = .ok g) :
    g.id = id ∧ Origin issuer reg now parent.toList g := by
  unfold requestedGrant at h
  split at h
  · cases h
  cases parent with
  | none =>
    cases h
    exact ⟨rfl, .root rfl⟩
  | some parent =>
    obtain ⟨_, hsubset, h⟩ := bind_eq_ok_iff.1 h
    obtain ⟨_, hdepth, h⟩ := bind_eq_ok_iff.1 h
    obtain ⟨_, haccepted, h⟩ := bind_eq_ok_iff.1 h
    cases h
    obtain ⟨record, haccepted⟩ := evaluate_eq_ok_iff.1 haccepted
    obtain ⟨hnonempty, hsubset⟩ := checkSubset_ok hsubset
    refine ⟨rfl, .delegated haccepted ⟨rfl, hnonempty, hsubset, ?_, ?_, rfl, checkDepth_ok hdepth⟩⟩
    · simp only [childGrant, Min.min]
      split
      · assumption
      · exact UInt64.le_refl _
    · intro left hleft
      simp only [childGrant, hleft]
      exact capUses_le

/-- A narrowed grant stays within the presented token. -/
theorem attenuatedGrant_ok {source : Token} {capabilities : CapabilitySet}
    (h : attenuatedGrant issuer reg now id source capabilities = .ok g) :
    g.id = id ∧ Origin issuer reg now [source] g := by
  obtain ⟨_, haccepted, h⟩ := bind_eq_ok_iff.1 h
  obtain ⟨_, hsubset, h⟩ := bind_eq_ok_iff.1 h
  obtain ⟨_, hdepth, h⟩ := bind_eq_ok_iff.1 h
  cases h
  obtain ⟨record, haccepted⟩ := evaluate_eq_ok_iff.1 haccepted
  obtain ⟨hnonempty, hsubset⟩ := checkSubset_ok hsubset
  refine ⟨rfl, .delegated haccepted
    ⟨rfl, hnonempty, hsubset, UInt64.le_refl _, ?_, rfl, checkDepth_ok hdepth⟩⟩
  intro left hleft
  exact ⟨left, hleft, UInt32.le_refl left⟩

end

/-! ## What an exchange can do -/

/-- What an exchange tells, and the registry it leaves. -/
inductive Effect (issuer : Issuer) (reg : Registry) (now : Timestamp) :
    TokenHistory → Registry → Prop
  | none (shown : List Token) : Effect issuer reg now (shown.map .presented) reg
  | issued {shown : List Token} {g : Grant} {after : Registry}
      (origin : Origin issuer reg now shown g)
      (records : after.records = (reg.put (g.sign issuer.sign)).records)
      (revokedIds : after.revokedIds = reg.revokedIds) :
      Effect issuer reg now (shown.map .presented ++ [.issued (g.sign issuer.sign)]) after
  | used {t record : Token} (accepted : Accepted issuer.sign reg now t record) :
      Effect issuer reg now [.presented t, .used t.id] (reg.modify t.id Token.use)
  | revoked (id : TokenId) : Effect issuer reg now [.revoked id] (reg.revoke id).2
  | collected : Effect issuer reg now [.collected now] (reg.collectExpired now).2

/-- **All that an exchange can do.** -/
theorem step_effect (issuer : Issuer) (reg : Registry) (now : Timestamp) (call : Call) :
    Effect issuer reg now (facts (exchange (step issuer) reg now call))
      (step issuer reg now call).2 := by
  cases call with
  | create id request parent =>
    simp only [exchange, step, reply, facts, create]
    cases hg : requestedGrant issuer reg now id request parent with
    | error e => simpa [issuedBy] using Effect.none parent.toList
    | ok g => exact .issued (requestedGrant_ok hg).2 rfl rfl
  | attenuate id source capabilities =>
    simp only [exchange, step, reply, facts, attenuate]
    cases hg : attenuatedGrant issuer reg now id source capabilities with
    | error e => exact .none [source]
    | ok g => exact .issued (attenuatedGrant_ok hg).2 rfl rfl
  | check t => exact .none [t]
  | use t =>
    simp only [exchange, step, reply, facts]
    cases he : reg.evaluate issuer.sign now t with
    | error e =>
      rw [use_of_error he]
      exact .none [t]
    | ok =>
      obtain ⟨record, haccepted⟩ := evaluate_eq_ok_iff.1 he
      rw [use_of_accepted haccepted]
      exact .used haccepted
  | revoke id => exact .revoked id
  | isRevoked id => exact .none []
  | collectExpired => exact .collected

/-- **Induction over the history of a run**, one case for each kind of effect. -/
theorem history_induction {P : TokenHistory → Registry → Prop} {issuer : Issuer}
    (base : P [] empty)
    (kept : ∀ {h reg now told after}, Effect issuer reg now told after → P h reg →
      P (h ++ told) after)
    (calls : List (Timestamp × Call)) :
    P (history (run issuer calls).trace) (run issuer calls).state := by
  refine runFrom_induction (P := fun trace reg => P (history trace) reg) (step issuer) base ?_ calls
  intro trace reg now call h
  have := kept (step_effect issuer reg now call) h
  simpa [history] using this

end QubitWarden.Registry
