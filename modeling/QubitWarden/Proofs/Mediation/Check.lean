import QubitWarden.Mediation.Mediator
import QubitWarden.Proofs.Registry.Acceptance

/-!
# Checks on the registry

A check asks the registry at most twice, and the clock may move in between. Only a granted check
changes the registry: it is one use of the token. All that a check can come to is said once, in
`Outcome`.

* `Requirements.needed?`: what an operation needs, in strict or lenient mode.
* `check_outcome`: every check has an `Outcome`; the settings of the mediator stay.
* `check_allowed_iff`: granted exactly when the token is accepted, holds what is needed and has not
  expired when its use is counted.
* `Outcome.run_eq`: to the registry, a check is one use or one evaluation.
-/

namespace QubitWarden

/-- What a token needs for an operation, if it may take place at all: an operation outside the table
needs nothing, unless only mapped operations are allowed. -/
def Requirements.needed? (table : Requirements) (strict : Bool) (operation : Operation) :
    Option CapabilitySet :=
  match table.required? operation with
  | some required => some required
  | none => if strict then none else some ∅

/-- Whether a token that holds these capabilities may perform an operation. -/
def Requirements.Permits (table : Requirements) (strict : Bool) (operation : Operation)
    (held : CapabilitySet) : Prop :=
  ∃ needed, table.needed? strict operation = some needed ∧ needed.isSubset held = true

theorem Requirements.needed?_eq_none {table : Requirements} {strict : Bool}
    {operation : Operation} : table.needed? strict operation = none ↔
      table.required? operation = none ∧ strict = true := by
  unfold needed?
  cases table.required? operation <;> cases strict <;> simp

theorem Requirements.getD_needed? {table : Requirements} {strict : Bool} {operation : Operation} :
    (table.needed? strict operation).getD ∅ = (table.required? operation).getD ∅ := by
  unfold needed?
  cases table.required? operation <;> cases strict <;> rfl

/-- In strict mode, only operations of the table are permitted. -/
theorem Requirements.Permits.mapped {table : Requirements} {strict : Bool} {operation : Operation}
    {held : CapabilitySet} (h : table.Permits strict operation held) (hstrict : strict = true) :
    (table.required? operation).isSome = true := by
  obtain ⟨needed, hneeded, -⟩ := h
  unfold needed? at hneeded
  split at hneeded
  next required hrequired => rw [hrequired]; rfl
  next => rw [if_pos hstrict] at hneeded; cases hneeded

theorem CapabilitySet.isEmpty_difference {s t : CapabilitySet} :
    (s.difference t).isEmpty = true ↔ s.isSubset t = true := by
  rw [isSubset_iff, isEmpty, List.isEmpty_iff, List.eq_nil_iff_forall_not_mem]
  refine forall_congr' fun c => ?_
  rw [mem_toList, mem_difference, not_and, Decidable.not_not]

theorem Reason.ofTokenError_ne_granted (e : TokenError) : Reason.ofTokenError e ≠ .granted := by
  cases e <;> simp [Reason.ofTokenError]

theorem Reason.ofTokenError_ne_missingCapabilities (e : TokenError) :
    Reason.ofTokenError e ≠ .missingCapabilities := by
  cases e <;> simp [Reason.ofTokenError]

theorem Reason.ofTokenError_eq_useLimitExceeded {e : TokenError}
    (h : Reason.ofTokenError e = .useLimitExceeded) : ∃ n, e = .useLimitExceeded n := by
  cases e with
  | useLimitExceeded n => exact ⟨n, rfl⟩
  | _ => cases h

namespace Mediator

variable {m : Mediator} {sign : Signer} {reg after : Registry} {now later : Timestamp}
  {t record : Token} {operation : Operation} {needed : CapabilitySet} {reason : Reason}

/-- What a check can come to: its reason, and the registry it leaves. -/
inductive Outcome (m : Mediator) (sign : Signer) (reg : Registry) (now later : Timestamp)
    (t : Token) (operation : Operation) : Reason → Registry → Prop
  | granted {record : Token} : Registry.Accepted sign reg now t record → later ≤ t.expiresAt →
      m.table.Permits m.config.strict operation t.capabilities →
      Outcome m sign reg now later t operation .granted (reg.modify t.id Token.use)
  | unmapped : m.table.needed? m.config.strict operation = none →
      Outcome m sign reg now later t operation .unmappedOperation reg
  | lacking {record : Token} {needed : CapabilitySet} : Registry.Accepted sign reg now t record →
      m.table.needed? m.config.strict operation = some needed →
      needed.isSubset t.capabilities = false →
      Outcome m sign reg now later t operation .missingCapabilities reg
  | refused {e : TokenError} : m.table.needed? m.config.strict operation ≠ none →
      reg.evaluate sign now t = .error e →
      Outcome m sign reg now later t operation (.ofTokenError e) reg
  /-- The token expired before its use was counted. -/
  | lapsed {record : Token} : Registry.Accepted sign reg now t record → t.expiresAt < later →
      Outcome m sign reg now later t operation .tokenExpired reg

theorem judge_eq {σ : Type} (authority : Authority σ) (s : σ) :
    m.judge authority s t operation =
      match m.table.needed? m.config.strict operation with
      | none => (⟨.unmappedOperation, ∅, ∅⟩, s)
      | some needed => judgeMapped authority s t needed := by
  unfold judge Requirements.needed?
  cases m.table.required? operation with
  | some required => rfl
  | none => cases m.config.strict <;> rfl

theorem judgeMapped_refused {e : TokenError} (h : reg.evaluate sign now t = .error e) :
    judgeMapped (Registry.authority sign now later) reg t needed =
      (⟨.ofTokenError e, needed, ∅⟩, reg) := by
  simp only [judgeMapped, Registry.authority, h]

theorem judgeMapped_granted (h : Registry.Accepted sign reg now t record)
    (unexpired : later ≤ t.expiresAt) (hsubset : needed.isSubset t.capabilities = true) :
    judgeMapped (Registry.authority sign now later) reg t needed =
      (⟨.granted, needed, needed.difference t.capabilities⟩, reg.modify t.id Token.use) := by
  have hok := Registry.evaluate_eq_ok_iff.2 ⟨record, h⟩
  have huse := Registry.use_of_accepted (h.of_unexpired unexpired)
  simp only [judgeMapped, Registry.authority, hok, CapabilitySet.isEmpty_difference.2 hsubset,
    huse, Except.map, ↓reduceIte]

theorem judgeMapped_lapsed (h : Registry.Accepted sign reg now t record)
    (expired : t.expiresAt < later) (hsubset : needed.isSubset t.capabilities = true) :
    judgeMapped (Registry.authority sign now later) reg t needed =
      (⟨.tokenExpired, needed, ∅⟩, reg) := by
  have hok := Registry.evaluate_eq_ok_iff.2 ⟨record, h⟩
  have huse := Registry.use_of_error (h.evaluate_expired expired)
  simp only [judgeMapped, Registry.authority, hok, CapabilitySet.isEmpty_difference.2 hsubset,
    huse, Except.map, Reason.ofTokenError, ↓reduceIte]

theorem judgeMapped_lacking (h : Registry.Accepted sign reg now t record)
    (hsubset : needed.isSubset t.capabilities = false) :
    judgeMapped (Registry.authority sign now later) reg t needed =
      (⟨.missingCapabilities, needed, needed.difference t.capabilities⟩, reg) := by
  have hok := Registry.evaluate_eq_ok_iff.2 ⟨record, h⟩
  have hmissing : (needed.difference t.capabilities).isEmpty = false := by
    rw [Bool.eq_false_iff] at hsubset ⊢
    exact fun h => hsubset (CapabilitySet.isEmpty_difference.1 h)
  simp only [judgeMapped, Registry.authority, hok, hmissing, Bool.false_eq_true, ↓reduceIte]

theorem judge_outcome (m : Mediator) (sign : Signer) (reg : Registry) (now later : Timestamp)
    (t : Token) (operation : Operation) :
    let r := m.judge (Registry.authority sign now later) reg t operation
    Outcome m sign reg now later t operation r.1.reason r.2 := by
  rw [judge_eq]
  cases hneeded : m.table.needed? m.config.strict operation with
  | none => exact .unmapped hneeded
  | some needed =>
    cases he : reg.evaluate sign now t with
    | error e =>
      simp only [judgeMapped_refused he]
      exact .refused (by rw [hneeded]; simp) he
    | ok =>
      obtain ⟨record, haccepted⟩ := Registry.evaluate_eq_ok_iff.1 he
      cases hsubset : needed.isSubset t.capabilities with
      | false =>
        simp only [judgeMapped_lacking haccepted hsubset]
        exact .lacking haccepted hneeded hsubset
      | true =>
        rcases UInt64.le_or_lt later t.expiresAt with unexpired | expired
        · simp only [judgeMapped_granted haccepted unexpired hsubset]
          exact .granted haccepted unexpired ⟨needed, hneeded, hsubset⟩
        · simp only [judgeMapped_lapsed haccepted expired hsubset]
          exact .lapsed haccepted expired

theorem record_settings (d : Decision) :
    (m.record d).config = m.config ∧ (m.record d).table = m.table := by
  unfold record
  dsimp only
  split <;> exact ⟨rfl, rfl⟩

/-- **All that a check can come to.** -/
theorem check_outcome (m : Mediator) (sign : Signer) (reg : Registry) (now later : Timestamp)
    (t : Token) (operation : Operation) :
    let r := m.check (Registry.authority sign now later) reg later t operation
    Outcome m sign reg now later t operation r.1.reason r.2.2 ∧
      r.1.allowed = decide (r.1.reason = .granted) ∧
      r.2.1.config = m.config ∧ r.2.1.table = m.table :=
  ⟨judge_outcome m sign reg now later t operation, rfl, record_settings _⟩

theorem Outcome.eq_granted (ho : Outcome m sign reg now later t operation reason after)
    (h : Registry.Accepted sign reg now t record) (unexpired : later ≤ t.expiresAt)
    (hp : m.table.Permits m.config.strict operation t.capabilities) : reason = .granted := by
  obtain ⟨needed, hneeded, hsubset⟩ := hp
  cases ho with
  | granted => rfl
  | unmapped hnone => rw [hneeded] at hnone; cases hnone
  | lacking _ hother hlacking =>
    obtain rfl := Option.some.inj (hneeded.symm.trans hother)
    rw [hsubset] at hlacking
    cases hlacking
  | refused _ he => rw [Registry.evaluate_eq_ok_iff.2 ⟨record, h⟩] at he; cases he
  | lapsed _ expired => exact absurd unexpired (UInt64.not_le.2 expired)

/-- **A check is granted exactly when the token is accepted, holds what is needed and has not
expired when its use is counted.** -/
theorem check_allowed_iff (m : Mediator) (sign : Signer) (reg : Registry) (now later : Timestamp)
    (t : Token) (operation : Operation) :
    (m.check (Registry.authority sign now later) reg later t operation).1.allowed = true ↔
      (∃ record, Registry.Accepted sign reg now t record) ∧ later ≤ t.expiresAt ∧
        m.table.Permits m.config.strict operation t.capabilities := by
  obtain ⟨ho, hallowed, -, -⟩ := check_outcome m sign reg now later t operation
  rw [hallowed, decide_eq_true_eq]
  refine ⟨?_, ?_⟩
  · intro hgranted
    rw [hgranted] at ho
    generalize (m.check (Registry.authority sign now later) reg later t operation).2.2 = after
      at ho
    generalize hreason : Reason.granted = reason at ho
    cases ho with
    | granted haccepted unexpired hpermits => exact ⟨⟨_, haccepted⟩, unexpired, hpermits⟩
    | refused => exact absurd hreason.symm (Reason.ofTokenError_ne_granted _)
    | unmapped | lacking | lapsed => cases hreason
  · rintro ⟨⟨record, haccepted⟩, unexpired, hpermits⟩
    exact ho.eq_granted haccepted unexpired hpermits

/-! ## Checks as calls to the registry -/

/-- What a check tells about tokens. -/
def checkFacts (t : Token) (granted : Bool) : TokenHistory :=
  if granted then [.presented t, .used t.id] else [.presented t]

/-- What a check asks of the registry, up to answers that the mediator overrules. -/
def checkCall (now later : Timestamp) (t : Token) (granted : Bool) : Timestamp × Registry.Call :=
  if granted then (later, .use t) else (now, .check t)

/-- To the registry, a check is one use or one evaluation. -/
theorem Outcome.run_eq (issuer : Issuer) {granted : Bool}
    (ho : Outcome m issuer.sign reg now later t operation reason after)
    (hgranted : granted = decide (reason = .granted)) :
    let r := runFrom (Registry.step issuer) reg [checkCall now later t granted]
    r.state = after ∧ r.trace.flatMap Registry.facts = checkFacts t granted := by
  cases ho with
  | granted haccepted unexpired =>
    subst hgranted
    simp [runFrom, exchange, checkCall, checkFacts, Registry.step, reply, Registry.facts,
      Registry.use_of_accepted (haccepted.of_unexpired unexpired)]
  | refused =>
    rw [decide_eq_false (Reason.ofTokenError_ne_granted _)] at hgranted
    subst hgranted
    exact ⟨rfl, rfl⟩
  | unmapped | lacking | lapsed =>
    subst hgranted
    exact ⟨rfl, rfl⟩

end Mediator

end QubitWarden
