import QubitWarden.Proofs.Mediation.Check

/-!
# Use limits behind a mediator

A registry with a mediator in front of it, as one machine: callers manage tokens directly, and the
mediator uses them up on their behalf.

* `run_registry`: a run of the machine is a run of the registry (`guarded_consistent`).
* `uses_exact`: a token is used exactly as often as its limit allows, in whatever order, with
  whatever copies.
-/

namespace QubitWarden

/-- A registry and the mediator in front of it. -/
structure Guarded where
  registry : Registry
  mediator : Mediator

namespace Guarded

/-- A call to the registry, or a check with or without insisting, with what the clock shows after
the token was evaluated. -/
inductive Call where
  | manage (call : Registry.Call)
  | check (t : Token) (operation : Operation) (later : Timestamp)
  | require (t : Token) (operation : Operation) (later : Timestamp)

/-- What is answered. -/
inductive Answer where
  | managed (answer : Registry.Answer)
  | decided (d : Decision)
  | insisted (result : Except MediationError Decision)

/-- Decides whether a token may perform an operation. -/
def check (issuer : Issuer) (s : Guarded) (now : Timestamp) (t : Token) (operation : Operation)
    (later : Timestamp) : Decision × Guarded :=
  let (d, mediator, registry) :=
    s.mediator.check (Registry.authority issuer.sign now later) s.registry later t operation
  (d, ⟨registry, mediator⟩)

/-- The answer to a call, and the machine afterwards. -/
def step (issuer : Issuer) (s : Guarded) (now : Timestamp) : Call → Answer × Guarded
  | .manage call =>
    let (answer, registry) := Registry.step issuer s.registry now call
    (.managed answer, { s with registry })
  | .check t operation later => reply .decided (s.check issuer now t operation later)
  | .require t operation later =>
    reply (fun d => .insisted (Mediator.insist d)) (s.check issuer now t operation later)

/-- The run of the calls on an empty registry and a new mediator. -/
def run (issuer : Issuer) (config : MediatorConfig) (table : Requirements)
    (calls : List (Timestamp × Call)) : Run Guarded Call Answer :=
  runFrom (step issuer) ⟨.empty, .new config table⟩ calls

/-- Whether an answer grants an operation. -/
def granted : Answer → Bool
  | .decided d => d.allowed
  | .insisted result => result.isOk
  | .managed _ => false

/-- What an exchange tells about tokens: a grant is a counted use. -/
def facts (e : Exchange Call Answer) : TokenHistory :=
  match e.call, e.answer with
  | .manage call, .managed answer => Registry.facts ⟨e.now, call, answer⟩
  | .manage _, _ => []
  | .check t _ _, answer | .require t _ _, answer => Mediator.checkFacts t (granted answer)

/-- What a trace tells about tokens. -/
def history (trace : List (Exchange Call Answer)) : TokenHistory := trace.flatMap facts

/-! ## The registry behind the mediator -/

/-- What an exchange asks of the registry. -/
def registryCall (e : Exchange Call Answer) : Timestamp × Registry.Call :=
  match e.call with
  | .manage call => (e.now, call)
  | .check t _ later | .require t _ later => Mediator.checkCall e.now later t (granted e.answer)

variable {issuer : Issuer} {config : MediatorConfig} {table : Requirements}

theorem isOk_insist (d : Decision) : (Mediator.insist d).isOk = d.allowed := by
  unfold Mediator.insist
  split <;> simp_all [Except.isOk, Except.toBool]

theorem step_registry (issuer : Issuer) (s : Guarded) (now : Timestamp) (call : Call) :
    let e := exchange (step issuer) s now call
    let r := runFrom (Registry.step issuer) s.registry [registryCall e]
    r.state = (step issuer s now call).2.registry ∧ r.trace.flatMap Registry.facts = facts e := by
  have checked (t : Token) (operation : Operation) (later : Timestamp) {granted : Bool}
      (hgranted : granted = (s.check issuer now t operation later).1.allowed) :=
    let ⟨ho, hallowed, _⟩ := s.mediator.check_outcome issuer.sign s.registry now later t operation
    ho.run_eq issuer (hgranted.trans hallowed)
  cases call with
  | manage call => exact ⟨rfl, List.append_nil _⟩
  | check t operation later => exact checked t operation later rfl
  | require t operation later => exact checked t operation later (isOk_insist _)

/-- **A run is a run of the registry** with the same facts about tokens, whatever the mediator
decides. -/
theorem run_registry (issuer : Issuer) (config : MediatorConfig) (table : Requirements)
    (calls : List (Timestamp × Call)) :
    ∃ asked, (Registry.run issuer asked).state = (run issuer config table calls).state.registry ∧
      Registry.history (Registry.run issuer asked).trace =
        history (run issuer config table calls).trace :=
  ⟨_, runFrom_simulation registry (fun e => [registryCall e]) facts Registry.facts (fun _ => True)
    (fun _ _ _ _ => trivial) (fun s now call _ => step_registry issuer s now call)
    (s := ⟨.empty, .new config table⟩) trivial calls⟩

theorem guarded_consistent (calls : List (Timestamp × Call))
    (fresh : (history (run issuer config table calls).trace).Fresh)
    (tags : (history (run issuer config table calls).trace).TagsTell issuer.sign) :
    Registry.Consistent issuer (history (run issuer config table calls).trace)
      (run issuer config table calls).state.registry := by
  obtain ⟨asked, hstate, hhistory⟩ := run_registry issuer config table calls
  rw [← hhistory] at fresh tags ⊢
  rw [← hstate]
  exact Registry.consistent_run asked fresh tags

/-! ## Limits -/

/-- What a use of a presented token comes to, directly or through the mediator: it is counted as use
number `k`, unless the token expires during a check. -/
structure UseCounted (issuer : Issuer) (s : Guarded) (now : Timestamp) (copy : Token) (k : Nat) :
    Prop where
  direct : ∃ count, (s.registry.use issuer.sign now copy).1 = .ok count ∧ count.toNat = k
  mediated : ∀ operation later,
    s.mediator.table.Permits s.mediator.config.strict operation copy.capabilities →
      later ≤ copy.expiresAt →
        (s.check issuer now copy operation later).1.allowed = true ∧
          (s.check issuer now copy operation later).2.registry =
            (s.registry.use issuer.sign now copy).2

/-- What a use of a presented token comes to, directly or through the mediator: it is refused for
its limit `n`, and nothing is counted. -/
structure UseRefused (issuer : Issuer) (s : Guarded) (now : Timestamp) (copy : Token) (n : UInt32) :
    Prop where
  direct : s.registry.use issuer.sign now copy = (.error (.useLimitExceeded n), s.registry)
  mediated : ∀ operation later,
    s.mediator.table.needed? s.mediator.config.strict operation ≠ none →
      (s.check issuer now copy operation later).1.reason = .useLimitExceeded ∧
        (s.check issuer now copy operation later).2.registry = s.registry

variable {s : Guarded} {h : TokenHistory} {t copy record : Token} {now later : Timestamp}
  {n : UInt32} {operation : Operation}

theorem check_refused {e : TokenError}
    (hneeded : s.mediator.table.needed? s.mediator.config.strict operation ≠ none)
    (he : s.registry.evaluate issuer.sign now copy = .error e) :
    (s.check issuer now copy operation later).1.reason = .ofTokenError e ∧
      (s.check issuer now copy operation later).2.registry = s.registry := by
  obtain ⟨needed, hneeded⟩ := Option.ne_none_iff_exists'.1 hneeded
  unfold check Mediator.check
  rw [Mediator.judge_eq, hneeded]
  dsimp only
  rw [Mediator.judgeMapped_refused he]
  exact ⟨rfl, rfl⟩

theorem check_granted (h : Registry.Accepted issuer.sign s.registry now copy record)
    (hp : s.mediator.table.Permits s.mediator.config.strict operation copy.capabilities)
    (unexpired : later ≤ copy.expiresAt) :
    (s.check issuer now copy operation later).1.allowed = true ∧
      (s.check issuer now copy operation later).2.registry =
        s.registry.modify copy.id Token.use := by
  obtain ⟨needed, hneeded, hsubset⟩ := hp
  unfold check Mediator.check
  rw [Mediator.judge_eq, hneeded]
  dsimp only
  rw [Mediator.judgeMapped_granted h unexpired hsubset]
  exact ⟨rfl, rfl⟩

/-- Without a limit, no check is denied for the limit. -/
theorem check_ne_useLimitExceeded (hn : copy.maxUses = none) :
    (s.check issuer now copy operation later).1.reason ≠ .useLimitExceeded := by
  intro hr
  obtain ⟨ho, -, -⟩ := s.mediator.check_outcome issuer.sign s.registry now later copy operation
  generalize hreason : (s.mediator.check _ _ _ _ _).1.reason = reason at ho
  obtain rfl : reason = .useLimitExceeded := hreason.symm.trans hr
  generalize hafter : (s.mediator.check _ _ _ _ _).2.2 = after at ho
  generalize hlimit : Reason.useLimitExceeded = reason at ho
  cases ho with
  | refused _ he =>
    obtain ⟨n, rfl⟩ := Reason.ofTokenError_eq_useLimitExceeded hlimit.symm
    exact Registry.evaluate_ne_useLimitExceeded hn he
  | granted | unmapped | lacking | lapsed => cases hlimit

/-- A faithful copy below its limit is used once more. -/
theorem useCounted (hc : Registry.Consistent issuer h s.registry) (ht : t ∈ h.issued)
    (hn : t.maxUses = some n) (found : s.registry.find? t.id = some record)
    (hcopy : Registry.FaithfulCopy s.registry t copy) (unexpired : now ≤ t.expiresAt)
    (unrevoked : t.id ∉ h.revoked) (below : h.uses t.id < n.toNat) :
    UseCounted issuer s now copy (h.uses t.id + 1) := by
  have left : ∀ m, t.maxUses = some m → h.uses t.id < m.toNat := by
    intro m hm
    rwa [Option.some.inj (hm.symm.trans hn)]
  have accepted := hc.accepted ht hcopy found unexpired unrevoked left
  refine ⟨?_, ?_⟩
  · obtain ⟨k, after, huse, hk⟩ := hc.use_eq ht hn found accepted below
    exact ⟨k, by rw [huse], hk⟩
  · intro operation later hp hlater
    rw [Registry.use_of_accepted accepted]
    exact check_granted accepted hp hlater

/-- A faithful copy at its limit is refused. -/
theorem useRefused (hc : Registry.Consistent issuer h s.registry) (ht : t ∈ h.issued)
    (hn : t.maxUses = some n) (found : s.registry.find? t.id = some record)
    (hcopy : Registry.FaithfulCopy s.registry t copy) (unexpired : now ≤ t.expiresAt)
    (unrevoked : t.id ∉ h.revoked) (used : h.uses t.id = n.toNat) :
    UseRefused issuer s now copy n := by
  have he := hc.refused ht hcopy found unexpired unrevoked hn used
  exact ⟨Registry.use_of_error he, fun operation later hneeded => check_refused hneeded he⟩

/-- **Limits are exact.** A token with a limit `n` is used at most `n` times, and its record counts
these uses. Faithful copies are used until the limit is reached and refused from then on; without a
limit no copy is refused for one. -/
theorem uses_exact (issuer : Issuer) (config : MediatorConfig) (table : Requirements)
    (calls : List (Timestamp × Call))
    (fresh : (history (run issuer config table calls).trace).Fresh)
    (texts : (history (run issuer config table calls).trace).TextsFit)
    (tags : (history (run issuer config table calls).trace).CollisionFree issuer.sign) :
    let s := (run issuer config table calls).state
    let h := history (run issuer config table calls).trace
    ∀ t ∈ h.issued,
      (∀ n, t.maxUses = some n → h.uses t.id ≤ n.toNat ∧
        ∀ record, s.registry.find? t.id = some record →
          record.useCount.toNat = h.uses t.id ∧
            ∀ copy now, Registry.FaithfulCopy s.registry t copy → now ≤ t.expiresAt →
              t.id ∉ h.revoked →
                (h.uses t.id < n.toNat → UseCounted issuer s now copy (h.uses t.id + 1)) ∧
                  (h.uses t.id = n.toNat → UseRefused issuer s now copy n)) ∧
        (t.maxUses = none → ∀ copy now, copy.toGrant = t.toGrant →
          (∀ n, (s.registry.use issuer.sign now copy).1 ≠ .error (.useLimitExceeded n)) ∧
            ∀ operation later,
              (s.check issuer now copy operation later).1.reason ≠ .useLimitExceeded) := by
  intro s h t ht
  have hc : Registry.Consistent issuer h s.registry :=
    guarded_consistent calls fresh (TokenHistory.tagsTell texts tags)
  refine ⟨?_, ?_⟩
  · intro n hn
    refine ⟨hc.counted.limited t ht n hn, fun record found => ?_⟩
    refine ⟨hc.counted.useCount_eq ht hn found, fun copy now hcopy unexpired unrevoked => ?_⟩
    exact ⟨useCounted hc ht hn found hcopy unexpired unrevoked,
      useRefused hc ht hn found hcopy unexpired unrevoked⟩
  · intro hn copy now hgrant
    have hcopy : copy.maxUses = none := (congrArg Grant.maxUses hgrant).trans hn
    refine ⟨fun n huse => ?_, fun operation later => check_ne_useLimitExceeded hcopy⟩
    cases he : s.registry.evaluate issuer.sign now copy with
    | ok =>
      obtain ⟨record, accepted⟩ := Registry.evaluate_eq_ok_iff.1 he
      rw [Registry.use_of_accepted accepted] at huse
      cases huse
    | error e =>
      rw [Registry.use_of_error he] at huse
      obtain rfl : e = .useLimitExceeded n := Except.error.inj huse
      exact Registry.evaluate_ne_useLimitExceeded hcopy he

/-- The root is used through the mediator while the clock moves, then directly by a caller whose
clock is behind. -/
def sampleCalls : List (Timestamp × Call) := [
  (100, .manage (.create Registry.sampleRoot.id Registry.sampleRequest none)),
  (110, .check Registry.sampleRoot "apply_h" 111),
  (90, .manage (.use Registry.sampleRoot))]

theorem uses_exact_sample :
    let before := (run Registry.sampleIssuer {} .standard (sampleCalls.take 2)).state
    let after := (run Registry.sampleIssuer {} .standard sampleCalls).state
    UseCounted Registry.sampleIssuer before 90 Registry.sampleRoot 2 ∧
      UseRefused Registry.sampleIssuer after 120 Registry.sampleRoot 2 := by
  obtain ⟨-, hbefore⟩ := (uses_exact Registry.sampleIssuer {} .standard (sampleCalls.take 2)
    (by decide +kernel) (by decide +kernel) (by decide +kernel) Registry.sampleRoot
    (by decide +kernel)).1 2 rfl
  obtain ⟨-, hafter⟩ := (uses_exact Registry.sampleIssuer {} .standard sampleCalls
    (by decide +kernel) (by decide +kernel) (by decide +kernel) Registry.sampleRoot
    (by decide +kernel)).1 2 rfl
  refine ⟨?_, ?_⟩
  · exact ((hbefore Registry.sampleRoot.use (by decide +kernel)).2 Registry.sampleRoot 90
      (Registry.faithfulCopy_sign ..) (by decide) (by decide +kernel)).1 (by decide +kernel)
  · exact ((hafter Registry.sampleRoot.use.use (by decide +kernel)).2 Registry.sampleRoot 120
      (Registry.faithfulCopy_sign ..) (by decide) (by decide +kernel)).2 (by decide +kernel)

end Guarded

end QubitWarden
