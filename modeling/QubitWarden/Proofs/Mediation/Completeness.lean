import QubitWarden.Proofs.Mediation.Run

/-!
# Complete mediation

Nothing is granted without a use that the authority has counted, and no use is counted without a
grant, whatever the authority answers and however its answers change from one question to the next.
For this the authority is made to keep what it was asked and what it answered.

* `Course`: the questions about one call, with the verdict they lead to.
* `judge_recording`: keeping the questions changes no verdict, and every verdict has its course.
* `Mediated`, `Partitioned`: what a course says about its call, and the questions of a whole run.
* `complete_mediation`: every call of a run is mediated by its own questions, and the counted uses
  are as many as the grants.
-/

namespace QubitWarden

/-- A question to an authority, with its answer. -/
inductive Inquiry where
  | check (t : Token) (result : Except TokenError Unit)
  | consume (t : Token) (result : Except TokenError Unit)

namespace Inquiry

/-- What was answered. -/
def result : Inquiry → Except TokenError Unit
  | .check _ result | .consume _ result => result

/-- Whether a use was counted. -/
def isUse : Inquiry → Bool
  | .check _ _ => false
  | .consume _ result => result.isOk

end Inquiry

/-- The same authority, keeping what it was asked and what it answered, oldest first. -/
def Authority.recording {σ : Type} (authority : Authority σ) : Authority (σ × List Inquiry) where
  check s t :=
    let (result, tokens) := authority.check s.1 t
    (result, tokens, s.2 ++ [.check t result])
  consume s t :=
    let (result, tokens) := authority.consume s.1 t
    (result, tokens, s.2 ++ [.consume t result])

namespace Mediation

/-! ## The questions about one call -/

/-- All that may be asked about a token for an operation that needs certain capabilities, with the
verdict it leads to. There is no set for an operation that may not take place at all. -/
inductive Course (t : Token) : Option CapabilitySet → List Inquiry → Mediator.Verdict → Prop
  | unmapped : Course t none [] ⟨.unmappedOperation, ∅, ∅⟩
  | refused {needed : CapabilitySet} {e : TokenError} :
      Course t (some needed) [.check t (.error e)] ⟨.ofTokenError e, needed, ∅⟩
  | lacking {needed missing : CapabilitySet} : missing ≠ ∅ →
      (∀ c, c ∈ missing ↔ c ∈ needed ∧ c ∉ t.capabilities) →
      Course t (some needed) [.check t (.ok ())] ⟨.missingCapabilities, needed, missing⟩
  /-- The use was refused although the token had just been accepted. -/
  | lost {needed : CapabilitySet} {e : TokenError} : (∀ c ∈ needed, c ∈ t.capabilities) →
      Course t (some needed) [.check t (.ok ()), .consume t (.error e)]
        ⟨.ofTokenError e, needed, ∅⟩
  | granted {needed : CapabilitySet} : (∀ c ∈ needed, c ∈ t.capabilities) →
      Course t (some needed) [.check t (.ok ()), .consume t (.ok ())] ⟨.granted, needed, ∅⟩

variable {σ : Type}

theorem judgeMapped_recording (authority : Authority σ) (s : σ × List Inquiry) (t : Token)
    (needed : CapabilitySet) :
    let plain := Mediator.judgeMapped authority s.1 t needed
    ∃ asked, Mediator.judgeMapped authority.recording s t needed =
        (plain.1, plain.2, s.2 ++ asked) ∧ Course t (some needed) asked plain.1 := by
  rcases hcheck : authority.check s.1 t with ⟨e | ⟨⟨⟩⟩, afterCheck⟩
  · refine ⟨[.check t (.error e)], ?_, ?_⟩ <;>
      simp only [Mediator.judgeMapped, Authority.recording, hcheck]
    exact .refused
  · cases hmissing : (needed.difference t.capabilities).isEmpty with
    | false =>
      have hlacking : needed.difference t.capabilities ≠ ∅ := fun h => by
        rw [CapabilitySet.isEmpty_iff.2 h] at hmissing
        cases hmissing
      refine ⟨[.check t (.ok ())], ?_, ?_⟩ <;>
        simp only [Mediator.judgeMapped, Authority.recording, hcheck, hmissing, Bool.false_eq_true,
          ↓reduceIte]
      exact .lacking hlacking fun c => CapabilitySet.mem_difference
    | true =>
      have hempty := CapabilitySet.isEmpty_iff.1 hmissing
      have hheld : ∀ c ∈ needed, c ∈ t.capabilities :=
        CapabilitySet.isSubset_iff.1 (CapabilitySet.isEmpty_difference.1 hmissing)
      have hnothing : (∅ : CapabilitySet).isEmpty = true := rfl
      rcases huse : authority.consume afterCheck t with ⟨e | ⟨⟨⟩⟩, afterUse⟩
      · refine ⟨[.check t (.ok ()), .consume t (.error e)], ?_, ?_⟩ <;>
          simp only [Mediator.judgeMapped, Authority.recording, hcheck, hmissing, huse,
            ↓reduceIte, List.append_assoc, List.cons_append, List.nil_append]
        exact .lost hheld
      · refine ⟨[.check t (.ok ()), .consume t (.ok ())], ?_, ?_⟩ <;>
          simp only [Mediator.judgeMapped, Authority.recording, hcheck, hempty, hnothing, huse,
            ↓reduceIte, List.append_assoc, List.cons_append, List.nil_append]
        exact .granted hheld

/-- **Keeping the questions changes no verdict**, and every verdict has its course. -/
theorem judge_recording (m : Mediator) (authority : Authority σ) (s : σ × List Inquiry) (t : Token)
    (operation : Operation) :
    let plain := m.judge authority s.1 t operation
    ∃ asked, m.judge authority.recording s t operation = (plain.1, plain.2, s.2 ++ asked) ∧
      Course t (m.table.needed? m.config.strict operation) asked plain.1 := by
  simp only [Mediator.judge_eq]
  cases m.table.needed? m.config.strict operation with
  | none => exact ⟨[], by simp, .unmapped⟩
  | some needed => exact judgeMapped_recording authority s t needed

namespace Course

variable {t : Token} {needed? : Option CapabilitySet} {asked : List Inquiry}
  {v : Mediator.Verdict}

theorem granted_iff (h : Course t needed? asked v) :
    v.reason = .granted ↔ .consume t (.ok ()) ∈ asked := by
  cases h with
  | unmapped | lacking | granted => simp
  | refused | lost => simp [Reason.ofTokenError_ne_granted]

theorem countP_isUse (h : Course t needed? asked v) :
    asked.countP Inquiry.isUse = if v.reason = .granted then 1 else 0 := by
  cases h with
  | unmapped | lacking | granted => rfl
  | refused | lost => simp [Reason.ofTokenError_ne_granted, Inquiry.isUse, Except.isOk,
      Except.toBool]

/-- Whatever the reason, what is reported as missing is needed and not held. -/
theorem mem_missing_iff (h : Course t needed? asked v) (c : Capability) :
    c ∈ v.missing ↔ v.reason = .missingCapabilities ∧ c ∈ v.required ∧ c ∉ t.capabilities := by
  cases h with
  | unmapped | granted => simp
  | refused | lost => simp [Reason.ofTokenError_ne_missingCapabilities]
  | lacking _ hmissing => simp [hmissing]

theorem missing_eq (h : Course t needed? asked v) :
    v.missing = if v.reason = .missingCapabilities then v.required.difference t.capabilities
      else ∅ := by
  refine CapabilitySet.ext_mem fun c => ?_
  rw [h.mem_missing_iff]
  split
  next hreason => rw [CapabilitySet.mem_difference, and_iff_right hreason]
  next hreason => exact iff_of_false (fun hc => hreason hc.1) (CapabilitySet.not_mem_empty c)

theorem held_of_consumed (h : Course t needed? asked v) {result : Except TokenError Unit}
    (hi : .consume t result ∈ asked) : ∀ c ∈ v.required, c ∈ t.capabilities := by
  cases h with
  | unmapped | refused | lacking => simp at hi
  | lost hheld | granted hheld => exact hheld

theorem asked_eq_nil (h : Course t needed? asked v) : asked = [] ↔ needed? = none := by
  cases h <;> simp

theorem unmapped_of_unasked (h : Course t needed? asked v) (hasked : asked = []) :
    v.reason = .unmappedOperation := by
  cases h with
  | unmapped => rfl
  | refused | lacking | lost | granted => cases hasked

theorem required_eq (h : Course t needed? asked v) : v.required = needed?.getD ∅ := by
  cases h <;> rfl

theorem reason_of_failed (h : Course t needed? asked v) {inquiry : Inquiry} (hi : inquiry ∈ asked)
    {e : TokenError} (he : inquiry.result = .error e) : v.reason = .ofTokenError e := by
  cases h with
  | unmapped => cases hi
  | refused =>
    obtain rfl := List.mem_singleton.1 hi
    exact congrArg Reason.ofTokenError (Except.error.inj he)
  | lacking =>
    obtain rfl := List.mem_singleton.1 hi
    cases he
  | lost =>
    rcases List.mem_pair.1 hi with rfl | rfl
    · cases he
    · exact congrArg Reason.ofTokenError (Except.error.inj he)
  | granted => rcases List.mem_pair.1 hi with rfl | rfl <;> cases he

end Course

/-! ## Mediated calls -/

/-- A call and its answer, as the questions asked for it determine them. -/
structure Mediated (table : Requirements) (strict : Bool) (e : Exchange Call Answer)
    (asked : List Inquiry) : Prop where
  /-- The authority is asked in one of five ways, and each has its verdict. -/
  course : Course e.call.token (table.needed? strict e.call.operation) asked
    ⟨e.answer.decision.reason, e.answer.decision.required, e.answer.decision.missing⟩
  unasked : asked = [] ↔ table.required? e.call.operation = none ∧ strict = true
  unmapped : asked = [] → e.answer.decision.reason = .unmappedOperation
  required : e.answer.decision.required = (table.required? e.call.operation).getD ∅
  missing : e.answer.decision.missing =
    if e.answer.decision.reason = .missingCapabilities then
      e.answer.decision.required.difference e.call.token.capabilities
    else ∅
  /-- What is missing is needed and not held; otherwise nothing is missing. -/
  lacked : ∀ c, c ∈ e.answer.decision.missing ↔
    e.answer.decision.reason = .missingCapabilities ∧ c ∈ e.answer.decision.required ∧
      c ∉ e.call.token.capabilities
  /-- No use is asked for unless the token holds all that is needed. -/
  held : ∀ result, .consume e.call.token result ∈ asked →
    ∀ c ∈ e.answer.decision.required, c ∈ e.call.token.capabilities
  /-- Only a counted use allows an operation. -/
  allowed : e.answer.decision.allowed = true ↔ .consume e.call.token (.ok ()) ∈ asked
  granted : e.answer.decision.allowed = true ↔ e.answer.decision.reason = .granted
  /-- A refusal by the authority is the reason, as the code of the error names it. -/
  failed : ∀ inquiry ∈ asked, ∀ err, inquiry.result = .error err →
    e.answer.decision.reason = .ofTokenError err ∧
      e.answer.decision.reason = (Reason.ofName? err.reasonCode).getD .malformedToken ∧
      e.answer.decision.allowed = false
  /-- The decision is about the presented token. -/
  subject : e.answer.decision.operation = e.call.operation ∧
    e.answer.decision.tokenId = e.call.token.id ∧
    e.answer.decision.tenant = e.call.token.tenant ∧ e.answer.decision.timestamp = e.now
  /-- Whoever insists gets the decision if it allows the operation. -/
  returned : ∀ d, e.answer.result = .ok d ↔
    d = e.answer.decision ∧ (e.call.insists = true → e.answer.decision.allowed = true)
  /-- Otherwise the error tells the reason. -/
  denied : ∀ err, e.answer.result = .error err →
    err.reason = e.answer.decision.reason ∧ e.answer.decision.allowed = false

section
variable {authority : Authority σ} {s : Mediation σ} {now : Timestamp} {c : Call}
  {asked : List Inquiry}

theorem step_result_eq_ok_iff {d : Decision} :
    (step authority s now c).1.result = .ok d ↔ d = (step authority s now c).1.decision ∧
      (c.insists = true → (step authority s now c).1.decision.allowed = true) := by
  rw [step_result]
  generalize (step authority s now c).1.decision = decided
  unfold Mediator.insist
  cases c.insists <;> cases decided.allowed <;> simp [eq_comm]

theorem step_result_eq_error {err : MediationError}
    (h : (step authority s now c).1.result = .error err) :
    err.reason = (step authority s now c).1.decision.reason ∧
      (step authority s now c).1.decision.allowed = false := by
  rw [step_result] at h
  generalize (step authority s now c).1.decision = decided at h ⊢
  unfold Mediator.insist at h
  cases hinsists : c.insists <;> cases hallowed : decided.allowed <;>
    simp only [hinsists, hallowed, ↓reduceIte, Bool.false_eq_true] at h
  all_goals cases h
  exact ⟨MediationError.reason_ofDenial decided, rfl⟩

/-- The course of a call says all that there is to its mediation. -/
theorem Course.mediated
    (h : Course c.token (s.mediator.table.needed? s.mediator.config.strict c.operation) asked
      (s.mediator.judge authority s.tokens c.token c.operation).1) :
    Mediated s.mediator.table s.mediator.config.strict (exchange (step authority) s now c)
      asked := by
  have hgranted := allowed_iff_granted authority s now c
  refine {
    course := h
    unasked := h.asked_eq_nil.trans Requirements.needed?_eq_none
    unmapped := h.unmapped_of_unasked
    required := h.required_eq.trans Requirements.getD_needed?
    missing := h.missing_eq
    lacked := h.mem_missing_iff
    held := fun _ => h.held_of_consumed
    allowed := hgranted.trans h.granted_iff
    granted := hgranted
    failed := fun inquiry hi err he => ?_
    subject := ⟨rfl, rfl, rfl, rfl⟩
    returned := fun d => step_result_eq_ok_iff
    denied := fun err => step_result_eq_error }
  have hreason := h.reason_of_failed hi he
  refine ⟨hreason, hreason.trans (Reason.ofTokenError_eq err),
    Bool.eq_false_iff.2 fun hallowed => ?_⟩
  exact Reason.ofTokenError_ne_granted err (hreason.symm.trans (hgranted.1 hallowed))

end

/-! ## Runs -/

/-- The machine without the questions that its authority has kept. -/
def erased (s : Mediation (σ × List Inquiry)) : Mediation σ := ⟨s.mediator, s.tokens.1⟩

/-- A call answered by the authority that keeps its questions. -/
theorem step_recording (authority : Authority σ) (s : Mediation (σ × List Inquiry))
    (now : Timestamp) (c : Call) :
    let recorded := step authority.recording s now c
    recorded.1 = (step authority (erased s) now c).1 ∧
      erased recorded.2 = (step authority (erased s) now c).2 ∧
      ∃ asked, recorded.2.tokens.2 = s.tokens.2 ++ asked ∧
        Mediated s.mediator.table s.mediator.config.strict
          (exchange (step authority.recording) s now c) asked := by
  obtain ⟨asked, hjudge, hcourse⟩ :=
    judge_recording s.mediator authority s.tokens c.token c.operation
  have hmediated : Mediated s.mediator.table s.mediator.config.strict
      (exchange (step authority.recording) s now c) asked := by
    refine Course.mediated ?_
    rw [hjudge]
    exact hcourse
  refine ⟨?_, ?_, asked, ?_, hmediated⟩ <;>
    simp only [step, Mediator.check, erased, hjudge]

/-- Keeping the questions changes no answer. -/
theorem run_recording (authority : Authority σ) (config : MediatorConfig) (table : Requirements)
    (tokens : σ) (calls : List (Timestamp × Call)) :
    let recorded := run authority.recording config table (tokens, []) calls
    let plain := run authority config table tokens calls
    plain.trace = recorded.trace ∧ plain.state = erased recorded.state := by
  have one (s : Mediation (σ × List Inquiry)) (now : Timestamp) (c : Call) (_ : True) :
      let e := exchange (step authority.recording) s now c
      (runFrom (step authority) (erased s) [(e.now, e.call)]).state =
          erased (step authority.recording s now c).2 ∧
        (runFrom (step authority) (erased s) [(e.now, e.call)]).trace.flatMap (fun e => [e]) =
          [e] := by
    obtain ⟨hanswer, hstate, -⟩ := step_recording authority s now c
    refine ⟨hstate.symm, ?_⟩
    simp only [runFrom, exchange, hanswer]
    rfl
  obtain ⟨hstate, htrace⟩ := runFrom_simulation erased (fun e => [(e.now, e.call)])
    (fun e => [e]) (fun e => [e]) (fun _ => True) (fun _ _ _ _ => trivial) one
    (s := ⟨.new config table, tokens, []⟩) trivial calls
  have hcalls : (run authority.recording config table (tokens, []) calls).trace.flatMap
      (fun e => [(e.now, e.call)]) = calls := by
    rw [← List.map_eq_flatMap]
    exact runFrom_asked _ _ calls
  rw [List.flatMap_singleton', List.flatMap_singleton'] at htrace
  rw [run] at hcalls
  rw [hcalls] at hstate htrace
  exact ⟨htrace, hstate⟩

/-- A machine that keeps its questions, after the exchanges of a trace: the questions fall into one
part for each exchange, which is mediated by it. -/
structure Partitioned (config : MediatorConfig) (table : Requirements)
    (trace : List (Exchange Call Answer)) (s : Mediation (σ × List Inquiry)) : Prop where
  settings : s.mediator.config = config ∧ s.mediator.table = table
  parts : ∃ asked, asked.flatten = s.tokens.2 ∧
    List.Forall₂ (Mediated table config.strict) trace asked

section
variable {config : MediatorConfig} {table : Requirements}

theorem partitioned_new (tokens : σ) :
    Partitioned config table [] ⟨.new config table, tokens, []⟩ :=
  ⟨⟨rfl, rfl⟩, [], rfl, .nil⟩

theorem Partitioned.step {trace : List (Exchange Call Answer)}
    {s : Mediation (σ × List Inquiry)} (h : Partitioned config table trace s)
    (authority : Authority σ) (now : Timestamp) (c : Call) :
    Partitioned config table (trace ++ [exchange (step authority.recording) s now c])
      (step authority.recording s now c).2 := by
  obtain ⟨hconfig, htable⟩ := h.settings
  obtain ⟨hconfig', htable'⟩ := step_settings authority.recording s now c
  obtain ⟨asked, hasked, hmediated⟩ := h.parts
  obtain ⟨-, -, more, hmore, hlast⟩ := step_recording authority s now c
  rw [hconfig, htable] at hlast
  refine ⟨⟨hconfig'.trans hconfig, htable'.trans htable⟩, asked ++ [more], ?_, ?_⟩
  · rw [List.flatten_concat, hasked, hmore]
  · exact List.rel_append hmediated (.cons hlast .nil)

end

theorem partitioned_run (authority : Authority σ) (config : MediatorConfig) (table : Requirements)
    (tokens : σ) (calls : List (Timestamp × Call)) :
    let recorded := run authority.recording config table (tokens, []) calls
    Partitioned config table recorded.trace recorded.state :=
  runFrom_induction (step authority.recording) (partitioned_new tokens)
    (fun _ _ now c h => h.step authority now c) calls

/-- As many uses were counted for some calls as operations were allowed. -/
theorem countP_isUse_flatten {table : Requirements} {strict : Bool}
    {trace : List (Exchange Call Answer)} {asked : List (List Inquiry)}
    (h : List.Forall₂ (Mediated table strict) trace asked) :
    asked.flatten.countP Inquiry.isUse = (decisions trace).countP Decision.allowed := by
  induction h with
  | nil => rfl
  | @cons e asked trace rest hfirst _ ih =>
    have hconcat : decisions (e :: trace) = e.answer.decision :: decisions trace := rfl
    rw [List.flatten_cons, List.countP_append, ih, hfirst.course.countP_isUse, hconcat,
      List.countP_cons, Nat.add_comm]
    simp only [hfirst.granted]

/-- **Complete mediation.** In every run of checks in front of any authority, the authority can be
made to keep its questions without a change to the run. These questions fall into one part for each
call, which determines the answer to it: nothing is allowed without a counted use, and no use is
counted without being allowed. So there are as many counted uses as allowed operations. -/
theorem complete_mediation (authority : Authority σ) (config : MediatorConfig)
    (table : Requirements) (tokens : σ) (calls : List (Timestamp × Call)) :
    let plain := run authority config table tokens calls
    let recorded := run authority.recording config table (tokens, []) calls
    plain.trace = recorded.trace ∧ plain.state = erased recorded.state ∧
      plain.trace.map (fun e => (e.now, e.call)) = calls ∧
      (∃ asked, asked.flatten = recorded.state.tokens.2 ∧
        List.Forall₂ (Mediated table config.strict) plain.trace asked) ∧
      recorded.state.tokens.2.countP Inquiry.isUse =
        (decisions plain.trace).countP Decision.allowed := by
  obtain ⟨htrace, hstate⟩ := run_recording authority config table tokens calls
  obtain ⟨asked, hasked, hmediated⟩ := (partitioned_run authority config table tokens calls).parts
  rw [← htrace] at hmediated
  refine ⟨htrace, hstate, runFrom_asked _ _ calls, ⟨asked, hasked, hmediated⟩, ?_⟩
  rw [← hasked]
  exact countP_isUse_flatten hmediated

end Mediation

end QubitWarden
