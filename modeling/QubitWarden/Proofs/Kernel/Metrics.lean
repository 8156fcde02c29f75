import QubitWarden.Proofs.Kernel.Accounting
import QubitWarden.Proofs.Qubit.Operations

/-!
# The metrics of a run

The kernel sets its metrics by hand, each operation for itself. Yet they always are what the parts
of the kernel say: every operation keeps the counters in step with what they count, and sets the
gauges whenever the log or the pool changes.

* `CountsTokens`, `CountsChecks`: the counters next to the registry and the mediator.
* `Gauged`: the gauges next to the log and the pool.
* `TellsDenials`: the refused allocations, next to the log and the trace.
* `Metered`: all of these, kept by every operation.
* `metrics_agree`: what they say after every run.
-/

namespace QubitWarden

/-! ## Tallies under other names -/

namespace Tally

variable {κ μ : Type} [DecidableEq κ] [DecidableEq μ] {f : κ → μ}

/-- The tally with its keys renamed. -/
def rename (f : κ → μ) (t : Tally κ) : Tally μ := ⟨t.counts.map fun entry => (f entry.1, entry.2)⟩

theorem rename_bump (hf : ∀ {a b}, f a = f b → a = b) (t : Tally κ) (key : κ) :
    (t.bump key).rename f = (t.rename f).bump (f key) := by
  refine congrArg Tally.mk ?_
  simp only [bump, rename]
  induction t.counts with
  | nil => rfl
  | cons entry rest ih =>
    rw [List.map_cons, bumpCounts, bumpCounts]
    by_cases h : entry.1 = key
    · rw [if_pos h, if_pos (congrArg f h), List.map_cons]
    · rw [if_neg h, if_neg fun he => h (hf he), List.map_cons, ih]

theorem count_rename (hf : ∀ {a b}, f a = f b → a = b) (t : Tally κ) (key : κ) :
    (t.rename f).count (f key) = t.count key := by
  rw [count, rename, Association.lookup_map_key hf, count]

end Tally

namespace Kernel

open Audit

variable {k : Kernel} (now later : Timestamp)

/-! ## Counters -/

/-- The counters of tokens say what the registry says, and it has each revoked identifier once. -/
structure CountsTokens (m : Metrics) (reg : Registry) : Prop where
  issued : m.tokensIssued = reg.issued + reg.attenuated
  revoked : m.tokensRevoked = reg.revokedIds.length
  distinct : reg.revokedIds.Nodup

/-- The counters of checks say what the mediator says. -/
structure CountsChecks (m : Metrics) (g : Mediator) : Prop where
  allowed : m.checks.count "allowed" = g.allowed
  denied : m.checks.count "denied" = g.denied
  denials : m.denials = g.denials.rename Reason.name

theorem CountsChecks.record {m : Metrics} {g : Mediator} (h : CountsChecks m g) (d : Decision) :
    CountsChecks (m.recordCheck d.allowed d.reason.name) (g.record d) := by
  cases hd : d.allowed <;>
    simp only [Metrics.recordCheck, Mediator.record, hd, Bool.false_eq_true, ↓reduceIte]
  · refine ⟨?_, ?_, ?_⟩
    · simp [Tally.count_bump, h.allowed]
    · simp [Tally.count_bump, h.denied]
    · simp only [h.denials, Tally.rename_bump Reason.name_injective]
  · refine ⟨?_, ?_, h.denials⟩
    · simp [Tally.count_bump, h.allowed]
    · simp [Tally.count_bump, h.denied]

/-- The counters of tokens and checks are in step with the registry and the mediator. -/
structure Counted (k : Kernel) : Prop where
  tokens : CountsTokens k.metrics k.registry
  checks : CountsChecks k.metrics k.mediator

theorem Counted.issue (h : Counted k) (id : TokenId) (request : TokenRequest)
    (parent : Option Token) : Counted (k.issue now id request parent).2 := by
  rcases k.registry.create_cases k.issuer now id request parent with
    ⟨e, -, hr⟩ | ⟨g, -, hr⟩ <;> simp only [Kernel.issue, hr]
  · exact ⟨{ h.tokens with }, { h.checks with }⟩
  · refine ⟨{ h.tokens with issued := ?_ }, { h.checks with }⟩
    exact (congrArg (· + 1) h.tokens.issued).trans (Nat.add_right_comm _ _ 1)

theorem Counted.attenuate (h : Counted k) (id : TokenId) (source : Token)
    (capabilities : CapabilitySet) : Counted (k.attenuate now id source capabilities).2 := by
  rcases k.registry.attenuate_cases k.issuer now id source capabilities with
    ⟨e, -, hr⟩ | ⟨g, -, hr⟩ <;> simp only [Kernel.attenuate, hr]
  · exact ⟨{ h.tokens with }, { h.checks with }⟩
  · exact ⟨{ h.tokens with issued := congrArg (· + 1) h.tokens.issued }, { h.checks with }⟩

theorem Counted.revoke (h : Counted k) (id : TokenId) : Counted (k.revoke now id).2 := by
  rcases k.registry.revoke_cases id with ⟨-, hr⟩ | ⟨hid, hr⟩ <;> simp only [Kernel.revoke, hr]
  · exact ⟨{ h.tokens with }, { h.checks with }⟩
  · have hlength : (k.registry.revokedIds ++ [id]).length = k.registry.revokedIds.length + 1 := by
      simp
    have hdistinct : (k.registry.revokedIds ++ [id]).Nodup :=
      List.nodup_append.2 ⟨h.tokens.distinct, List.nodup_singleton id, fun a ha b hb hab =>
        hid (List.mem_singleton.1 hb ▸ hab ▸ ha)⟩
    refine ⟨{ h.tokens with revoked := ?_, distinct := hdistinct }, { h.checks with }⟩
    exact (congrArg (· + 1) h.tokens.revoked).trans hlength.symm

theorem Counted.collectExpired (h : Counted k) : Counted (k.collectExpired now).2 := by
  unfold Kernel.collectExpired
  split <;> rename_i hr <;> obtain rfl := (congrArg Prod.snd hr).symm <;>
    exact ⟨{ h.tokens with }, { h.checks with }⟩

theorem CountsTokens.recordCheck {m : Metrics} {reg : Registry} (h : CountsTokens m reg)
    (allowed : Bool) (reason : String) : CountsTokens (m.recordCheck allowed reason) reg := by
  unfold Metrics.recordCheck
  split <;> exact { h with }

/-- A check issues and revokes nothing. -/
theorem CountsTokens.outcome {m : Metrics} {g : Mediator} {sign : Signer} {reg after : Registry}
    {t : Token} {operation : Operation} {reason : Reason} (h : CountsTokens m reg)
    (ho : g.Outcome sign reg now later t operation reason after) : CountsTokens m after := by
  cases ho with
  | granted => exact { h with }
  | _ => exact h

theorem Counted.check (h : Counted k) (t : Token) (operation : Operation) :
    Counted (k.check now t operation later).2 := by
  obtain ⟨ho, -⟩ := k.mediator.check_outcome k.key.sign k.registry now later t operation
  have htokens := (h.tokens.outcome now later ho).recordCheck
    (k.check now t operation later).1.allowed (k.check now t operation later).1.reason.name
  have hchecks := h.checks.record (k.check now t operation later).1
  exact ⟨{ htokens with }, { hchecks with }⟩

theorem Counted.poolChanged (h : Counted k) (pool : Pool) (events : List AllocationEvent) :
    Counted (k.poolChanged now pool events) :=
  ⟨{ h.tokens with }, { h.checks with }⟩

theorem Counted.recordFailure (h : Counted k) (kind : String) :
    Counted { k with metrics := k.metrics.recordFailure kind } :=
  ⟨{ h.tokens with }, { h.checks with }⟩

theorem counted_step (h : Counted k) (call : Call) : Counted (step k now call).2 := by
  cases call with
  | issue id request parent => exact h.issue now id request parent
  | attenuate id source capabilities => exact h.attenuate now id source capabilities
  | revoke id => exact h.revoke now id
  | collectExpired => exact h.collectExpired now
  | check t operation later | require t operation later => exact h.check now later t operation
  | allocate tenant count preferred =>
    simp only [step, reply, allocate]
    split
    · exact h.poolChanged now _ _
    · exact (h.recordFailure _).poolChanged now _ _
  | setQuota tenant maxQubits => exact ⟨{ h.tokens with }, { h.checks with }⟩
  | _ => exact h.poolChanged now _ _

/-! ## Gauges -/

/-- The gauges show the log and the pool, as far as a signed word goes. -/
structure Gauged (k : Kernel) : Prop where
  entries : k.metrics.auditEntries = min k.log.size (UInt64.size / 2 - 1)
  allocated : k.metrics.qubitsAllocated = k.pool.statistics.allocated
  free : k.metrics.qubitsFree = k.pool.statistics.free

theorem gauged_refreshGauges (k : Kernel) : Gauged k.refreshGauges := ⟨rfl, rfl, rfl⟩

theorem Gauged.setQuota (h : Gauged k) (tenant : Tenant) (maxQubits : Nat) :
    Gauged (k.setQuota tenant maxQubits).2 := by
  have hqubits := k.pool.qubits_setQuota tenant maxQubits
  refine ⟨h.entries, h.allocated.trans ?_, h.free.trans ?_⟩
  · exact congrArg (fun qubits => qubits.countP fun q => q.state = .allocated) hqubits.symm
  · exact congrArg (fun qubits => qubits.countP fun q => q.state = .free) hqubits.symm

/-- The gauges are set again by every operation on a qubit; the others add to the log at most. -/
theorem gauged_step (h : Gauged k) (call : Call) : Gauged (step k now call).2 := by
  cases call with
  | issue | attenuate =>
    simp only [step, reply, issue, attenuate]
    split <;> exact { h with entries := rfl }
  | revoke | collectExpired =>
    simp only [step, reply, revoke, collectExpired]
    split
    · exact { h with }
    · exact { h with entries := rfl }
  | allocate =>
    simp only [step, reply, allocate]
    split <;> exact gauged_refreshGauges _
  | setQuota tenant maxQubits => exact h.setQuota tenant maxQubits
  | _ => exact gauged_refreshGauges _

/-! ## Refused allocations -/

/-- The kind of refusal that the answer to a call tells, if the call asks for qubits. -/
def refusal? : Call → Answer → Option String
  | .allocate _ _ _, .qubits (.error (.allocation e)) => some e.kind
  | _, _ => none

/-- Whether an exchange is a refused allocation. -/
def refusedAllocation (e : Exchange Call Answer) : Bool :=
  match e.call, e.answer with
  | .allocate _ _ _, .qubits (.error _) => true
  | _, _ => false

/-- The kind of refusal that a record tells. -/
def deniedKind? (r : Record) : Option String :=
  if r.eventType = .allocationDenied then r.details.get? "reason" else none

variable {call : Call} {answer : Answer}

theorem notice?_of_refusal {kind : String} (h : refusal? call answer = some kind) :
    ∃ requested e, kind = AllocationError.kind e ∧ notice? call answer = some
      ⟨.allocationDenied, [("requested", .number requested), ("reason", .allocationError e)]⟩ := by
  unfold refusal? at h
  split at h
  · cases h
    exact ⟨_, _, rfl, rfl⟩
  · cases h

/-- Only a refused allocation calls for such a record. -/
theorem refusal?_of_notice {n : Notice} (h : notice? call answer = some n)
    (htype : n.eventType = .allocationDenied) : ∃ kind, refusal? call answer = some kind := by
  unfold notice? at h
  split at h <;> cases h
  case h_11 e => exact ⟨e.kind, rfl⟩
  -- No other answer calls for a record of this type.
  all_goals
    simp only [issueNotice, refusalNotice, decisionNotice] at htype
    repeat' split at htype
    all_goals cases htype

theorem failures_recordCheck (m : Metrics) (allowed : Bool) (reason : String) :
    (m.recordCheck allowed reason).failures = m.failures := by
  unfold Metrics.recordCheck
  split <;> rfl

theorem failures_step (k : Kernel) (call : Call) :
    (step k now call).2.metrics.failures =
      (refusal? call (step k now call).1).toList.foldl Tally.bump k.metrics.failures := by
  cases call with
  | issue | attenuate | revoke | collectExpired =>
    simp only [step, reply, issue, attenuate, revoke, collectExpired]
    split <;> rfl
  | check t operation later | require t operation later =>
    exact failures_recordCheck k.metrics (k.check now t operation later).1.allowed _
  | allocate =>
    simp only [step, reply, allocate]
    split <;> rfl
  | _ => rfl

theorem refusedAllocation_step (k : Kernel) (call : Call) :
    refusedAllocation (exchange step k now call) =
      (refusal? call (step k now call).1).isSome := by
  cases call with
  | allocate =>
    simp only [exchange, step, reply, allocate]
    split <;> rfl
  | _ => rfl

/-- The records that an answer calls for tell a refusal exactly if the answer does. -/
theorem deniedKinds_of_matches {added : List Entry}
    (hmatches : List.Forall₂ (fun n entry => n.Matches entry.record)
      (notice? call answer).toList added) :
    (added.map Entry.record).filterMap deniedKind? = (refusal? call answer).toList := by
  cases hn : notice? call answer with
  | none =>
    rw [hn] at hmatches
    cases hmatches
    cases hr : refusal? call answer with
    | none => rfl
    | some kind =>
      obtain ⟨requested, e, -, hsome⟩ := notice?_of_refusal hr
      rw [hn] at hsome
      cases hsome
  | some n =>
    rw [hn] at hmatches
    obtain ⟨entry, rest, hentry, hrest, rfl⟩ := List.forall₂_cons_left_iff.1 hmatches
    cases hrest
    cases hr : refusal? call answer with
    | some kind =>
      obtain ⟨requested, e, rfl, hsome⟩ := notice?_of_refusal hr
      obtain rfl := Option.some.inj (hn.symm.trans hsome)
      have hreason : entry.record.details.get? "reason" = some e.kind :=
        hentry.details ("reason", .allocationError e) (by simp)
      simp [deniedKind?, hentry.eventType, hreason]
    | none =>
      have htype : n.eventType ≠ .allocationDenied := fun htype => by
        obtain ⟨kind, hkind⟩ := refusal?_of_notice hn htype
        rw [hr] at hkind
        cases hkind
      simp [deniedKind?, hentry.eventType, htype]

theorem deniedKinds_step (k : Kernel) (call : Call) :
    (step k now call).2.log.records.filterMap deniedKind? =
      k.log.records.filterMap deniedKind? ++ (refusal? call (step k now call).1).toList := by
  obtain ⟨added, hadded, hmatches⟩ := (step_extends k now call).entries
  rw [Log.records, Log.records, hadded, List.map_append, List.filterMap_append,
    deniedKinds_of_matches hmatches]

/-- The refused allocations of a trace are counted by their kinds, which the log tells. -/
structure TellsDenials (trace : List (Exchange Call Answer)) (k : Kernel) : Prop where
  failures : k.metrics.failures = .ofList (k.log.records.filterMap deniedKind?)
  refused : (k.log.records.filterMap deniedKind?).length = trace.countP refusedAllocation

theorem TellsDenials.step {trace : List (Exchange Call Answer)} (h : TellsDenials trace k)
    (call : Call) :
    TellsDenials (trace ++ [exchange Kernel.step k now call]) (Kernel.step k now call).2 := by
  refine ⟨?_, ?_⟩
  · rw [failures_step, deniedKinds_step, h.failures, Tally.ofList, Tally.ofList, List.foldl_append]
  · rw [deniedKinds_step, List.length_append, List.countP_append, h.refused, List.countP_singleton,
      refusedAllocation_step]
    cases refusal? call (Kernel.step k now call).1 <;> rfl

/-! ## Every run -/

/-- The log grows by at most one entry with each operation. -/
theorem size_step (k : Kernel) (call : Call) :
    (step k now call).2.log.size ≤ k.log.size + 1 := by
  obtain ⟨added, hadded, hmatches⟩ := (step_extends k now call).entries
  have hlength : added.length ≤ 1 := hmatches.length_eq ▸ Option.length_toList_le
  rw [Log.size, Log.size, hadded, List.length_append]
  omega

/-- The metrics of a kernel are what its parts and the trace that led to it say. -/
structure Metered (trace : List (Exchange Call Answer)) (k : Kernel) : Prop where
  counted : Counted k
  gauged : Gauged k
  denials : TellsDenials trace k
  size : k.log.size ≤ trace.length

theorem Metered.step {trace : List (Exchange Call Answer)} (h : Metered trace k) (call : Call) :
    Metered (trace ++ [exchange Kernel.step k now call]) (Kernel.step k now call).2 where
  counted := counted_step now h.counted call
  gauged := gauged_step now h.gauged call
  denials := h.denials.step now call
  size := by
    rw [List.length_append, List.length_singleton]
    exact (size_step now k call).trans (Nat.add_le_add_right h.size 1)

section
variable {config : Config} {ephemeral : Key} {start : Kernel}
  (valid : Kernel.new config ephemeral = .ok start)
include valid

theorem metered_new : Metered [] start := by
  rw [new_eq valid]
  exact ⟨⟨⟨rfl, rfl, List.nodup_nil⟩, ⟨rfl, rfl, rfl⟩⟩, gauged_refreshGauges _, ⟨rfl, rfl⟩,
    Nat.le_refl 0⟩

theorem metered_run (calls : List (Timestamp × Call)) :
    Metered (run start calls).trace (run start calls).state :=
  runFrom_induction step (metered_new valid) (fun _ _ now call h => h.step now call) calls

/-- **The metrics agree with the parts of the kernel**, at the start and after every operation.
Tokens and checks are counted as the registry and the mediator count them, denials under the names
of their reasons. The gauges show how long the log is, as far as a signed word goes, and how many
qubits are allocated and free. Refused allocations are counted by kind as the log has them, and
there are as many as the run had. -/
theorem metrics_agree (calls : List (Timestamp × Call)) :
    let r := run start calls
    let k := r.state
    let m := k.metrics
    (m.tokensIssued = k.registry.statistics.issued + k.registry.statistics.attenuated ∧
        m.tokensRevoked = k.registry.statistics.revoked ∧ k.registry.revokedIds.Nodup) ∧
      (m.checks.count "allowed" = k.mediator.allowed ∧
        m.checks.count "denied" = k.mediator.denied ∧
        m.denials = k.mediator.denials.rename Reason.name ∧
        ∀ reason : Reason, m.denials.count reason.name = k.mediator.denials.count reason) ∧
      (m.auditEntries = min k.log.size (UInt64.size / 2 - 1) ∧
        (calls.length < UInt64.size / 2 → m.auditEntries = k.log.size)) ∧
      (m.qubitsAllocated = k.pool.statistics.allocated ∧
        m.qubitsFree = k.pool.statistics.free) ∧
      (∀ kind, m.failures.count kind = k.log.records.countP fun record =>
          record.eventType = .allocationDenied ∧ record.details.get? "reason" = some kind) ∧
      m.failures.total = r.trace.countP refusedAllocation := by
  intro r k m
  obtain ⟨⟨htokens, hchecks⟩, hgauged, hdenials, hsize⟩ := metered_run valid calls
  refine ⟨⟨htokens.issued, htokens.revoked, htokens.distinct⟩,
    ⟨hchecks.allowed, hchecks.denied, hchecks.denials, fun reason => ?_⟩,
    ⟨hgauged.entries, fun hshort => ?_⟩, ⟨hgauged.allocated, hgauged.free⟩, fun kind => ?_, ?_⟩
  · rw [hchecks.denials, Tally.count_rename Reason.name_injective]
  · have hlength : (run start calls).trace.length = calls.length := by
      rw [← List.length_map (fun e => (e.now, e.call))]
      exact congrArg List.length (runFrom_asked step start calls)
    rw [hlength] at hsize
    exact hgauged.entries.trans (Nat.min_eq_left (Nat.le_sub_one_of_lt (hsize.trans_lt hshort)))
  · rw [hdenials.failures, Tally.count_ofList, List.countP_filterMap]
    refine List.countP_congr fun record _ => ?_
    unfold deniedKind?
    split
    next htype => cases record.details.get? "reason" <;> simp [htype]
    next htype => simp [htype]
  · rw [hdenials.failures, Tally.total_ofList, hdenials.refused]

end

/-- Three allocations are refused after one that was granted. -/
theorem metrics_agree_refused :
    let calls := sampleCalls ++
      [(130, .allocate "lab" 0 []), (140, .allocate "lab" 1000 []), (150, .allocate "lab" 0 [])]
    let k := (run sampleKernel calls).state
    k.metrics.failures.total = 3 ∧ k.metrics.auditEntries = k.log.size ∧
      k.metrics.qubitsAllocated = 1 := by
  intro calls k
  have valid : Kernel.new {} sampleKey = .ok sampleKernel := rfl
  obtain ⟨-, -, ⟨-, hentries⟩, ⟨hallocated, -⟩, -, htotal⟩ := metrics_agree valid calls
  refine ⟨?_, hentries (by decide), ?_⟩
  · rw [htotal]
    decide +kernel
  · rw [hallocated]
    decide +kernel

end Kernel

end QubitWarden
