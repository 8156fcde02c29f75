import QubitWarden.Proofs.Audit.AllocationTrail
import QubitWarden.Proofs.Audit.Encoding
import QubitWarden.Proofs.Audit.Tampering
import QubitWarden.Proofs.Kernel.Authorization

/-!
# Accounting for the kernel

What the kernel grants and what it refuses is found in its log: every operation leaves at most one
record, and its answer alone says which.

* `Content`: what a detail of a record tells, and how it is read back (`Content.readFrom_text`).
* `Notice`, `notice?`: what a record has to say about the answer to a call.
* `step_extends`: each operation leaves the record that its answer calls for, and no other.
* `isSome_notice?`: the operations that never stay without a record.
* `audit_accounted`: the log of a reachable kernel before and after an operation.
-/

namespace QubitWarden.Kernel

open Audit

/-- What a detail of a record tells. -/
inductive Content where
  | plain (text : String)
  | number (n : Nat)
  | token (id : TokenId)
  | capabilities (s : CapabilitySet)
  | qubit (id : QubitId)
  | qubits (ids : List QubitId)
  | reason (r : Reason)
  | tokenError (e : TokenError)
  | allocationError (e : AllocationError)

namespace Content

/-- How the content is written. -/
def text : Content → String
  | .plain text => text
  | .number n => toString n
  | .token id => id.toText
  | .capabilities s => s.display
  | .qubit id => id.toText
  | .qubits ids => QubitId.joinText ids
  | .reason r => r.name
  | .tokenError e => e.reasonCode
  | .allocationError e => e.kind

/-- Whoever reads a text finds the content in it. Of an error this is its kind. -/
def ReadFrom : Content → String → Prop
  | .plain s, text => text = s
  | .number n, text => Text.ofDigits? text.toList = some n
  | .token id, text => TokenId.parse? text = some id
  | .capabilities s, text => CapabilitySet.parse text = .ok s
  | .qubit id, text => QubitId.ofText? text = some id
  | .qubits ids, text => QubitId.ofJoined? text = some ids
  | .reason r, text => Reason.ofName? text = some r
  | .tokenError e, text => ∀ other : TokenError, other.reasonCode = text ↔ other.SameKind e
  | .allocationError e, text => ∀ other : AllocationError, other.kind = text ↔ other.SameKind e

/-- **Every content is read back** from how it is written. -/
theorem readFrom_text (c : Content) : c.ReadFrom c.text := by
  cases c with
  | plain text => rfl
  | number n => exact Text.ofDigits?_decimal n
  | token id => exact TokenId.parse?_toText id
  | capabilities s => exact CapabilitySet.parse_display s
  | qubit id => exact QubitId.ofText?_toText id
  | qubits ids => exact QubitId.ofJoined?_joinText ids
  | reason r => exact Reason.ofName?_name r
  | tokenError e => exact fun other => TokenError.reasonCode_eq_iff
  | allocationError e => exact fun other => AllocationError.kind_eq_iff

end Content

/-- A kind of record, with some of its details. -/
structure Notice where
  eventType : EventType
  details : List (String × Content)

/-- A record of that kind with these details, and maybe more. -/
structure Notice.Matches (n : Notice) (r : Record) : Prop where
  eventType : r.eventType = n.eventType
  details : ∀ entry ∈ n.details, r.details.get? entry.1 = some entry.2.text
  /-- What the details tell is read back from the record. -/
  readable : ∀ entry ∈ n.details, ∃ text, r.details.get? entry.1 = some text ∧
    entry.2.ReadFrom text

theorem Notice.Matches.of_details {n : Notice} {r : Record}
    (eventType : r.eventType = n.eventType)
    (details : ∀ entry ∈ n.details, r.details.get? entry.1 = some entry.2.text) : n.Matches r where
  eventType := eventType
  details := details
  readable entry hentry := ⟨_, details entry hentry, entry.2.readFrom_text⟩

/-- What tells about a new token. -/
def issueNotice (eventType : EventType) (t : Token) : Notice :=
  ⟨eventType, [("token_id", .token t.id), ("capabilities", .capabilities t.capabilities)]⟩

/-- What tells about a refused token. -/
def refusalNotice (requested : CapabilitySet) (e : TokenError) : Notice where
  eventType := if e = .lineageViolation then .securityViolation else .capabilityDenied
  details := [("reason", .tokenError e), ("requested", .capabilities requested)]

/-- What tells about a decision. -/
def decisionNotice (operation : Operation) (reason : Reason) : Notice where
  eventType :=
    if reason = .granted then .capabilityGranted
    else if reason = .lineageViolation then .securityViolation
    else .capabilityDenied
  details := [("operation", .plain operation), ("reason", .reason reason)]

/-- What tells about an event of the allocator. -/
def eventNotice : AllocationEvent → Notice
  | .allocated _ ids => ⟨.qubitAllocated, [("qubits", .qubits ids)]⟩
  | .deallocated _ ids reset =>
    ⟨if reset then .qubitDeallocated else .qubitResetSkipped, [("qubits", .qubits ids)]⟩
  | .denied _ requested kind =>
    ⟨.allocationDenied, [("requested", .number requested), ("reason", .plain kind)]⟩
  | .ownershipViolation _ ids _ => ⟨.ownershipViolation, [("qubits", .qubits ids)]⟩
  | .takenOffline id state _ =>
    ⟨if state = .faulty then .qubitFaulty else .qubitMaintenance, [("qubit_id", .qubit id)]⟩
  | .restored id => ⟨.qubitRestored, [("qubit_id", .qubit id)]⟩

/-- What the log has to tell about the answer to a call, if anything. -/
def notice? (call : Call) (answer : Answer) : Option Notice :=
  match call, answer with
  | .issue _ _ _, .token (.ok t) => some (issueNotice .tokenIssued t)
  | .issue _ request _, .token (.error (.token e)) => some (refusalNotice request.capabilities e)
  | .attenuate _ _ _, .token (.ok t) => some (issueNotice .tokenAttenuated t)
  | .attenuate _ _ capabilities, .token (.error (.token e)) => some (refusalNotice capabilities e)
  | .revoke id, .flag true => some ⟨.tokenRevoked, [("token_id", .token id)]⟩
  | .collectExpired, .count (n + 1) => some ⟨.tokensCollected, [("count", .number (n + 1))]⟩
  | .check _ operation _, .decided d => some (decisionNotice operation d.reason)
  | .require _ operation _, .insisted (.ok d) => some (decisionNotice operation d.reason)
  | .require _ operation _, .insisted (.error (.mediation e)) =>
    some (decisionNotice operation e.reason)
  | .allocate _ _ _, .qubits (.ok ids) =>
    some ⟨.qubitAllocated, [("qubits", .qubits ids)]⟩
  | .allocate _ count _, .qubits (.error (.allocation e)) =>
    some ⟨.allocationDenied, [("requested", .number count), ("reason", .allocationError e)]⟩
  | .deallocate _ _ reset, .qubits (.ok ids) =>
    some ⟨if reset then .qubitDeallocated else .qubitResetSkipped, [("qubits", .qubits ids)]⟩
  | .deallocate _ _ _, .qubits (.error (.allocation (.notOwned _ foreign))) =>
    some ⟨.ownershipViolation, [("qubits", .qubits foreign)]⟩
  | .verifyAccess _ qubit, .flag false | .requireAccess _ qubit, .done (.error _) =>
    some ⟨.ownershipViolation, [("qubits", .qubits [qubit])]⟩
  | .markFaulty qubit, .evicted (.ok _) => some ⟨.qubitFaulty, [("qubit_id", .qubit qubit)]⟩
  | .markMaintenance qubit, .evicted (.ok _) =>
    some ⟨.qubitMaintenance, [("qubit_id", .qubit qubit)]⟩
  | .restore qubit, .done (.ok _) => some ⟨.qubitRestored, [("qubit_id", .qubit qubit)]⟩
  | .releaseTenant _, .qubits (.ok (id :: ids)) =>
    some ⟨.qubitDeallocated, [("qubits", .qubits (id :: ids))]⟩
  | _, _ => none

/-- The operations that always leave a record, whatever their answer. -/
def Call.AlwaysRecorded : Call → Prop
  | .issue .. | .attenuate .. | .check .. | .require .. | .allocate .. => True
  | _ => False

/-- A log and what it becomes when something may have to be told. -/
inductive Extends (log : Log) : Option Notice → Log → Prop
  | unchanged : Extends log none log
  | extended {n : Notice} {time : Timestamp} {event : Event} :
      n.Matches (log.nextRecord time event) → Extends log (some n) (log.append sha256 time event)

/-! ## What each operation leaves -/

variable (k : Kernel) (now later : Timestamp)

theorem issueNotice_matches {log : Log} (eventType : EventType) (t : Token)
    (parent : Option TokenId) :
    (issueNotice eventType t).Matches (log.nextRecord now (tokenEvent eventType t parent)) := by
  refine .of_details rfl ?_
  cases hmax : t.maxUses <;> cases parent <;>
    simp [issueNotice, Content.text, Log.nextRecord, tokenEvent, optionalEntry, Details.ofList,
      hmax]

theorem refusalNotice_matches {log : Log} (action : String) (tenant : Tenant)
    (requested : CapabilitySet) (parent : Option TokenId) (e : TokenError) :
    (refusalNotice requested e).Matches
      (log.nextRecord now (refusalEvent action tenant requested parent e)) := by
  refine .of_details ?_ ?_
  · cases e <;> rfl
  · cases parent <;>
      simp [refusalNotice, Content.text, Log.nextRecord, refusalEvent, optionalEntry,
        Details.ofList]

theorem decisionNotice_matches {log : Log} {d : Decision}
    (h : d.allowed = true ↔ d.reason = .granted) :
    (decisionNotice d.operation d.reason).Matches (log.nextRecord now d.toEvent) := by
  refine .of_details ?_ ?_
  · simp only [Log.nextRecord, Decision.toEvent, Decision.eventType, decisionNotice, h,
      Reason.isViolation_iff]
  · simp [decisionNotice, Content.text, Log.nextRecord, Decision.toEvent, Details.ofList]

theorem eventNotice_matches {log : Log} (e : AllocationEvent) :
    (eventNotice e).Matches (log.nextRecord now e.toEvent) := by
  refine .of_details ?_ ?_
  · cases e <;> rfl
  · rcases e with _ | _ | _ | _ | ⟨qubit, state, _ | owner⟩ | _ <;>
      simp [eventNotice, Content.text, Log.nextRecord, AllocationEvent.toEvent,
        AllocationEvent.details, Details.ofList]

theorem issue_extends (id : TokenId) (request : TokenRequest) (parent : Option Token) :
    Extends k.log (notice? (.issue id request parent) (.token (k.issue now id request parent).1))
      (k.issue now id request parent).2.log := by
  unfold issue
  split
  · exact .extended (refusalNotice_matches ..)
  · exact .extended (issueNotice_matches ..)

theorem attenuate_extends (id : TokenId) (source : Token) (capabilities : CapabilitySet) :
    Extends k.log
      (notice? (.attenuate id source capabilities)
        (.token (k.attenuate now id source capabilities).1))
      (k.attenuate now id source capabilities).2.log := by
  unfold attenuate
  split
  · exact .extended (refusalNotice_matches ..)
  · exact .extended (issueNotice_matches ..)

theorem revoke_extends (id : TokenId) :
    Extends k.log (notice? (.revoke id) (.flag (k.revoke now id).1)) (k.revoke now id).2.log := by
  unfold revoke
  dsimp only
  split
  · exact .unchanged
  · exact .extended (.of_details rfl (by simp [Content.text, Log.nextRecord, Details.ofList]))

theorem collectExpired_extends :
    Extends k.log (notice? .collectExpired (.count (k.collectExpired now).1))
      (k.collectExpired now).2.log := by
  unfold collectExpired
  split
  · exact .unchanged
  · exact .extended (.of_details rfl (by simp [Content.text, Log.nextRecord, Details.ofList]))

/-- A check leaves the record of its decision. -/
theorem check_extends (t : Token) (operation : Operation) :
    Extends k.log
      (some (decisionNotice operation (k.check now t operation later).1.reason))
      (k.check now t operation later).2.log :=
  .extended (decisionNotice_matches later decide_eq_true_iff)

/-- Insisting calls for the record of the decision, which the error tells as well. -/
theorem notice?_require (t : Token) (operation : Operation) :
    notice? (.require t operation later) (.insisted (k.require now t operation later).1) =
      some (decisionNotice operation (k.check now t operation later).1.reason) := by
  have hoperation : (k.check now t operation later).1.operation = operation := rfl
  rw [require]
  dsimp only
  generalize (k.check now t operation later).1 = d at hoperation ⊢
  subst hoperation
  unfold Mediator.insist MediationError.ofDenial
  split
  · rfl
  · split <;> rfl

/-- A reported event leaves its record. -/
theorem reported_extends (pool : Pool) (e : AllocationEvent) :
    Extends k.log (some (eventNotice e)) (k.poolChanged now pool [e]).log :=
  .extended (eventNotice_matches now e)

theorem allocate_extends (tenant : Tenant) (count : Nat) (preferred : List QubitId) :
    Extends k.log
      (notice? (.allocate tenant count preferred)
        (.qubits (k.allocate now tenant count preferred).1))
      (k.allocate now tenant count preferred).2.log := by
  rcases hr : k.pool.allocate now tenant count preferred with ⟨e | ids, pool⟩ <;>
    simp only [allocate, Allocator.allocate, hr]
  · have hmatches := (eventNotice_matches now (.denied tenant count e.kind) :
      Notice.Matches _ (k.log.nextRecord now _))
    exact .extended (.of_details rfl (by simpa [eventNotice, Content.text] using hmatches.details))
  · exact reported_extends k now pool (.allocated tenant ids)

theorem deallocate_extends (tenant : Tenant) (qubits : List QubitId) (reset : Bool) :
    Extends k.log
      (notice? (.deallocate tenant qubits reset) (.qubits (k.deallocate now tenant qubits reset).1))
      (k.deallocate now tenant qubits reset).2.log := by
  rcases hr : k.pool.deallocate now tenant qubits reset with ⟨e | ids, pool⟩
  · cases e with
    | notOwned owner foreign =>
      simp only [deallocate, Allocator.deallocate, hr]
      exact reported_extends k now pool (.ownershipViolation tenant foreign "deallocate")
    | _ =>
      simp only [deallocate, Allocator.deallocate, hr]
      exact .unchanged
  · simp only [deallocate, Allocator.deallocate, hr]
    exact reported_extends k now pool (.deallocated tenant ids reset)

theorem verifyAccess_extends (tenant : Tenant) (qubit : QubitId) :
    Extends k.log (notice? (.verifyAccess tenant qubit) (.flag (k.verifyAccess now tenant qubit).1))
      (k.verifyAccess now tenant qubit).2.log := by
  cases hr : k.pool.verifyAccess tenant qubit <;>
    simp only [verifyAccess, Allocator.verifyAccess, hr, Bool.false_eq_true, ↓reduceIte]
  · exact reported_extends k now k.pool (.ownershipViolation tenant [qubit] "access")
  · exact .unchanged

theorem requireAccess_extends (tenant : Tenant) (qubit : QubitId) :
    Extends k.log
      (notice? (.requireAccess tenant qubit) (.done (k.requireAccess now tenant qubit).1))
      (k.requireAccess now tenant qubit).2.log := by
  cases hr : k.pool.verifyAccess tenant qubit <;>
    simp only [requireAccess, Allocator.requireAccess, Allocator.verifyAccess, hr,
      Bool.false_eq_true, ↓reduceIte]
  · exact reported_extends k now k.pool (.ownershipViolation tenant [qubit] "access")
  · exact .unchanged

/-- Taking a qubit out of service leaves a record if it succeeds. -/
theorem takeOffline_extends (qubit : QubitId) (target : QubitState) :
    Extends k.log
      (match (k.takeOffline now qubit target).1 with
      | .ok _ => some ⟨if target = .faulty then .qubitFaulty else .qubitMaintenance,
          [("qubit_id", .qubit qubit)]⟩
      | .error _ => none)
      (k.takeOffline now qubit target).2.log := by
  rcases hr : k.pool.takeOffline now qubit target with ⟨e | evicted, pool⟩ <;>
    simp only [takeOffline, Allocator.takeOffline, hr]
  · exact .unchanged
  · exact reported_extends k now pool (.takenOffline qubit target evicted)

theorem restore_extends (qubit : QubitId) :
    Extends k.log (notice? (.restore qubit) (.done (k.restore now qubit).1))
      (k.restore now qubit).2.log := by
  rcases hr : k.pool.restore qubit with ⟨e | ⟨⟨⟩⟩, pool⟩ <;>
    simp only [restore, Allocator.restore, hr]
  · exact .unchanged
  · exact reported_extends k now pool (.restored qubit)

theorem releaseTenant_extends (tenant : Tenant) :
    Extends k.log (notice? (.releaseTenant tenant) (.qubits (k.releaseTenant now tenant).1))
      (k.releaseTenant now tenant).2.log := by
  rcases hr : k.pool.releaseTenant now tenant with ⟨e | _ | ⟨id, ids⟩, pool⟩ <;>
    simp only [releaseTenant, Allocator.releaseTenant, hr]
  · exact .unchanged
  · exact .unchanged
  · exact reported_extends k now pool (.deallocated tenant (id :: ids) true)

/-- **Each operation leaves the record that its answer calls for**, and no other. -/
theorem step_extends (call : Call) :
    Extends k.log (notice? call (step k now call).1) (step k now call).2.log := by
  cases call with
  | issue id request parent => exact issue_extends k now id request parent
  | attenuate id source capabilities => exact attenuate_extends k now id source capabilities
  | revoke id => exact revoke_extends k now id
  | collectExpired => exact collectExpired_extends k now
  | check t operation later => exact check_extends k now later t operation
  | require t operation later =>
    rw [step, reply, notice?_require]
    exact check_extends k now later t operation
  | allocate tenant count preferred => exact allocate_extends k now tenant count preferred
  | deallocate tenant qubits reset => exact deallocate_extends k now tenant qubits reset
  | verifyAccess tenant qubit => exact verifyAccess_extends k now tenant qubit
  | requireAccess tenant qubit => exact requireAccess_extends k now tenant qubit
  | completeReset | completeAllResets | setQuota => exact .unchanged
  | markFaulty qubit =>
    have h := takeOffline_extends k now qubit .faulty
    cases hr : (k.takeOffline now qubit .faulty).1 <;>
      rw [hr] at h <;> rw [step, reply, markFaulty, hr] <;> exact h
  | markMaintenance qubit =>
    have h := takeOffline_extends k now qubit .maintenance
    cases hr : (k.takeOffline now qubit .maintenance).1 <;>
      rw [hr] at h <;> rw [step, reply, markMaintenance, hr] <;> exact h
  | restore qubit => exact restore_extends k now qubit
  | releaseTenant tenant => exact releaseTenant_extends k now tenant

/-- The answer to these operations always calls for a record. -/
theorem isSome_notice? {call : Call} (h : call.AlwaysRecorded) :
    (notice? call (step k now call).1).isSome = true := by
  cases call with
  | issue id request parent =>
    simp only [step, reply, issue]
    split <;> rfl
  | attenuate id source capabilities =>
    simp only [step, reply, attenuate]
    split <;> rfl
  | check t operation later => rfl
  | require t operation later =>
    rw [step, reply, notice?_require]
    rfl
  | allocate tenant count preferred =>
    simp only [step, reply, allocate]
    split <;> rfl
  | _ => cases h

/-! ## The log of a run -/

theorem Extends.ofEvents {padding : Padding} {events : EventHistory} {n : Option Notice}
    {after : Log} (h : Extends (Log.ofEvents sha256 padding events) n after) :
    ∃ events, after = Log.ofEvents sha256 padding events := by
  cases h with
  | unchanged => exact ⟨events, rfl⟩
  | @extended n time event => exact ⟨events ++ [(time, event)], (Log.ofEvents_concat ..).symm⟩

theorem Extends.entries {log after : Log} {n : Option Notice} (h : Extends log n after) :
    ∃ added, after.entries = log.entries ++ added ∧
      List.Forall₂ (fun n entry => n.Matches entry.record) n.toList added := by
  cases h with
  | unchanged => exact ⟨[], (List.append_nil _).symm, .nil⟩
  | extended hmatches => exact ⟨_, rfl, .cons hmatches .nil⟩

/-- The log of a reachable kernel is that of some history. -/
theorem log_run {config : Config} {ephemeral : Key} {start : Kernel}
    (valid : Kernel.new config ephemeral = .ok start) (calls : List (Timestamp × Call)) :
    ∃ events, (run start calls).state.log = Log.ofEvents sha256 config.padding events := by
  refine runFrom_induction
    (P := fun _ k => ∃ events, k.log = Log.ofEvents sha256 config.padding events) step ?_ ?_ calls
  · rw [new_eq valid]
    exact ⟨[], rfl⟩
  · rintro _ k now call ⟨events, hlog⟩
    have h := step_extends k now call
    rw [hlog] at h
    exact h.ofEvents

/-- **The log accounts for every operation.** On a reachable kernel an operation adds at most one
entry, and the entries before it stay as they are. There is a new entry exactly if the answer calls
for one, and what the answer calls for is read back from it; to some operations every answer does.
All along the entries are numbered by their place, with the bytes of their records, from which these
are read back, and nothing is detected. -/
theorem audit_accounted {config : Config} {ephemeral : Key} {start : Kernel}
    (valid : Kernel.new config ephemeral = .ok start) (calls : List (Timestamp × Call))
    (now : Timestamp) (call : Call) :
    let k := (run start calls).state
    let r := step k now call
    (∃ added, r.2.log.entries = k.log.entries ++ added ∧ added.length ≤ 1 ∧
        List.Forall₂ (fun n entry => n.Matches entry.record) (notice? call r.1).toList added) ∧
      (call.AlwaysRecorded → (notice? call r.1).isSome = true) ∧
      (∀ i entry, k.log.entries[i]? = some entry →
        entry.record.sequence = UInt64.ofNat i ∧ entry.bytes = entry.record.toBytes ∧
          Record.ofBytes? entry.bytes = some entry.record) ∧
      k.detectTampering = none := by
  intro k r
  obtain ⟨events, hlog⟩ : ∃ events, k.log = Log.ofEvents sha256 config.padding events :=
    log_run valid calls
  obtain ⟨added, hadded, hmatches⟩ := (step_extends k now call).entries
  refine ⟨⟨added, hadded, ?_, hmatches⟩, isSome_notice? k now, fun i entry hentry => ?_, ?_⟩
  · rw [← hmatches.length_eq]
    exact Option.length_toList_le
  · rw [hlog] at hentry
    obtain ⟨hsequence, hbytes⟩ := Log.of_getElem?_ofEvents hentry
    exact ⟨hsequence, hbytes, by rw [hbytes, Record.ofBytes?_toBytes]⟩
  · rw [detectTampering, hlog]
    exact Log.detectTampering_ofEvents sha256 config.padding events

/-- Who asks for a qubit of somebody else is refused, and that is recorded. -/
theorem audit_accounted_foreign :
    let k := (run sampleKernel sampleCalls).state
    let r := step k 130 (.verifyAccess "stranger" ⟨0⟩)
    ∃ entry, r.2.log.entries = k.log.entries ++ [entry] ∧
      entry.record.eventType = .ownershipViolation ∧
      entry.record.details.get? "qubits" = some "q0" := by
  intro k r
  have valid : Kernel.new {} sampleKey = .ok sampleKernel := rfl
  have hrefused : k.pool.verifyAccess "stranger" ⟨0⟩ = false := by decide +kernel
  obtain ⟨⟨added, hadded, -, hmatches⟩, -⟩ :=
    audit_accounted valid sampleCalls 130 (.verifyAccess "stranger" ⟨0⟩)
  have hnotice : notice? (.verifyAccess "stranger" ⟨0⟩) r.1 =
      some ⟨.ownershipViolation, [("qubits", .qubits [⟨0⟩])]⟩ := by
    simp only [r, step, reply, verifyAccess, Allocator.verifyAccess, hrefused]
    rfl
  rw [hnotice] at hmatches
  cases hmatches with
  | @cons _ entry _ _ hentry hrest =>
    cases hrest
    exact ⟨entry, hadded, hentry.eventType, hentry.details _ List.mem_cons_self⟩

end QubitWarden.Kernel
