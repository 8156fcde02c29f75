import QubitWarden.Proofs.Audit.Log
import QubitWarden.Proofs.Qubit.Ownership
import QubitWarden.Text.Numeral
import QubitWarden.Text.Segments

/-!
# The audit trail of the allocator

The reported events determine who owns which qubit, and so do the records that they leave in a log,
read back from their kind, their tenant and their details.

* `QubitId.ofText?_toText`, `QubitId.ofJoined?_joinText`: texts of qubits are read back.
* `Audit.Record.transfer?_ofEvent`: a record tells the transfer that its event tells.
* `ownership_replayed`: replayed events and replayed records give the owners in the pool, what each
  tenant holds and how much its quota counts.
-/

namespace QubitWarden

namespace QubitId

/-- The qubit of a short text. -/
def ofText? (s : String) : Option QubitId :=
  match s.toList with
  | 'q' :: digits => (Text.ofDigits? digits).map QubitId.mk
  | _ => none

/-- The qubits of short texts joined by commas. -/
def ofJoined? (s : String) : Option (List QubitId) :=
  if s = "" then some [] else (Text.split ',' s).mapM ofText?

theorem toList_toText (id : QubitId) : id.toText.toList = 'q' :: (Text.decimal id.index).toList := by
  rw [toText, String.toList_append]
  rfl

theorem ofText?_toText (id : QubitId) : ofText? id.toText = some id := by
  rw [ofText?, toList_toText]
  simp [Text.ofDigits?_decimal]

theorem comma_not_mem_toText (id : QubitId) : ',' ∉ id.toText.toList := by
  rw [toList_toText, List.mem_cons]
  rintro (h | h)
  · cases h
  · have := Text.isDigit_of_mem_decimal h
    cases this

theorem comma_not_mem_texts {ids : List QubitId} : ∀ text ∈ ids.map toText, ',' ∉ text.toList := by
  intro text htext
  obtain ⟨id, -, rfl⟩ := List.mem_map.1 htext
  exact comma_not_mem_toText id

theorem split_joinText {ids : List QubitId} (hne : ids ≠ []) :
    Text.split ',' (joinText ids) = ids.map toText :=
  Text.split_intercalate rfl (by simpa using hne) comma_not_mem_texts

theorem joinText_ne_empty {ids : List QubitId} (hne : ids ≠ []) : joinText ids ≠ "" := by
  refine Text.intercalate_ne_empty rfl (by simpa using hne) comma_not_mem_texts fun hmem => ?_
  obtain ⟨id, -, htext⟩ := List.mem_map.1 hmem
  have hlist := toList_toText id
  rw [htext] at hlist
  cases hlist

theorem ofJoined?_joinText (ids : List QubitId) : ofJoined? (joinText ids) = some ids := by
  by_cases hne : ids = []
  · rw [hne]
    rfl
  · have heach : ∀ ids : List QubitId, (ids.map toText).mapM ofText? = some ids := by
      intro ids
      induction ids with
      | nil => rfl
      | cons id rest ih => simp [ofText?_toText, ih]
    rw [ofJoined?, if_neg (joinText_ne_empty hne), split_joinText hne, heach]

end QubitId

/-- The events as they are appended to a log at some times. -/
def AllocationEvent.timed (times : Nat → Timestamp) (events : List AllocationEvent) :
    Audit.EventHistory :=
  events.mapIdx fun i e => (times i, e.toEvent)

namespace Audit.Record

/-- The qubits listed in a record. -/
def qubits? (r : Record) : Option (List QubitId) := (r.details.get? "qubits").bind QubitId.ofJoined?

/-- The one qubit named in a record. -/
def qubit? (r : Record) : Option QubitId := (r.details.get? "qubit_id").bind QubitId.ofText?

/-- The change of owners that a record tells. -/
def transfer? (r : Record) : Option Transfer :=
  match r.eventType with
  | .qubitAllocated => r.qubits?.map fun ids => ⟨ids, none, r.tenant⟩
  | .qubitDeallocated | .qubitResetSkipped => r.qubits?.map fun ids => ⟨ids, r.tenant, none⟩
  | .qubitFaulty | .qubitMaintenance =>
    r.qubit?.map fun id => ⟨[id], r.details.get? "evicted", none⟩
  | _ => none

/-- The owners to which the records of a log lead. -/
def replay (records : List Record) : Ownership := .replay (records.filterMap transfer?)

/-- **A record tells the transfer that its event tells.** -/
theorem transfer?_ofEvent (position : Nat) (now : Timestamp) (e : AllocationEvent) :
    (ofEvent position (now, e.toEvent)).transfer? = e.transfer? := by
  simp only [transfer?, qubits?, qubit?, ofEvent, AllocationEvent.toEvent]
  cases e with
  | allocated tenant qubits =>
    simp [AllocationEvent.eventType, AllocationEvent.details, AllocationEvent.tenant?,
      AllocationEvent.transfer?, Details.ofList, QubitId.ofJoined?_joinText]
  | deallocated tenant qubits reset =>
    cases reset <;>
      simp [AllocationEvent.eventType, AllocationEvent.details, AllocationEvent.tenant?,
        AllocationEvent.transfer?, Details.ofList, QubitId.ofJoined?_joinText]
  | takenOffline qubit state evicted =>
    cases evicted <;> by_cases hstate : state = .faulty <;>
      simp [AllocationEvent.eventType, AllocationEvent.details, AllocationEvent.transfer?,
        Details.ofList, QubitId.ofText?_toText, hstate]
  | denied | ownershipViolation | restored => rfl

theorem transfers_timed (times : Nat → Timestamp) (events : List AllocationEvent) :
    (recordsOf (AllocationEvent.timed times events)).filterMap transfer? =
      events.filterMap AllocationEvent.transfer? := by
  induction events using List.reverseRecOn with
  | nil => rfl
  | append_singleton events e ih =>
    have hconcat : AllocationEvent.timed times (events ++ [e]) =
        AllocationEvent.timed times events ++ [(times events.length, e.toEvent)] := by
      simp [AllocationEvent.timed, List.mapIdx_append]
    rw [hconcat, recordsOf_concat, List.filterMap_append, List.filterMap_append, ih]
    simp only [List.filterMap_cons, transfer?_ofEvent]
    cases e.transfer? <;> rfl

end Audit.Record

/-! ## Runs of the allocator -/

/-- **The audit trail determines who owns which qubit.** After every run of the allocator, the
reported events lead to the owners in the pool, and with them to what every tenant holds and to what
its quota counts. A deallocation lists only qubits that the events before it assign to the tenant,
and an eviction names the owner that they assign. A log to which these events were appended, at any
times, has one record for each; its records tell the same transfers and lead to the same owners. -/
theorem ownership_replayed (config : PoolConfig) (calls : List (Timestamp × Allocator.Call)) :
    let r := Allocator.run config calls
    let events := Allocator.events r.trace
    let owners := AllocationEvent.replay events
    (∀ id, owners id = (r.state.find? id).bind Qubit.owner) ∧
      (∀ tenant, owners.held config.poolSize.toNat tenant = r.state.tenantQubits tenant ∧
        (owners.held config.poolSize.toNat tenant).length =
          (r.state.quota tenant).allocated) ∧
      (∀ before tenant qubits reset rest,
        events = before ++ .deallocated tenant qubits reset :: rest →
          ∀ id ∈ qubits, AllocationEvent.replay before id = some tenant) ∧
      (∀ before id state evicted rest,
        events = before ++ .takenOffline id state evicted :: rest →
          AllocationEvent.replay before id = evicted) ∧
      ∀ (H : Hash) (padding : Padding) (times : Nat → Timestamp),
        let log := Audit.Log.ofEvents H padding (AllocationEvent.timed times events)
        log.size = events.length ∧
          log.records.filterMap Audit.Record.transfer? =
            events.filterMap AllocationEvent.transfer? ∧
          Audit.Record.replay log.records = owners := by
  intro r events owners
  have htraced : Pool.Traced (Allocator.toldBy r.trace) r.state := Allocator.traced_run config calls
  have hwell : Pool.WellFormed config.poolSize.toNat r.state := Allocator.wellFormed_run config calls
  have htransfers : events.filterMap AllocationEvent.transfer? =
      (Allocator.toldBy r.trace).filterMap QubitFact.transfer? :=
    Allocator.transfers_run config calls
  have howners : owners = r.state.owner? := by
    rw [← htraced.owners, ← htransfers]
    rfl
  have hsource : ∀ before e t rest, events = before ++ e :: rest → e.transfer? = some t →
      ∀ id ∈ t.qubits, AllocationEvent.replay before id = t.source := by
    intro before e t rest heq he
    refine htraced.sources _ t (rest.filterMap AllocationEvent.transfer?) ?_
    rw [← htransfers, heq, List.filterMap_append, List.filterMap_cons, he]
  refine ⟨fun id => congrFun howners id, fun tenant => ?_, ?_, ?_, ?_⟩
  · rw [howners, hwell.tenantQubits_eq]
    exact ⟨rfl, hwell.length_tenantQubits tenant⟩
  · intro before tenant qubits reset rest heq
    exact hsource before _ _ rest heq rfl
  · intro before id state evicted rest heq
    exact hsource before _ _ rest heq rfl id (List.mem_singleton.2 rfl)
  · intro H padding times log
    have hholds := Audit.Log.holds_ofEvents H padding (AllocationEvent.timed times events)
    have hrecorded : log.records.filterMap Audit.Record.transfer? =
        events.filterMap AllocationEvent.transfer? := by
      rw [hholds.records]
      exact Audit.Record.transfers_timed times events
    refine ⟨?_, hrecorded, ?_⟩
    · rw [hholds.size_eq, AllocationEvent.timed, List.length_mapIdx]
    · rw [Audit.Record.replay, hrecorded]
      rfl

/-- An eviction names the owner that loses the qubit. -/
example :
    Allocator.events (Allocator.run ⟨2, 2, 10⟩
      [(1, .operate (.allocate "first" 2 [])), (2, .operate (.takeOffline ⟨1⟩ .faulty))]).trace =
        [.allocated "first" [⟨0⟩, ⟨1⟩], .takenOffline ⟨1⟩ .faulty (some "first")] := by
  decide +kernel

end QubitWarden
