import QubitWarden.Audit.Log
import QubitWarden.Proofs.Merkle.Rebuild

/-!
# The history of a log

What a log holds is determined by the events that were appended to it.

* `recordsOf`, `bytesOf`: the records of a history of events, numbered from zero, and their bytes.
* `Holds`: the tree and the records of a log are those of a history. An append extends the history
  and an overwriting of stored bytes leaves it as it is (`holds_append`, `holds_tamper`).
* `holds_ofEvents`, `bytes_ofEvents`, `entries_ofEvents`: a log that nothing was overwritten in has
  the bytes of its history, with entries numbered by their place.
* `grown_eq_rebuilt`: its tree is the one built anew from these bytes.
-/

namespace QubitWarden.Audit

open Merkle

/-- Events with the times at which they were appended, oldest first. -/
abbrev EventHistory := List (Timestamp × Event)

/-- The record of an event at a position. -/
def Record.ofEvent (position : Nat) (e : Timestamp × Event) : Record where
  eventType := e.2.eventType
  tenant := e.2.tenant
  timestamp := e.1
  details := e.2.details
  sequence := UInt64.ofNat position

/-- The records of a history. -/
def recordsOf (events : EventHistory) : List Record := events.mapIdx Record.ofEvent

/-- The bytes of the records of a history. -/
def bytesOf (events : EventHistory) : List Bytes := (recordsOf events).map Record.toBytes

@[simp] theorem length_recordsOf (events : EventHistory) :
    (recordsOf events).length = events.length := List.length_mapIdx

@[simp] theorem length_bytesOf (events : EventHistory) :
    (bytesOf events).length = events.length := by simp [bytesOf]

theorem recordsOf_concat (events : EventHistory) (e : Timestamp × Event) :
    recordsOf (events ++ [e]) = recordsOf events ++ [.ofEvent events.length e] := by
  simp [recordsOf, List.mapIdx_append]

theorem bytesOf_concat (events : EventHistory) (e : Timestamp × Event) :
    bytesOf (events ++ [e]) = bytesOf events ++ [(Record.ofEvent events.length e).toBytes] := by
  rw [bytesOf, recordsOf_concat, List.map_append]
  rfl

namespace Log

/-- The stored bytes in order. -/
def bytes (log : Log) : List Bytes := log.entries.map Entry.bytes

@[simp] theorem length_bytes (log : Log) : log.bytes.length = log.size := List.length_map _

theorem map_bytes_entry (log : Log) (i : Nat) :
    (log.entry i).map Entry.bytes =
      match log.bytes[i]? with
      | some bytes => .ok bytes
      | none => .error (.indexOutOfRange i log.bytes.length) := by
  rw [bytes, List.getElem?_map, List.length_map, entry]
  cases log.entries[i]? <;> rfl

/-- The tree and the records are those of a history; the stored bytes may be others. -/
structure Holds (H : Hash) (padding : Padding) (events : EventHistory) (log : Log) : Prop where
  tree : log.tree = .ofRecords H padding (bytesOf events)
  records : log.records = recordsOf events

section
variable {H : Hash} {padding : Padding} {events : EventHistory} {log : Log}

theorem Holds.size_eq (h : Holds H padding events log) : log.size = events.length := by
  rw [← length_recordsOf events, ← h.records, Log.records, List.length_map]
  rfl

theorem holds_empty (H : Hash) (padding : Padding) : Holds H padding [] (empty padding) := ⟨rfl, rfl⟩

theorem Holds.nextRecord_eq (h : Holds H padding events log) (now : Timestamp) (event : Event) :
    log.nextRecord now event = .ofEvent events.length (now, event) := by
  rw [nextRecord, h.size_eq]
  rfl

theorem holds_append (h : Holds H padding events log) (now : Timestamp) (event : Event) :
    Holds H padding (events ++ [(now, event)]) (log.append H now event) := by
  constructor
  · rw [bytesOf_concat, ofRecords_concat, ← h.tree, ← h.nextRecord_eq]
    rfl
  · rw [recordsOf_concat, ← h.records, ← h.nextRecord_eq]
    simp [Log.records, append]

theorem bytes_append (h : Holds H padding events log) (now : Timestamp) (event : Event) :
    (log.append H now event).bytes =
      log.bytes ++ [(Record.ofEvent events.length (now, event)).toBytes] := by
  rw [← h.nextRecord_eq]
  simp [bytes, append]

theorem holds_tamper (h : Holds H padding events log) {index : Nat} {change : Bytes → Bytes}
    {after : Log} (hok : log.tamper index change = .ok after) : Holds H padding events after := by
  unfold tamper at hok
  split at hok
  · cases hok
  next e he =>
    cases hok
    refine ⟨h.tree, ?_⟩
    have hentry : log.entries[index]? = some e := by
      unfold entry at he
      split at he
      next e' he' => rw [he', ← Except.ok.inj he]
      next => cases he
    rw [← h.records, records, records, List.map_set]
    refine List.ext_getElem? fun i => ?_
    rw [List.getElem?_set]
    split
    next hi =>
      subst hi
      obtain ⟨hlt, rfl⟩ := List.getElem?_eq_some_iff.1 hentry
      simp [hlt]
    next => rfl

end

/-! ## Logs of a history -/

/-- The log of a history. -/
def ofEvents (H : Hash) (padding : Padding) (events : EventHistory) : Log :=
  events.foldl (fun log e => log.append H e.1 e.2) (empty padding)

section
variable (H : Hash) (padding : Padding)

theorem ofEvents_concat (events : EventHistory) (now : Timestamp) (event : Event) :
    ofEvents H padding (events ++ [(now, event)]) =
      (ofEvents H padding events).append H now event := by
  simp only [ofEvents, List.foldl_append, List.foldl_cons, List.foldl_nil]

theorem holds_ofEvents (events : EventHistory) :
    Holds H padding events (ofEvents H padding events) := by
  induction events using List.reverseRecOn with
  | nil => exact holds_empty H padding
  | append_singleton events e ih =>
    rw [ofEvents_concat]
    exact holds_append ih e.1 e.2

@[simp] theorem bytes_ofEvents (events : EventHistory) :
    (ofEvents H padding events).bytes = bytesOf events := by
  induction events using List.reverseRecOn with
  | nil => rfl
  | append_singleton events e ih =>
    rw [ofEvents_concat, bytes_append (holds_ofEvents H padding events), ih, bytesOf_concat]

theorem entries_ofEvents (events : EventHistory) :
    (ofEvents H padding events).entries = (recordsOf events).map fun r => ⟨r, r.toBytes⟩ := by
  induction events using List.reverseRecOn with
  | nil => rfl
  | append_singleton events e ih =>
    rw [ofEvents_concat, append, (holds_ofEvents H padding events).nextRecord_eq, ih,
      recordsOf_concat, List.map_append]
    rfl

/-- Entries are numbered by their place, and their bytes are those of their records. -/
theorem of_getElem?_ofEvents {H : Hash} {padding : Padding} {events : EventHistory} {i : Nat}
    {entry : Entry} (h : (ofEvents H padding events).entries[i]? = some entry) :
    entry.record.sequence = UInt64.ofNat i ∧ entry.bytes = entry.record.toBytes := by
  rw [entries_ofEvents, List.getElem?_map, recordsOf, List.getElem?_mapIdx] at h
  obtain ⟨record, hrecord, rfl⟩ := Option.map_eq_some_iff.1 h
  obtain ⟨event, -, rfl⟩ := Option.map_eq_some_iff.1 hrecord
  exact ⟨rfl, rfl⟩

theorem size_ofEvents (events : EventHistory) : (ofEvents H padding events).size = events.length :=
  (holds_ofEvents H padding events).size_eq

theorem tree_ofEvents (events : EventHistory) :
    (ofEvents H padding events).tree = .ofRecords H padding (ofEvents H padding events).bytes := by
  rw [bytes_ofEvents, (holds_ofEvents H padding events).tree]

end

end Log

/-- **A tree that grew leaf by leaf is the tree built anew.** Each level has half as many nodes as
the one below, rounded up, each the digest of its two children, and the last has no pair left; an
append stays in the tree and its root is that of a tree built from the bottom. So the stored bytes
of a log give its root again. -/
theorem grown_eq_rebuilt (H : Hash) (padding : Padding) (records : List Bytes) :
    let acc := Accumulator.ofRecords H padding records
    acc.leaves = records.map (leafHash H) ∧
      (∀ k lower upper, acc.levels[k]? = some lower → acc.levels[k + 1]? = some upper →
        upper.length = (lower.length + 1) / 2 ∧
          ∀ i node, upper[i]? = some node → ∃ left, lower[2 * i]? = some left ∧
            node = nodeHash H left (lower[2 * i + 1]?.getD
              (match padding with | .duplicateLast => left | .sentinel => sentinel))) ∧
      (∃ top, acc.levels.getLast? = some top ∧ top.length ≤ 1) ∧
      (∀ record, acc.append? H record = some (acc.append H record) ∧
        (acc.append H record).root =
          rebuild H padding ((records ++ [record]).map (leafHash H))) ∧
      acc.root = rebuild H padding (records.map (leafHash H)) ∧
      (rebuild H padding [] = sentinel ∧ ∀ leaf, rebuild H padding [leaf] = leaf) ∧
      ∀ events, let log := Log.ofEvents H padding events
        (Accumulator.ofRecords H padding log.bytes).root = log.root := by
  intro acc
  have hb := built_ofRecords H padding records
  have hlevels : acc.levels = records.map (leafHash H) :: acc.above := by
    rw [Accumulator.levels, leaves_ofRecords]
  refine ⟨leaves_ofRecords H padding records, fun k lower upper hlower hupper => ?_, ?_,
    fun record => ⟨append?_ofRecords records record, ?_⟩, root_ofRecords records, ?_,
    fun events => ?_⟩
  · rw [hlevels] at hlower hupper
    obtain ⟨-, rfl⟩ := hb.next hlower hupper
    refine ⟨length_nextLevel H padding lower, fun i node hnode => ?_⟩
    obtain ⟨left, hleft, hchildren⟩ := children_of_nextLevel hnode
    refine ⟨left, hleft, hchildren.trans ?_⟩
    cases padding <;> rfl
  · rw [hlevels, List.getLast?_cons]
    exact ⟨_, rfl, hb.length_top⟩
  · rw [← ofRecords_concat, root_ofRecords]
  · exact ⟨rebuild_of_length_le_one (Nat.zero_le 1),
      fun leaf => rebuild_of_length_le_one (Nat.le_refl 1)⟩
  · exact congrArg Accumulator.root (Log.tree_ofEvents H padding events).symm

end QubitWarden.Audit
