import QubitWarden.Audit.Error
import QubitWarden.Audit.Record
import QubitWarden.Merkle.Accumulator

/-!
# The tamper-evident log

Each appended record is kept together with its canonical bytes, and the bytes go into a hash tree.
The bytes of an entry verify as long as they have the hash of the leaf that was appended.

* `Log.append`: one more record, numbered by its position.
* `Log.proof`: the inclusion proof of an entry.
* `Log.verifyEntry`, `Log.verifyIntegrity`, `Log.detectTampering`: whether stored bytes still are
  what was appended.
* `Log.tamper`: an entry with its stored bytes overwritten, which the tree does not follow.
-/

namespace QubitWarden.Audit

/-- What is to be recorded about an event. -/
structure Event where
  eventType : EventType
  tenant : Option Tenant
  details : Details
  deriving DecidableEq

/-- A record with its stored bytes. -/
structure Entry where
  record : Record
  bytes : Bytes
  deriving DecidableEq

/-- An append-only log over a hash tree. -/
structure Log where
  tree : Merkle.Accumulator
  entries : List Entry
  deriving DecidableEq

namespace Log

def empty (padding : Padding) : Log := ⟨.empty padding, []⟩

instance : Inhabited Log := ⟨empty default⟩

def size (log : Log) : Nat := log.entries.length

def padding (log : Log) : Padding := log.tree.padding

def root (log : Log) : Digest := log.tree.root

def records (log : Log) : List Record := log.entries.map Entry.record

/-- The record that an event would become at the end of the log. -/
def nextRecord (log : Log) (now : Timestamp) (event : Event) : Record where
  eventType := event.eventType
  tenant := event.tenant
  timestamp := now
  details := event.details
  sequence := UInt64.ofNat log.size

def append (H : Hash) (log : Log) (now : Timestamp) (event : Event) : Log :=
  let record := log.nextRecord now event
  let bytes := record.toBytes
  { tree := log.tree.append H bytes, entries := log.entries ++ [⟨record, bytes⟩] }

def entry (log : Log) (index : Nat) : Except AuditError Entry :=
  match log.entries[index]? with
  | some e => .ok e
  | none => .error (.indexOutOfRange index log.size)

/-- The proof for the leaf at `index`, whether or not the log is empty. -/
def leafProof (log : Log) (index : Nat) : Except AuditError Merkle.InclusionProof :=
  match log.tree.proof? index with
  | some p => .ok p
  | none => .error (.indexOutOfRange index log.tree.size)

def proof (log : Log) (index : Nat) : Except AuditError Merkle.InclusionProof :=
  if log.entries.isEmpty then .error .emptyLog else log.leafProof index

/-- Whether a proof shows that `bytes` is an entry of the log as it is now. -/
def verifyProof (H : Hash) (log : Log) (p : Merkle.InclusionProof) (bytes : Bytes) : Bool :=
  log.tree.verify H p bytes

/-- Whether the stored bytes of the entry at `index` are the ones in the tree. -/
def verifyEntry (H : Hash) (log : Log) (index : Nat) : Except AuditError Bool := do
  let e ← log.entry index
  let p ← log.leafProof index
  return log.tree.verify H p e.bytes

/-- Whether all of these entries verify; stops at the first that does not. -/
def verifyAll (H : Hash) (log : Log) : List Nat → Except AuditError Bool
  | [] => .ok true
  | index :: rest =>
    match log.verifyEntry H index with
    | .error e => .error e
    | .ok false => .ok false
    | .ok true => verifyAll H log rest

/-- Whether the stored bytes of the entries from `start` up to but not including `stop` are the ones
in the tree. -/
def verifyIntegrity (H : Hash) (log : Log) (start stop : Nat) : Except AuditError Bool :=
  if stop ≤ start ∨ log.size < stop then .error (.invalidRange start stop log.size)
  else log.verifyAll H (List.range' start (stop - start))

/-- The first entry whose stored bytes are not the ones in the tree. -/
def detectTampering (H : Hash) (log : Log) : Option Nat :=
  (List.range log.size).find? fun index =>
    match log.verifyEntry H index with
    | .ok true => false
    | _ => true

/-- The log with the stored bytes of one entry changed, and the tree as it was. -/
def tamper (log : Log) (index : Nat) (change : Bytes → Bytes) : Except AuditError Log :=
  match log.entry index with
  | .error e => .error e
  | .ok e => .ok { log with entries := log.entries.set index { e with bytes := change e.bytes } }

end Log

end QubitWarden.Audit
