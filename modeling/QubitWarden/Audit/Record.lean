import QubitWarden.Audit.Details
import QubitWarden.Audit.Event
import QubitWarden.Json.Printer
import QubitWarden.Json.Reader
import QubitWarden.Token.Basic

/-!
# Audit records

A record is written as compact JSON with its fields in a fixed order and its details in the order of
their keys, so each record has one written form.

* `Record.toBytes`: the canonical bytes.
* `Record.ofBytes?`: the record of any JSON text with the right fields: in any order, each known
  field at most once, unknown fields ignored, or as an array of the five values.
-/

namespace QubitWarden.Audit

/-- One entry of the audit log. -/
structure Record where
  eventType : EventType
  /-- The tenant concerned; none for events of the whole kernel. -/
  tenant : Option Tenant
  timestamp : Timestamp
  details : Details
  /-- The position in the log, which is also the index of the leaf. -/
  sequence : UInt64
  deriving DecidableEq

namespace Record

def detailsJson (d : Details) : Json :=
  .ofMembers (d.entries.map fun (key, text) => (key, Json.text text))

def toJson (r : Record) : Json := .ofMembers [
  ("event_type", .text r.eventType.name),
  ("tenant_id", .ofText? r.tenant),
  ("timestamp", .natural r.timestamp.toNat),
  ("details", detailsJson r.details),
  ("sequence_number", .natural r.sequence.toNat)]

/-- The canonical text of a record. -/
def toText (r : Record) : String := r.toJson.render

/-- The canonical bytes of a record. -/
def toBytes (r : Record) : Bytes := Utf8.encode r.toText

/-! ## Reading -/

/-- The details of an object whose values are texts; the last value of a key counts. -/
def detailsOfJson? (value : Json) : Option Details :=
  value.members?.bind fun members =>
  (members.mapM fun (member : String × Json) =>
    member.2.text?.map fun text => (member.1, text)).map Details.ofList

/-- The record of the values of its fields, in order. -/
def ofValues? (eventType tenant timestamp details sequence : Json) : Option Record := do
  return {
    eventType := ← eventType.variant?.bind EventType.ofName?
    tenant := ← tenant.optional? Json.text?
    timestamp := ← timestamp.word64?
    details := ← detailsOfJson? details
    sequence := ← sequence.word64? }

/-- The record of an object or an array of its fields. -/
def ofJson? (value : Json) : Option Record :=
  match value with
  | .array [eventType, tenant, timestamp, details, sequence] =>
    ofValues? eventType tenant timestamp details sequence
  | _ => value.members?.bind fun members => do
    ofValues?
      (← Json.required? "event_type" members)
      (← Json.nullable? "tenant_id" members)
      (← Json.required? "timestamp" members)
      (← Json.required? "details" members)
      (← Json.required? "sequence_number" members)

/-- The record that a byte string stands for. -/
def ofBytes? (bytes : Bytes) : Option Record := (Json.parse? bytes).bind ofJson?

end Record

end QubitWarden.Audit
