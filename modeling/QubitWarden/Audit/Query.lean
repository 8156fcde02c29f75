import QubitWarden.Audit.Log
import QubitWarden.History
import QubitWarden.Tally

/-!
# Questions to the log

* `Query.matches`: a record matches a query if it passes every filter that is set.
* `Log.events`: the matching records in order, with a limit only the last of them.
* `Log.statistics`: how many records there are of each event type and of each tenant.
-/

namespace QubitWarden.Audit

/-- A filter for records. -/
structure Query where
  tenant : Option Tenant := none
  eventType : Option EventType := none
  /-- The first and the last timestamp that match. -/
  range : Option (Timestamp × Timestamp) := none
  limit : Option Nat := none
  deriving DecidableEq

/-- Whether a record passes the filters; a record without tenant passes no filter for a tenant. -/
def Query.matches (q : Query) (r : Record) : Bool :=
  (q.tenant.all fun t => r.tenant = some t) &&
  (q.eventType.all fun e => r.eventType = e) &&
  (q.range.all fun (start, stop) => start ≤ r.timestamp && r.timestamp ≤ stop)

/-- A summary of the log. -/
structure Statistics where
  entries : Nat
  byEventType : Tally EventType
  byTenant : Tally Tenant
  firstTimestamp : Option Timestamp
  lastTimestamp : Option Timestamp
  root : Digest
  padding : Padding
  deriving DecidableEq

namespace Log

/-- The records that match a query, in order; with a limit, only the last of them. -/
def events (log : Log) (q : Query) : List Record :=
  let found := log.records.filter q.matches
  match q.limit with
  | none => found
  | some limit => lastOf limit found

def statistics (log : Log) : Statistics where
  entries := log.size
  byEventType := .ofList (log.records.map Record.eventType)
  byTenant := .ofList (log.records.filterMap Record.tenant)
  firstTimestamp := log.records.head?.map Record.timestamp
  lastTimestamp := log.records.getLast?.map Record.timestamp
  root := log.root
  padding := log.padding

end Log

end QubitWarden.Audit
