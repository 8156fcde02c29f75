import QubitWarden.Audit.Query
import QubitWarden.Json.Writer

/-!
# The summary of a log as JSON

Counts by event type and by tenant, the first and the last timestamp, and the root.
-/

namespace QubitWarden.Audit

/-- The summary; timestamps of an empty log are null. -/
def Statistics.toJson (s : Statistics) : Json := .ofMembers [
  ("entries", .natural s.entries),
  ("by_event_type", .ofTally EventType.name s.byEventType),
  ("by_tenant", .ofTally id s.byTenant),
  ("first_timestamp", .ofOption Json.word64 s.firstTimestamp),
  ("last_timestamp", .ofOption Json.word64 s.lastTimestamp),
  ("root_hash", .ofBlock s.root),
  ("padding", .text s.padding.name)]

end QubitWarden.Audit
