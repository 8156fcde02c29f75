import QubitWarden.Json.Writer
import QubitWarden.Mediation.Mediator
import QubitWarden.Token.Json

/-!
# Mediation as JSON

Decisions, the counters of a mediator and its settings. Sets of capabilities are arrays of wire
names in canonical order.
-/

namespace QubitWarden

def Decision.toJson (d : Decision) : Json := .ofMembers [
  ("allowed", .bool d.allowed),
  ("operation", .text d.operation),
  ("required", d.required.toJson),
  ("missing", d.missing.toJson),
  ("reason", .text d.reason.name),
  ("timestamp", .word64 d.timestamp),
  ("token_id", .text d.tokenId.toText),
  ("tenant_id", .text d.tenant)]

def Mediator.countersToJson (m : Mediator) : Json := .ofMembers [
  ("checks_performed", .natural m.checks),
  ("allowed", .natural m.allowed),
  ("denied", .natural m.denied),
  ("denials_by_reason", .ofTally Reason.name m.denials)]

def MediatorConfig.toJson (c : MediatorConfig) : Json := .ofMembers [
  ("strict_mode", .bool c.strict),
  ("max_decision_history", .natural c.maxHistory)]

end QubitWarden
