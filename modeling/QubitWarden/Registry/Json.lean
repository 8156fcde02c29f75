import QubitWarden.Json.Writer
import QubitWarden.Registry.Basic

/-!
# The registry as JSON

The limits of an issuer and the counters of a registry.
-/

namespace QubitWarden

def TokenPolicy.toJson (p : TokenPolicy) : Json := .ofMembers [
  ("default_ttl_secs", .word64 p.defaultTtl),
  ("max_delegation_depth", .word32 p.maxDepth)]

def RegistryStatistics.toJson (s : RegistryStatistics) : Json := .ofMembers [
  ("issued", .natural s.issued),
  ("attenuated", .natural s.attenuated),
  ("active", .natural s.active),
  ("revoked", .natural s.revoked),
  ("collected", .natural s.collected)]

end QubitWarden
