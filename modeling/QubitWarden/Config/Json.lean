import QubitWarden.Config.Basic
import QubitWarden.Json.Lenient
import QubitWarden.Mediation.Json
import QubitWarden.Qubit.Json
import QubitWarden.Registry.Json

/-!
# The configuration as JSON

One object with the sections of the configuration file. The key stands in it only where there is
one.

* `Config.toJson`: all settings.
* `Config.ofJson`: the settings of an object; what is left out has its default.
-/

namespace QubitWarden.Config

/-- The security settings, with the key in hexadecimal. -/
def securityToJson (c : Config) : Json :=
  .ofMembers (match c.key with
    | some key => [("signing_key", .ofBlock key.secret)]
    | none => [])

def toJson (c : Config) : Json := .ofMembers [
  ("tokens", c.tokens.toJson),
  ("mediator", c.mediator.toJson),
  ("audit", .ofMembers [("padding", .text c.padding.name)]),
  ("allocator", c.allocator.toJson),
  ("security", c.securityToJson)]

open Json.Lenient in
/-- The settings of an object; a setting that is left out has its default. -/
def ofJson (j : Json) : Config :=
  let d : Config := {}
  let tokens := field j "tokens"
  let mediator := field j "mediator"
  let allocator := field j "allocator"
  { tokens := {
      defaultTtl := (word64? tokens "default_ttl_secs").getD d.tokens.defaultTtl
      maxDepth := (word32? tokens "max_delegation_depth").getD d.tokens.maxDepth }
    mediator := {
      strict := (flag? mediator "strict_mode").getD d.mediator.strict
      maxHistory := (natural? mediator "max_decision_history").getD d.mediator.maxHistory }
    padding := ((text? (field j "audit") "padding").bind Padding.ofName?).getD d.padding
    allocator := {
      poolSize := (word32? allocator "pool_size").getD d.allocator.poolSize
      defaultMaxQubits :=
        (word32? allocator "default_max_qubits").getD d.allocator.defaultMaxQubits
      maxHistory := (natural? allocator "max_history").getD d.allocator.maxHistory }
    key := (text? (field j "security") "signing_key").bind fun s => (parseKey s).toOption }

end QubitWarden.Config
