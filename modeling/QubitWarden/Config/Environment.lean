import QubitWarden.Config.Basic
import QubitWarden.Text.Numeral

/-!
# Configuration from variables

Variables override the defaults one by one in a fixed order, and the first ill-formed one is
reported.

* `Config.ofEnvironment`: the configuration of the kernel.
* `Telemetry.ofEnvironment`: the settings of its log output.
-/

namespace QubitWarden

/-- The texts of variables. -/
abbrev Environment := String → Option String

/-- The truth value of a word, around which blanks and in which the case do not matter. -/
def switch? (word : String) : Option Bool :=
  if word ∈ ["1", "true", "yes", "on"] then some true
  else if word ∈ ["0", "false", "no", "off"] then some false
  else none

namespace Config

/-- The value of a switch. -/
def parseSwitch (name text : String) : Except ConfigError Bool :=
  let word := Text.lower (Text.trim text)
  match switch? word with
  | some b => .ok b
  | none => .error (.unreadableSetting (.notBoolean name word))

/-- The value of a number with white space around it. -/
def parseNumber {α : Type} (reader : String → Option α) (name text : String) :
    Except ConfigError α :=
  match reader (Text.trim text) with
  | some n => .ok n
  | none => .error (.unreadableSetting (.notNumber name text))

/-- The configuration with the value of a variable, if it is set. -/
def override {α : Type} (env : Environment) (name : String) (parse : String → Except ConfigError α)
    (set : α → Config → Config) (c : Config) : Except ConfigError Config :=
  match env name with
  | none => .ok c
  | some text => (parse text).map fun a => set a c

/-- The defaults with the variables that are set. -/
def ofEnvironment (env : Environment) : Except ConfigError Config := do
  let c ← override env "QK_SIGNING_KEY" (fun text => (parseKey text).mapError .invalidKey)
    (fun key c => { c with key := some key }) {}
  let c ← override env "QK_STRICT_MODE" (parseSwitch "QK_STRICT_MODE")
    (fun strict c => { c with mediator.strict := strict }) c
  let c ← override env "QK_POOL_SIZE" (parseNumber Text.word32? "QK_POOL_SIZE")
    (fun n c => { c with allocator.poolSize := n }) c
  let c ← override env "QK_DEFAULT_QUOTA" (parseNumber Text.word32? "QK_DEFAULT_QUOTA")
    (fun n c => { c with allocator.defaultMaxQubits := n }) c
  let c ← override env "QK_TOKEN_TTL_SECS" (parseNumber Text.word64? "QK_TOKEN_TTL_SECS")
    (fun n c => { c with tokens.defaultTtl := n }) c
  let c ← override env "QK_MAX_DELEGATION_DEPTH"
    (parseNumber Text.word32? "QK_MAX_DELEGATION_DEPTH")
    (fun n c => { c with tokens.maxDepth := n }) c
  override env "QK_MERKLE_PADDING"
    (fun text => (Padding.parse text).mapError fun word =>
      .unreadableSetting (.unknownPadding word))
    (fun padding c => { c with padding }) c

end Config

/-! ## Log output -/

/-- The settings of the log output. -/
structure Telemetry where
  serviceName : String := "quantum-kernel"
  logLevel : String := "info"
  jsonLogs : Bool := false
  deriving DecidableEq

namespace Telemetry

/-- Whether a flag is on. Case does not matter; no letter outside `A` to `Z` is a capital of one in
the words that are looked for. -/
def flag (text : String) : Bool := switch? (Text.lower (Text.trim text)) = some true

/-- The settings from variables. Inside a container logs are in JSON unless a flag says
otherwise. -/
def ofEnvironment (env : Environment) : Telemetry where
  serviceName := (env "QK_SERVICE_NAME").getD "quantum-kernel"
  logLevel := ((env "QK_LOG_LEVEL").orElse fun _ => env "RUST_LOG").getD "info"
  jsonLogs :=
    match env "QK_JSON_LOGS" with
    | some text => flag text
    | none => (env "KUBERNETES_SERVICE_HOST").isSome || (env "DOCKER_CONTAINER").isSome

end Telemetry

/-- Why the log output or the metrics cannot be set up. -/
inductive TelemetryError where
  | alreadyInitialized
  | invalidFilter (text : String)
  | metricsInit (text : String)
  deriving DecidableEq

def TelemetryError.message : TelemetryError → String
  | .alreadyInitialized => "A global tracing subscriber is already installed"
  | .invalidFilter text => "Invalid log filter: " ++ text
  | .metricsInit text => "Failed to initialize Prometheus metrics: " ++ text

end QubitWarden
