import QubitWarden.Digest.Hmac
import QubitWarden.Mediation.Mediator
import QubitWarden.Qubit.Pool
import QubitWarden.Text.Hex

/-!
# Configuration

The settings of all parts of the kernel with their defaults, and what is wrong with settings.

* `Config.parseKey`: a signing key from its digits.
* `Config.validate`: what every kernel checks; `Config.validateForProduction` also wants a key that
  is not all zeros.
-/

namespace QubitWarden

/-- Why a signing key is not accepted. -/
inductive KeyFault where
  | digits (cause : Hex.Error)
  | width (length : Nat)
  | described (text : String)
  deriving DecidableEq

def KeyFault.message : KeyFault → String
  | .digits cause => cause.message
  | .width length => "expected 32 bytes, got " ++ toString length
  | .described text => text

/-- Why a setting cannot be read. -/
inductive SettingFault where
  | notBoolean (name word : String)
  | notNumber (name text : String)
  | unknownPadding (word : String)
  | described (text : String)
  deriving DecidableEq

def SettingFault.message : SettingFault → String
  | .notBoolean name word => name ++ ": not a boolean: '" ++ word ++ "'"
  | .notNumber name text => name ++ ": not a number: '" ++ text ++ "'"
  | .unknownPadding word => Padding.unknownMessage word
  | .described text => text

/-- What is wrong with a configuration. -/
inductive ConfigError where
  | insecureSigningKey
  | invalidKey (fault : KeyFault)
  | unreadableSetting (fault : SettingFault)
  /-- The text of a file is no configuration. -/
  | unreadableDocument
  | unreadableFile (text : String)
  | invalid (text : String)
  deriving DecidableEq

def ConfigError.message : ConfigError → String
  | .insecureSigningKey =>
    "SECURITY VIOLATION: signing key is missing or all zeros. " ++
      "Set QK_SIGNING_KEY or [security] signing_key."
  | .invalidKey fault => "Invalid signing key: " ++ fault.message
  | .unreadableSetting fault => "Failed to parse configuration: " ++ fault.message
  | .unreadableDocument => "Failed to parse configuration"
  | .unreadableFile text => "Failed to read configuration file: " ++ text
  | .invalid text => "Invalid configuration: " ++ text

/-- The settings of the kernel. -/
structure Config where
  tokens : TokenPolicy := {}
  mediator : MediatorConfig := {}
  padding : Padding := .duplicateLast
  allocator : PoolConfig := {}
  key : Option Key := none
  deriving DecidableEq

namespace Config

instance : Inhabited Config := ⟨{}⟩

/-- The key written in hexadecimal, with white space around it. -/
def parseKey (text : String) : Except KeyFault Key :=
  match Hex.decode (Text.trim text) with
  | .error cause => .error (.digits cause)
  | .ok bytes =>
    match Block.ofBytes? 32 bytes with
    | some secret => .ok ⟨secret⟩
    | none => .error (.width bytes.length)

/-- The checks of every kernel. -/
def validate (c : Config) : Except ConfigError Unit :=
  if c.allocator.poolSize = 0 then .error (.invalid "allocator.pool_size must be positive")
  else if c.tokens.maxDepth = 0 then
    .error (.invalid "tokens.max_delegation_depth must be positive")
  else if c.tokens.defaultTtl = 0 then .error (.invalid "tokens.default_ttl_secs must be positive")
  else .ok ()

/-- The checks of a kernel in production. -/
def validateForProduction (c : Config) : Except ConfigError Unit :=
  match c.validate with
  | .error e => .error e
  | .ok () =>
    match c.key with
    | some key => if key.secret = Block.zero 32 then .error .insecureSigningKey else .ok ()
    | none => .error .insecureSigningKey

/-- How the security settings are shown: never with the key. -/
def securityShown (c : Config) : String :=
  let key := match c.key with
    | some _ => "Some(\"<redacted>\")"
    | none => "None"
  "SecurityConfig \x7b signing_key: " ++ key ++ " \x7d"

end Config

end QubitWarden
