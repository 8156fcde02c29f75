import QubitWarden.Config.Basic
import QubitWarden.Toml.Document

/-!
# Configuration from a file

A TOML document with the sections `tokens`, `mediator`, `audit`, `allocator` and `security`. A
section is a table, or an array of its settings in order; what is left out has its default, and
what is not known is passed over.

* `Config.ofToml`: the configuration of a text.
* `Config.load`: the configuration of a file.
-/

namespace QubitWarden.Config

/-- The settings of a section by name and position. -/
inductive Section where
  | named (entries : Toml.Entries)
  | positional (items : List Toml)

/-- The section that a value stands for. A date counts as a table without known settings. -/
def Section.ofToml? : Toml → Option Section
  | .table _ entries => some (.named entries)
  | .array items => some (.positional items)
  | .tables elements => some (.positional (elements.map (.table .header)))
  | .datetime => some (.named [])
  | _ => none

/-- The section of a document; one that is left out has no settings. -/
def Section.find? (name : String) (entries : Toml.Entries) : Option Section :=
  match Toml.get? name entries with
  | none => some (.named [])
  | some value => Section.ofToml? value

/-- The value of a setting, or its default when it is left out. -/
def Section.read? {α : Type} (s : Section) (name : String) (position : Nat) (default : α)
    (reader : Toml → Option α) : Option α :=
  let found := match s with
    | .named entries => Toml.get? name entries
    | .positional items => items[position]?
  match found with
  | none => some default
  | some value => reader value

/-- The padding of a canonical name, which may also be the only key of a table with nothing
in it. -/
def padding? : Toml → Option Padding
  | .string name => Padding.ofName? name
  | .table _ [(name, .table _ [])] => Padding.ofName? name
  | .table _ [(name, .array [])] => Padding.ofName? name
  | _ => none

/-- A key written in hexadecimal. -/
def key? : Toml → Option (Option Key)
  | .string text => (parseKey text).toOption.map some
  | _ => none

def ofEntries? (entries : Toml.Entries) : Option Config := do
  let tokens ← Section.find? "tokens" entries
  let mediator ← Section.find? "mediator" entries
  let audit ← Section.find? "audit" entries
  let allocator ← Section.find? "allocator" entries
  let security ← Section.find? "security" entries
  let d : Config := {}
  return {
    tokens := {
      defaultTtl := ← tokens.read? "default_ttl_secs" 0 d.tokens.defaultTtl Toml.word64?
      maxDepth := ← tokens.read? "max_delegation_depth" 1 d.tokens.maxDepth Toml.word32? }
    mediator := {
      strict := ← mediator.read? "strict_mode" 0 d.mediator.strict Toml.bool?
      maxHistory :=
        ← mediator.read? "max_decision_history" 1 d.mediator.maxHistory
          (Toml.natural? UInt64.size) }
    padding := ← audit.read? "padding" 0 d.padding padding?
    allocator := {
      poolSize := ← allocator.read? "pool_size" 0 d.allocator.poolSize Toml.word32?
      defaultMaxQubits :=
        ← allocator.read? "default_max_qubits" 1 d.allocator.defaultMaxQubits Toml.word32?
      maxHistory :=
        ← allocator.read? "max_history" 2 d.allocator.maxHistory (Toml.natural? UInt64.size) }
    key := ← security.read? "signing_key" 0 none key? }

def ofToml (text : String) : Except ConfigError Config :=
  match (Toml.document? text).bind ofEntries? with
  | some c => .ok c
  | none => .error .unreadableDocument

/-- The configuration of a file with these contents, or the reason why it cannot be read. -/
def load (path : String) (contents : Except String String) : Except ConfigError Config :=
  match contents with
  | .error reason => .error (.unreadableFile (path ++ ": " ++ reason))
  | .ok text => ofToml text

end QubitWarden.Config
