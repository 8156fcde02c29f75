import QubitWarden.Association

/-!
# Capabilities

The closed vocabulary of what a token may allow. Each capability has a wire name and a place in the
canonical order, which is the order of the constructors.

* `mem_all`: every capability is listed in `all`.
* `ofName?_name`: the wire name of a capability reads back.
* `name_of_ofName?`: only wire names are read.
-/

namespace QubitWarden

/-- One category of protected operation. -/
inductive Capability where
  | allocation
  | reset
  | measurement
  | compute
  | link
  | send
  | receive
  | teleport
  | magicState
  | admin
  | delegate
  | debug
  deriving DecidableEq, Repr, Inhabited

namespace Capability

def all : List Capability :=
  [.allocation, .reset, .measurement, .compute, .link, .send, .receive, .teleport, .magicState,
    .admin, .delegate, .debug]

/-- The wire name. -/
def name : Capability → String
  | .allocation => "allocation"
  | .reset => "reset"
  | .measurement => "measurement"
  | .compute => "compute"
  | .link => "link"
  | .send => "send"
  | .receive => "receive"
  | .teleport => "teleport"
  | .magicState => "magic_state"
  | .admin => "admin"
  | .delegate => "delegate"
  | .debug => "debug"

def ofName? (s : String) : Option Capability := all.find? fun c => c.name = s

/-- The place in the canonical order, counted from zero. -/
def index (c : Capability) : Nat := all.idxOf c

@[simp] theorem mem_all (c : Capability) : c ∈ all := by cases c <;> decide

theorem name_injective {a b : Capability} (h : a.name = b.name) : a = b := by
  revert h; cases a <;> cases b <;> decide

theorem name_of_ofName? {s : String} {c : Capability} (h : ofName? s = some c) : c.name = s := by
  simpa using List.find?_some h

@[simp] theorem ofName?_name (c : Capability) : ofName? c.name = some c :=
  Association.find?_of_injective name_injective (mem_all c)

end Capability

end QubitWarden
