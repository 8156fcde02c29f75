import QubitWarden.Capability.Set

/-!
# Requirements of operations

Which capabilities a token needs for an operation. Measuring needs `measurement` in any basis, gates
need `compute`, and sending and receiving are rights of their own.

* `Requirements.required?`: the set for an operation that is in the table.
* `Requirements.standard`: the operations of the kernel.
-/

namespace QubitWarden

/-- The name of a protected operation. -/
abbrev Operation := String

/-- A table of operations, each at most once, with the capabilities they need. -/
structure Requirements where
  entries : List (Operation × CapabilitySet)
  deriving DecidableEq

namespace Requirements

def empty : Requirements := ⟨[]⟩

/-- The capabilities that an operation needs, if it is in the table. -/
def required? (table : Requirements) (operation : Operation) : Option CapabilitySet :=
  table.entries.lookup operation

/-- The entries with one operation set. -/
def setEntry (operation : Operation) (needed : CapabilitySet) :
    List (Operation × CapabilitySet) → List (Operation × CapabilitySet)
  | [] => [(operation, needed)]
  | (op, s) :: rest =>
    if op = operation then (op, needed) :: rest else (op, s) :: setEntry operation needed rest

/-- The table with one operation added or replaced. -/
def set (table : Requirements) (operation : Operation) (needed : CapabilitySet) : Requirements :=
  ⟨setEntry operation needed table.entries⟩

def operations (table : Requirements) : List Operation := table.entries.map (·.1)

def size (table : Requirements) : Nat := table.entries.length

/-- The operations of the kernel by the one capability that each needs. -/
def standardGroups : List (Capability × List Operation) := [
  (.measurement, ["measure", "measure_x", "measure_y", "measure_z"]),
  (.compute, ["apply_h", "apply_x", "apply_y", "apply_z", "apply_s", "apply_t", "apply_rx",
    "apply_ry", "apply_rz", "apply_cnot", "apply_cz", "apply_swap", "apply_toffoli"]),
  (.link, ["open_channel", "close_channel", "create_entanglement"]),
  (.magicState, ["inject_magic_state", "distill_magic_state"]),
  (.allocation, ["allocate_qubits", "deallocate_qubits"]),
  (.reset, ["reset_qubit", "complete_reset"]),
  (.admin, ["revoke_token", "set_quota", "mark_faulty", "mark_maintenance", "restore_qubit",
    "collect_expired_tokens", "read_audit_log"]),
  (.delegate, ["delegate_token", "attenuate_token"]),
  (.debug, ["debug_read_state", "debug_inspect_qubit"]),
  (.send, ["send_qubit"]),
  (.receive, ["receive_qubit"]),
  (.teleport, ["teleport"])]

def standard : Requirements where
  entries := standardGroups.flatMap fun (capability, operations) =>
    operations.map fun operation => (operation, .ofList [capability])

end Requirements

end QubitWarden
