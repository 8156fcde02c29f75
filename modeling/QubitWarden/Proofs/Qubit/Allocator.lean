import QubitWarden.Proofs.Qubit.History
import QubitWarden.Qubit.Allocator

/-!
# Runs of the allocator

The service in front of the pool as a machine. It changes the pool as the pool changes itself, and
answers every call together with the events it reports.

* `step_operate`: an operation on the pool has the same answer and leaves the same pool.
* `run_pool`: a run of the allocator is a run of the pool with the same facts.
-/

namespace QubitWarden.Allocator

/-- A call of the allocator: an operation on the pool, or a question about access. -/
inductive Call where
  | operate (call : Pool.Call)
  | verifyAccess (tenant : Tenant) (qubit : QubitId)
  | requireAccess (tenant : Tenant) (qubit : QubitId)

inductive Answer where
  | operated (answer : Pool.Answer)
  | verified (allowed : Bool)
  | required (result : Except AllocationError Unit)

/-- The result of a call and what is reported about it. -/
structure Report where
  answer : Answer
  events : List AllocationEvent

/-- The report on an operation, and the pool afterwards. -/
def operated {α : Type} (answer : α → Pool.Answer) (r : α × Pool × List AllocationEvent) :
    Report × Pool :=
  (⟨.operated (answer r.1), r.2.2⟩, r.2.1)

/-- An operation on the pool, reported if it matters to the audit. -/
def operate (p : Pool) (now : Timestamp) : Pool.Call → Report × Pool
  | .allocate tenant count preferred => operated .qubits (allocate p now tenant count preferred)
  | .deallocate tenant qubits reset => operated .qubits (deallocate p now tenant qubits reset)
  | .takeOffline id target => operated .evicted (takeOffline p now id target)
  | .restore id => operated .done (restore p id)
  | .releaseTenant tenant => operated .qubits (releaseTenant p now tenant)
  | call => reply (fun answer => ⟨.operated answer, []⟩) (p.step now call)

def step (p : Pool) (now : Timestamp) : Call → Report × Pool
  | .operate call => operate p now call
  | .verifyAccess tenant qubit =>
    let (allowed, events) := verifyAccess p tenant qubit
    (⟨.verified allowed, events⟩, p)
  | .requireAccess tenant qubit =>
    let (result, events) := requireAccess p tenant qubit
    (⟨.required result, events⟩, p)

/-- The run of the calls on a new pool. -/
def run (config : PoolConfig) (calls : List (Timestamp × Call)) : Run Pool Call Report :=
  runFrom step (.new config) calls

def facts (e : Exchange Call Report) : QubitHistory :=
  match e.call, e.answer.answer with
  | .operate call, .operated answer => Pool.facts ⟨e.now, call, answer⟩
  | _, _ => []

def toldBy (trace : List (Exchange Call Report)) : QubitHistory := trace.flatMap facts

/-- What was reported in a trace, oldest first. -/
def events (trace : List (Exchange Call Report)) : List AllocationEvent :=
  trace.flatMap fun e => e.answer.events

/-! ## The pool behind the allocator -/

theorem step_operate (p : Pool) (now : Timestamp) (call : Pool.Call) :
    (step p now (.operate call)).1.answer = .operated (p.step now call).1 ∧
      (step p now (.operate call)).2 = (p.step now call).2 := by
  cases call with
  | allocate tenant count preferred =>
    simp only [step, operate, operated, allocate, Pool.step, reply]
    split <;> simp_all
  | deallocate tenant qubits reset =>
    simp only [step, operate, operated, deallocate, Pool.step, reply]
    split <;> simp_all
  | takeOffline id target =>
    simp only [step, operate, operated, takeOffline, Pool.step, reply]
    split <;> simp_all
  | restore id =>
    simp only [step, operate, operated, restore, Pool.step, reply]
    split <;> simp_all
  | releaseTenant tenant =>
    simp only [step, operate, operated, releaseTenant, Pool.step, reply]
    split <;> simp_all
  | completeReset | completeAllResets | setQuota => exact ⟨rfl, rfl⟩

theorem facts_operate (p : Pool) (now : Timestamp) (call : Pool.Call) :
    facts (exchange step p now (.operate call)) = Pool.facts (exchange Pool.step p now call) := by
  simp only [facts, exchange, (step_operate p now call).1]

/-- What a call asks of the pool. -/
def asked (e : Exchange Call Report) : List (Timestamp × Pool.Call) :=
  match e.call with
  | .operate call => [(e.now, call)]
  | .verifyAccess _ _ | .requireAccess _ _ => []

/-- **A run of the allocator is a run of the pool**, with the same facts. -/
theorem run_pool (config : PoolConfig) (calls : List (Timestamp × Call)) :
    let r := run config calls
    let inner := Pool.run config (r.trace.flatMap asked)
    inner.state = r.state ∧ Pool.toldBy inner.trace = toldBy r.trace := by
  refine runFrom_simulation id asked facts Pool.facts (fun _ => True)
    (fun _ _ _ _ => trivial) ?_ trivial calls
  intro p now call _
  cases call with
  | operate call =>
    refine ⟨(step_operate p now call).2.symm, ?_⟩
    rw [facts_operate]
    exact List.append_nil _
  | verifyAccess tenant qubit => exact ⟨rfl, rfl⟩
  | requireAccess tenant qubit => exact ⟨rfl, rfl⟩

end QubitWarden.Allocator
