import QubitWarden.Token.Basic

/-!
# Runs of a machine

A machine answers each call and moves on to its next state. A run is any list of calls at any times,
from a given state; its trace has what was asked and answered.

* `runFrom_append`: a run goes on from the state it has reached.
* `runFrom_induction`: what holds at the start and is kept by every exchange holds after every run.
* `runFrom_simulation`: when each exchange of one machine is a run of another on a view of its
  state, so is a whole run, and both tell the same facts.
-/

namespace QubitWarden

/-- A call at some time with its answer. -/
structure Exchange (κ α : Type) where
  now : Timestamp
  call : κ
  answer : α

/-- What was asked and answered, oldest first, and the state it led to. -/
structure Run (σ κ α : Type) where
  trace : List (Exchange κ α)
  state : σ

/-- A result as an answer. -/
def reply {σ α β : Type} (answer : α → β) (r : α × σ) : β × σ := (answer r.1, r.2)

section
variable {σ κ α : Type} (step : σ → Timestamp → κ → α × σ)

/-- The exchange of a call in a given state. -/
def exchange (s : σ) (now : Timestamp) (call : κ) : Exchange κ α := ⟨now, call, (step s now call).1⟩

/-- The run of the calls one after the other. -/
def runFrom : σ → List (Timestamp × κ) → Run σ κ α
  | s, [] => ⟨[], s⟩
  | s, (now, call) :: rest =>
    let r := runFrom (step s now call).2 rest
    ⟨exchange step s now call :: r.trace, r.state⟩

theorem runFrom_append (s : σ) (first second : List (Timestamp × κ)) :
    runFrom step s (first ++ second) =
      ⟨(runFrom step s first).trace ++ (runFrom step (runFrom step s first).state second).trace,
        (runFrom step (runFrom step s first).state second).state⟩ := by
  induction first generalizing s with
  | nil => rfl
  | cons c rest ih => simp only [List.cons_append, runFrom, ih]

theorem runFrom_concat (s : σ) (calls : List (Timestamp × κ)) (c : Timestamp × κ) :
    runFrom step s (calls ++ [c]) =
      ⟨(runFrom step s calls).trace ++ [exchange step (runFrom step s calls).state c.1 c.2],
        (step (runFrom step s calls).state c.1 c.2).2⟩ :=
  runFrom_append step s calls [c]

/-- What is asked in a run is what was called, when it was called. -/
theorem runFrom_asked (s : σ) (calls : List (Timestamp × κ)) :
    (runFrom step s calls).trace.map (fun e => (e.now, e.call)) = calls := by
  induction calls generalizing s with
  | nil => rfl
  | cons c rest ih => simp only [runFrom, List.map_cons, ih, exchange]

/-- **Induction over a run**: what holds of the empty trace and is kept by every exchange holds of
the whole trace and the state it led to. -/
theorem runFrom_induction {P : List (Exchange κ α) → σ → Prop} {start : σ} (base : P [] start)
    (kept : ∀ trace s now call, P trace s →
      P (trace ++ [exchange step s now call]) (step s now call).2)
    (calls : List (Timestamp × κ)) :
    P (runFrom step start calls).trace (runFrom step start calls).state := by
  suffices h : ∀ (calls : List (Timestamp × κ)) trace s, P trace s →
      P (trace ++ (runFrom step s calls).trace) (runFrom step s calls).state from
    h calls [] start base
  intro calls
  induction calls with
  | nil => intro trace s h; simpa [runFrom] using h
  | cons c rest ih =>
    intro trace s h
    have := ih _ _ (kept trace s c.1 c.2 h)
    simpa [runFrom] using this

end

/-! ## One machine on top of another -/

section
variable {σ κ α τ ι β φ : Type} {step : σ → Timestamp → κ → α × σ}
  {lower : τ → Timestamp → ι → β × τ}

/-- **Simulation**: `view` shows the state of the lower machine, `calls` says what an exchange asks
of it, and on states in `Inv` each exchange is a run of those calls that tells the same facts. -/
theorem runFrom_simulation (view : σ → τ) (calls : Exchange κ α → List (Timestamp × ι))
    (facts : Exchange κ α → List φ) (lowerFacts : Exchange ι β → List φ) (Inv : σ → Prop)
    (kept : ∀ s now call, Inv s → Inv (step s now call).2)
    (one : ∀ s now call, Inv s →
      let e := exchange step s now call
      (runFrom lower (view s) (calls e)).state = view (step s now call).2 ∧
        (runFrom lower (view s) (calls e)).trace.flatMap lowerFacts = facts e)
    {s : σ} (hs : Inv s) (asked : List (Timestamp × κ)) :
    let r := runFrom step s asked
    (runFrom lower (view s) (r.trace.flatMap calls)).state = view r.state ∧
      (runFrom lower (view s) (r.trace.flatMap calls)).trace.flatMap lowerFacts =
        r.trace.flatMap facts := by
  induction asked generalizing s with
  | nil => exact ⟨rfl, rfl⟩
  | cons c rest ih =>
    obtain ⟨hstate, hfacts⟩ := one s c.1 c.2 hs
    obtain ⟨ihstate, ihfacts⟩ := ih (kept s c.1 c.2 hs)
    simp only [runFrom, List.flatMap_cons, runFrom_append, List.flatMap_append]
    rw [hstate, hfacts, ihstate, ihfacts]
    exact ⟨rfl, rfl⟩

end

end QubitWarden
