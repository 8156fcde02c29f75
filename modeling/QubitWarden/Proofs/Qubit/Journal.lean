import QubitWarden.Proofs.Qubit.Release

/-!
# The bounded history and the journal

The history of the pool forgets its oldest entries. Next to a run stands its journal, which forgets
nothing: the entry of each exchange that gives qubits to a tenant or takes them from one.

* `entries`, `journal`: what an exchange and a whole trace have to enter.
* `recorded_step`: an operation pushes its entries into the history, and nothing else.
* `Effect.owner?_eq`, `transfers_entries`: entries tell each change of owners.
* `journaled_run`: the history is the end of the journal, which leads to the owners in the pool.
* `history_exact`: what is stored, what is shown of it, and what it is good for.
-/

namespace QubitWarden

/-- The change of owners that an entry tells. -/
def AllocationRecord.transfer (r : AllocationRecord) : Transfer :=
  match r.action with
  | .allocated => ⟨r.qubits, none, some r.tenant⟩
  | .deallocated _ | .evicted => ⟨r.qubits, some r.tenant, none⟩

/-- The owners to which entries lead. -/
def AllocationRecord.replay (records : List AllocationRecord) : Ownership :=
  .replay (records.map transfer)

/-- The change of owners that a fact tells, which may be none. -/
def QubitFact.move (fact : QubitFact) : Transfer := ⟨fact.ids, fact.source, fact.target⟩

namespace Pool

variable {size : Nat} {p after : Pool} {now : Timestamp} {trace : List (Exchange Call Answer)}

/-! ## What is entered -/

/-- What an exchange has to enter: nothing for a refusal, a reset, a restoration, a quota, the
release of a tenant that holds nothing, or the loss of a qubit without owner. -/
def entries (e : Exchange Call Answer) : List AllocationRecord :=
  match e.call, e.answer with
  | .allocate tenant _ _, .qubits (.ok ids) => [⟨tenant, ids, .allocated, e.now⟩]
  | .deallocate tenant _ reset, .qubits (.ok ids) => [⟨tenant, ids, .deallocated reset, e.now⟩]
  | .releaseTenant tenant, .qubits (.ok ids) =>
    if ids.isEmpty then [] else [⟨tenant, ids, .deallocated true, e.now⟩]
  | .takeOffline id _, .evicted (.ok (some owner)) => [⟨owner, [id], .evicted, e.now⟩]
  | _, _ => []

/-- All entries of a trace, oldest first. -/
def journal (trace : List (Exchange Call Answer)) : List AllocationRecord := trace.flatMap entries

theorem journal_concat (trace : List (Exchange Call Answer)) (e : Exchange Call Answer) :
    journal (trace ++ [e]) = journal trace ++ entries e := by
  simp [journal]

/-! ## One exchange -/

/-- The pool after some entries were pushed into its history. -/
structure Recorded (p : Pool) (entered : List AllocationRecord) (after : Pool) : Prop where
  config : after.config = p.config
  history : after.history = entered.foldl (pushBounded p.config.maxHistory) p.history
  ascending : ∀ r ∈ entered, QubitId.Ascending r.qubits

theorem recorded_nil (hconfig : after.config = p.config) (hhistory : after.history = p.history) :
    Recorded p [] after := ⟨hconfig, hhistory, fun _ hr => by cases hr⟩

theorem recorded_singleton {r : AllocationRecord} (hconfig : after.config = p.config)
    (hhistory : after.history = pushBounded p.config.maxHistory p.history r)
    (hids : QubitId.Ascending r.qubits) : Recorded p [r] after :=
  ⟨hconfig, hhistory, fun _ hr => List.mem_singleton.1 hr ▸ hids⟩

theorem Settled.recorded {r : AllocationRecord} {result : QubitId → Qubit} {allocated : Nat}
    (h : Settled p r result allocated after) (hids : QubitId.Ascending r.qubits) :
    Recorded p [r] after := recorded_singleton h.config h.history hids

section
variable (h : WellFormed size p) (now : Timestamp)
include h

theorem recorded_allocate (tenant : Tenant) (count : Nat) (preferred : List QubitId) :
    Recorded p (entries (exchange step p now (.allocate tenant count preferred)))
      (step p now (.allocate tenant count preferred)).2 := by
  simp only [exchange, step, reply, entries]
  obtain ⟨-, hr⟩ | ⟨-, -, hr⟩ | ⟨-, -, -, hr⟩ | ⟨-, -, -, hok, hsettled⟩ :=
    allocate_decided h now tenant count preferred
  · rw [hr]
    exact recorded_nil rfl rfl
  · rw [hr]
    exact recorded_nil rfl rfl
  · rw [hr]
    exact recorded_nil rfl rfl
  · rw [hok]
    exact hsettled.recorded (QubitId.ascending_ascending _)

theorem deallocate_recorded (tenant : Tenant) (qubits : List QubitId) (reset : Bool) :
    (∃ e, p.deallocate now tenant qubits reset = (.error e, p)) ∨
      ∃ taken after, p.deallocate now tenant qubits reset = (.ok taken, after) ∧ taken ≠ [] ∧
        Recorded p [⟨tenant, taken, .deallocated reset, now⟩] after := by
  obtain ⟨-, hr⟩ | ⟨-, -, hr⟩ | ⟨hne, -, hok, -, hsettled⟩ :=
    deallocate_decided h now tenant qubits reset
  · exact .inl ⟨_, hr⟩
  · exact .inl ⟨_, hr⟩
  · exact .inr ⟨_, _, Prod.ext hok rfl, fun he => hne (QubitId.ascending_eq_nil_iff.1 he),
      hsettled.recorded (QubitId.ascending_ascending _)⟩

theorem recorded_releaseTenant (tenant : Tenant) :
    Recorded p (entries (exchange step p now (.releaseTenant tenant)))
      (step p now (.releaseTenant tenant)).2 := by
  simp only [exchange, step, reply, entries]
  by_cases hheld : p.tenantQubits tenant = []
  · rw [releaseTenant_of_nil now tenant hheld]
    exact recorded_nil rfl rfl
  · rw [releaseTenant_of_ne_nil now tenant hheld]
    obtain ⟨e, he⟩ | ⟨taken, after, he, hne, hrecorded⟩ :=
      deallocate_recorded h now tenant (p.tenantQubits tenant) true
    · rw [he]
      exact recorded_nil rfl rfl
    · rw [he]
      simpa [hne] using hrecorded

theorem recorded_takeOffline (id : QubitId) (target : QubitState) :
    Recorded p (entries (exchange step p now (.takeOffline id target)))
      (step p now (.takeOffline id target)).2 := by
  simp only [exchange, step, reply, entries]
  obtain ⟨e, he⟩ | ⟨source, -, -, he⟩ := takeOffline_cases h now id target
  · rw [he]
    exact recorded_nil rfl rfl
  · rw [he]
    cases source with
    | none => exact recorded_nil rfl rfl
    | some owner => exact recorded_singleton rfl rfl (List.pairwise_singleton _ id)

/-- **An operation pushes its entries into the history**, whether it succeeds or not. -/
theorem recorded_step (call : Call) :
    Recorded p (entries (exchange step p now call)) (step p now call).2 := by
  cases call with
  | allocate tenant count preferred => exact recorded_allocate h now tenant count preferred
  | deallocate tenant qubits reset =>
    simp only [exchange, step, reply, entries]
    obtain ⟨e, he⟩ | ⟨taken, after, he, -, hrecorded⟩ :=
      deallocate_recorded h now tenant qubits reset
    · rw [he]
      exact recorded_nil rfl rfl
    · rw [he]
      exact hrecorded
  | releaseTenant tenant => exact recorded_releaseTenant h now tenant
  | takeOffline id target => exact recorded_takeOffline h now id target
  | completeReset id =>
    simp only [exchange, step, reply, entries]
    obtain ⟨e, he⟩ | ⟨-, -, he⟩ := completeReset_cases h id <;> rw [he] <;>
      exact recorded_nil rfl rfl
  | restore id =>
    simp only [exchange, step, reply, entries]
    obtain ⟨e, he⟩ | ⟨-, -, he⟩ := restore_cases h id <;> rw [he] <;> exact recorded_nil rfl rfl
  | completeAllResets =>
    simp only [exchange, step, reply, entries]
    obtain ⟨pending, -, -, he⟩ := completeAllResets_eq h
    rw [he]
    exact recorded_nil rfl rfl
  | setQuota tenant maxQubits =>
    simp only [exchange, step, reply, entries, setQuota]
    split <;> exact recorded_nil rfl rfl

end

/-! ## Changes of owners -/

/-- What changes the owner. -/
def moves (told : QubitHistory) : List Transfer :=
  (told.map QubitFact.move).filter fun t => t.source ≠ t.target

/-- **Entries tell each change of owners**, and nothing that is none. -/
theorem transfers_entries (e : Exchange Call Answer) :
    (entries e).map AllocationRecord.transfer = moves (facts e) := by
  obtain ⟨now, call, answer⟩ := e
  cases call with
  | allocate tenant count preferred => rcases answer with (_ | ids) | _ | _ | _ <;> rfl
  | deallocate tenant qubits reset => rcases answer with (_ | ids) | _ | _ | _ <;> rfl
  | releaseTenant tenant => rcases answer with (_ | _ | _) | _ | _ | _ <;> rfl
  | completeReset id => rcases answer with _ | (_ | _) | _ | _ <;> rfl
  | completeAllResets => rcases answer with (_ | ids) | _ | _ | _ <;> rfl
  | takeOffline id target => rcases answer with _ | _ | (_ | _ | owner) | _ <;> rfl
  | restore id => rcases answer with _ | (_ | _) | _ | _ <;> rfl
  | setQuota tenant maxQubits => cases answer <;> rfl

theorem Effect.owner?_eq {told : QubitHistory} (he : Effect p now told after) :
    after.owner? = (moves told).foldl Ownership.after p.owner? := by
  cases he with
  | none hqubits =>
    funext id
    rw [owner?, find?_congr hqubits]
    rfl
  | @told fact after hh =>
    -- The purge, the restoration and the loss of a qubit without owner move nothing.
    by_cases hsame : fact.source = fact.target
    · have hnone : moves [fact] = [] := by simp [moves, QubitFact.move, hsame]
      rw [hnone, hh.owner?_eq_self hsame, List.foldl_nil]
    · have hone : moves [fact] = [fact.move] := by simp [moves, QubitFact.move, hsame]
      rw [hone, hh.owner?_eq]
      rfl

/-! ## Runs -/

/-- The pool next to the journal of the run that led to it. -/
structure Journaled (config : PoolConfig) (trace : List (Exchange Call Answer)) (p : Pool) :
    Prop where
  config_eq : p.config = config
  history : p.history = lastOf config.maxHistory (journal trace)
  ascending : ∀ r ∈ journal trace, QubitId.Ascending r.qubits
  owners : AllocationRecord.replay (journal trace) = p.owner?

-- The owners of a new pool are those after the run of no calls.
theorem journaled_new (config : PoolConfig) : Journaled config [] (new config) where
  config_eq := rfl
  history := (lastOf_of_length_le (Nat.zero_le _)).symm
  ascending r hr := by cases hr
  owners := (traced_run config []).owners

theorem Journaled.step {config : PoolConfig} (hj : Journaled config trace p)
    (h : WellFormed size p) (now : Timestamp) (call : Call) :
    Journaled config (trace ++ [exchange step p now call]) (Pool.step p now call).2 := by
  have hrecorded := recorded_step h now call
  constructor
  case config_eq => rw [hrecorded.config, hj.config_eq]
  case history =>
    rw [hrecorded.history, hj.config_eq, hj.history, foldl_pushBounded, journal_concat]
  case ascending =>
    intro r hr
    rw [journal_concat, List.mem_append] at hr
    exact hr.elim (hj.ascending r) (hrecorded.ascending r)
  case owners =>
    rw [(step_effect h now call).owner?_eq, ← transfers_entries, ← hj.owners, journal_concat]
    simp only [AllocationRecord.replay, Ownership.replay, List.map_append, List.foldl_append]

theorem journaled_run (config : PoolConfig) (calls : List (Timestamp × Call)) :
    Journaled config (run config calls).trace (run config calls).state := by
  refine (runFrom_induction
    (P := fun trace p => WellFormed config.poolSize.toNat p ∧ Journaled config trace p) Pool.step
    ⟨wellFormed_new config, journaled_new config⟩ ?_ calls).2
  rintro trace p now call ⟨h, hj⟩
  exact ⟨wellFormed_step h now call, hj.step h now call⟩

/-- **The bounded history is the end of the journal.** After any operations, the history holds the
last entries of the journal, as many as there are or as the bound admits, each with its qubits in
ascending order. Of the stored entries, of all or of one tenant, the last ones are shown, as many as
there are or as asked for. As long as nothing was forgotten, the history tells who owns which qubit,
and so what each tenant holds. -/
theorem history_exact (config : PoolConfig) (calls : List (Timestamp × Call)) :
    let r := run config calls
    let p := r.state
    AreLast config.maxHistory p.history (journal r.trace) ∧
      (∀ entry ∈ journal r.trace, QubitId.Ascending entry.qubits) ∧
      (∀ limit, AreLast limit (p.recent none limit) p.history ∧ ∀ tenant,
        AreLast limit (p.recent (some tenant) limit) (p.history.filter fun r => r.tenant = tenant)) ∧
      ((journal r.trace).length ≤ config.maxHistory →
        p.history = journal r.trace ∧ AllocationRecord.replay p.history = p.owner? ∧
          ∀ tenant, (AllocationRecord.replay p.history).held config.poolSize.toNat tenant =
            p.tenantQubits tenant) := by
  intro r p
  have hj : Journaled config r.trace p := journaled_run config calls
  refine ⟨?_, hj.ascending, fun limit => ⟨?_, fun tenant => ?_⟩, fun hfits => ?_⟩
  · rw [hj.history]
    exact areLast_lastOf _ _
  · have hall : p.recent none limit = lastOf limit p.history :=
      congrArg (lastOf limit) (List.filter_true _)
    rw [hall]
    exact areLast_lastOf limit _
  · exact areLast_lastOf limit _
  · have hfull : p.history = journal r.trace := by
      rw [hj.history, lastOf_of_length_le hfits]
    have howners : AllocationRecord.replay p.history = p.owner? := by rw [hfull, hj.owners]
    refine ⟨hfull, howners, fun tenant => ?_⟩
    rw [howners]
    exact (wellFormed_run config calls).tenantQubits_eq tenant

/-- Four operations that are entered, and a refusal, a reset and the loss of a free qubit. -/
def enteredCalls : List (Timestamp × Call) := [
  (1, .allocate "lab" 2 []),
  (2, .allocate "other" 9 []),
  (3, .deallocate "lab" [⟨0⟩] true),
  (4, .completeReset ⟨0⟩),
  (5, .takeOffline ⟨1⟩ .faulty),
  (6, .takeOffline ⟨3⟩ .maintenance),
  (7, .allocate "other" 1 [])]

theorem history_exact_entered :
    let config : PoolConfig := { poolSize := 4, maxHistory := 4 }
    let r := run config enteredCalls
    let p := r.state
    (journal r.trace).map AllocationRecord.timestamp = [1, 3, 5, 7] ∧ p.history = journal r.trace ∧
      (p.recent (some "lab") 2).map AllocationRecord.timestamp = [3, 5] ∧
      (AllocationRecord.replay p.history).held 4 "other" = p.tenantQubits "other" ∧
      p.tenantQubits "other" = [⟨0⟩] := by
  intro config r p
  obtain ⟨htimes, hrecent, hheld⟩ : (journal r.trace).map AllocationRecord.timestamp = [1, 3, 5, 7] ∧
      (p.recent (some "lab") 2).map AllocationRecord.timestamp = [3, 5] ∧
      p.tenantQubits "other" = [⟨0⟩] := by
    decide
  have hfits : (journal r.trace).length ≤ 4 := by
    rw [← List.length_map AllocationRecord.timestamp, htimes]
    decide
  obtain ⟨-, -, -, hfull⟩ := history_exact config enteredCalls
  obtain ⟨hhistory, -, hreplayed⟩ := hfull hfits
  exact ⟨htimes, hhistory, hrecent, hreplayed "other", hheld⟩

end Pool

end QubitWarden
