import Mathlib.Data.List.Find
import QubitWarden.Digest.Sha256
import QubitWarden.Proofs.Audit.Log
import QubitWarden.Proofs.Merkle.Opening
import QubitWarden.Proofs.Run

/-!
# Tampering shows

The log as a machine whose stored bytes may be overwritten at any time. Neither an overwriting nor
an append makes the tree forget what was appended, so the bytes of an entry verify as long as they
have the leaf of the bytes that were appended there, whatever was done to the other entries.

* `holds_step`, `holds_run`: the tree stays the one of the appended events.
* `verifyEntry_eq`: an entry verifies if its stored bytes have the leaf of the appended ones.
* `verifyIntegrity_eq`, `detectTampering_eq`: so do ranges, and the first entry that does not is the
  one that is found.
* `verification_exact`: what is told about the entries is what was done to them.
-/

namespace QubitWarden.Audit.Log

open Merkle

/-- An operation that changes the log: an append, or the bytes of an entry changed in place. -/
inductive Call where
  | append (event : Event)
  | tamper (index : Nat) (change : Bytes → Bytes)

/-- The result of an operation. An append answers with the number of the record and the new root. -/
inductive Answer where
  | appended (sequence : UInt64) (root : Digest)
  | tampered (result : Except AuditError Unit)

/-- The result of an operation, and the log afterwards. -/
def step (H : Hash) (log : Log) (now : Timestamp) : Call → Answer × Log
  | .append event =>
    let after := log.append H now event
    (.appended (log.nextRecord now event).sequence after.root, after)
  | .tamper index change =>
    match log.tamper index change with
    | .ok after => (.tampered (.ok ()), after)
    | .error e => (.tampered (.error e), log)

/-- The run of the operations on an empty log. -/
def run (H : Hash) (padding : Padding) (calls : List (Timestamp × Call)) : Run Log Call Answer :=
  runFrom (step H) (empty padding) calls

/-- The events that are appended by these operations. -/
def appends (calls : List (Timestamp × Call)) : EventHistory :=
  calls.filterMap fun (now, call) =>
    match call with
    | .append event => some (now, event)
    | .tamper .. => none

section
variable {H : Hash} {padding : Padding} {events : EventHistory} {log : Log}

theorem holds_step (h : Holds H padding events log) (now : Timestamp) (call : Call) :
    Holds H padding (events ++ appends [(now, call)]) (step H log now call).2 := by
  cases call with
  | append event => exact holds_append h now event
  | tamper index change =>
    simp only [appends, List.filterMap_cons, List.filterMap_nil, List.append_nil, step]
    cases hresult : log.tamper index change with
    | ok after => exact holds_tamper h hresult
    | error e => exact h

theorem holds_run (H : Hash) (padding : Padding) (calls : List (Timestamp × Call)) :
    Holds H padding (appends calls) (run H padding calls).state := by
  have hrun := runFrom_induction (step H)
    (P := fun trace log => Holds H padding (appends (trace.map fun e => (e.now, e.call))) log)
    (holds_empty H padding)
    (fun trace log now call h => by
      rw [List.map_append, appends, List.filterMap_append]
      exact holds_step h now call)
    calls
  rwa [runFrom_asked] at hrun

/-! ## What verification tells -/

/-- Whether stored bytes have the leaf of the bytes that were appended at their place. -/
def sameLeaf (H : Hash) (stored appended : List Bytes) (i : Nat) : Bool :=
  decide (stored[i]?.map (leafHash H) = appended[i]?.map (leafHash H))

theorem verifyEntry_eq (h : Holds H padding events log) {i : Nat} (hi : i < log.size) :
    log.verifyEntry H i = .ok (sameLeaf H log.bytes (bytesOf events) i) := by
  obtain ⟨e, he⟩ : ∃ e, log.entries[i]? = some e := ⟨_, List.getElem?_eq_getElem hi⟩
  obtain ⟨original, horiginal⟩ : ∃ original, (bytesOf events)[i]? = some original :=
    ⟨_, List.getElem?_eq_getElem (by rwa [length_bytesOf, ← h.size_eq])⟩
  have hentry : log.entry i = .ok e := by rw [entry, he]
  have hproof : log.leafProof i = .ok (opening H padding (bytesOf events) i original) := by
    rw [leafProof, h.tree, proof?_ofRecords horiginal]
  have hstored : log.bytes[i]? = some e.bytes := by rw [bytes, List.getElem?_map, he]; rfl
  rw [verifyEntry, hentry, hproof, sameLeaf, hstored, horiginal, h.tree]
  simp [bind, Except.bind, pure, Except.pure, verify_opening horiginal]

theorem verifyAll_eq (h : Holds H padding events log) {indices : List Nat}
    (hindices : ∀ i ∈ indices, i < log.size) :
    log.verifyAll H indices = .ok (indices.all (sameLeaf H log.bytes (bytesOf events))) := by
  induction indices with
  | nil => rfl
  | cons i rest ih =>
    rw [verifyAll, verifyEntry_eq h (hindices i List.mem_cons_self), List.all_cons]
    cases sameLeaf H log.bytes (bytesOf events) i with
    | false => rfl -- The rest is not asked for, and does not matter.
    | true => exact ih fun j hj => hindices j (List.mem_cons_of_mem _ hj)

theorem verifyIntegrity_eq (h : Holds H padding events log) {start stop : Nat}
    (hstart : start < stop) (hstop : stop ≤ log.size) :
    log.verifyIntegrity H start stop =
      .ok ((List.range' start (stop - start)).all (sameLeaf H log.bytes (bytesOf events))) := by
  rw [verifyIntegrity, if_neg (by omega), verifyAll_eq h]
  intro i hi
  rw [List.mem_range'_1] at hi
  omega

theorem verifyIntegrity_split (h : Holds H padding events log) {a b c : Nat} (hab : a < b)
    (hbc : b < c) (hc : c ≤ log.size) :
    ∃ x y, log.verifyIntegrity H a b = .ok x ∧ log.verifyIntegrity H b c = .ok y ∧
      log.verifyIntegrity H a c = .ok (x && y) := by
  have hrange : List.range' a (c - a) = List.range' a (b - a) ++ List.range' b (c - b) := by
    rw [show c - a = b - a + (c - b) by omega, ← List.range'_append_1,
      show a + (b - a) = b by omega]
  refine ⟨_, _, verifyIntegrity_eq h hab (by omega), verifyIntegrity_eq h hbc hc, ?_⟩
  rw [verifyIntegrity_eq h (by omega) hc, hrange, List.all_append]

theorem verifyIntegrity_invalid (H : Hash) (log : Log) {start stop : Nat}
    (h : ¬(start < stop ∧ stop ≤ log.size)) :
    log.verifyIntegrity H start stop = .error (.invalidRange start stop log.size) := by
  rw [verifyIntegrity, if_pos (by omega)]

theorem detectTampering_eq (h : Holds H padding events log) :
    log.detectTampering H =
      (List.range log.size).find? fun i => !sameLeaf H log.bytes (bytesOf events) i := by
  refine List.find?_congr fun i hi => ?_
  rw [verifyEntry_eq h (List.mem_range.1 hi)]
  cases sameLeaf H log.bytes (bytesOf events) i <;> rfl

/-- In a log that holds the bytes of its history nothing is detected, whatever the hash. -/
theorem detectTampering_ofEvents (H : Hash) (padding : Padding) (events : EventHistory) :
    (Log.ofEvents H padding events).detectTampering H = none := by
  rw [detectTampering_eq (holds_ofEvents H padding events), List.find?_range_eq_none]
  intro i _
  simp [bytes_ofEvents, sameLeaf]

/-! ## Bytes told apart by their leaves -/

theorem Holds.getElem?_eq_of_size_le (h : Holds H padding events log) {i : Nat}
    (hi : log.size ≤ i) : log.bytes[i]? = (bytesOf events)[i]? := by
  rw [List.getElem?_eq_none (by rwa [length_bytes]),
    List.getElem?_eq_none (by rwa [length_bytesOf, ← h.size_eq])]

section
variable (h : Holds H padding events log)
  (hsep : ∀ p ∈ log.bytes.zip (bytesOf events), leafHash H p.1 = leafHash H p.2 → p.1 = p.2)
include h hsep

theorem sameLeaf_iff (i : Nat) : sameLeaf H log.bytes (bytesOf events) i = true ↔
    log.bytes[i]? = (bytesOf events)[i]? := by
  rw [sameLeaf, decide_eq_true_eq]
  refine ⟨fun hleaf => ?_, fun hbytes => by rw [hbytes]⟩
  cases hstored : log.bytes[i]? with
  | none =>
    rw [← hstored]
    exact h.getElem?_eq_of_size_le (by rwa [← length_bytes, ← List.getElem?_eq_none_iff])
  | some stored =>
    rw [hstored] at hleaf
    obtain ⟨original, horiginal, hleaf⟩ := Option.map_eq_some_iff.1 hleaf.symm
    have hzip : (stored, original) ∈ log.bytes.zip (bytesOf events) :=
      List.mem_of_getElem? (List.getElem?_zip_eq_some.2 ⟨hstored, horiginal⟩)
    have hbytes : stored = original := hsep _ hzip hleaf.symm
    rw [horiginal, hbytes]

theorem verifyIntegrity_iff {start stop : Nat} (hstart : start < stop) (hstop : stop ≤ log.size) :
    ∃ ok, log.verifyIntegrity H start stop = .ok ok ∧
      (ok = true ↔ ∀ i, start ≤ i → i < stop → log.bytes[i]? = (bytesOf events)[i]?) := by
  refine ⟨_, verifyIntegrity_eq h hstart hstop, ?_⟩
  rw [List.all_eq_true]
  refine forall_congr' fun i => ?_
  rw [sameLeaf_iff h hsep, List.mem_range'_1, and_imp,
    show start + (stop - start) = stop by omega]

theorem detectTampering_eq_some_iff (i : Nat) : log.detectTampering H = some i ↔
    log.bytes[i]? ≠ (bytesOf events)[i]? ∧ ∀ j < i, log.bytes[j]? = (bytesOf events)[j]? := by
  simp only [detectTampering_eq h, List.find?_range_eq_some, Bool.not_not, Bool.not_eq_true',
    ← Bool.not_eq_true, sameLeaf_iff h hsep, List.mem_range]
  refine ⟨fun ⟨hi, _, hbefore⟩ => ⟨hi, hbefore⟩, fun ⟨hi, hbefore⟩ => ⟨hi, ?_, hbefore⟩⟩
  exact Nat.lt_of_not_le fun hle => hi (h.getElem?_eq_of_size_le hle)

theorem detectTampering_eq_none_iff :
    log.detectTampering H = none ↔ log.bytes = bytesOf events := by
  simp only [detectTampering_eq h, List.find?_range_eq_none, Bool.not_not, sameLeaf_iff h hsep]
  refine ⟨fun hall => List.ext_getElem? fun i => ?_, fun heq i _ => by rw [heq]⟩
  by_cases hi : i < log.size
  · exact hall i hi
  · exact h.getElem?_eq_of_size_le (Nat.le_of_not_lt hi)

end

end

/-- **Verification is exact.** After any appends and overwritings, in any order, an entry verifies if
its stored bytes have the leaf of the bytes that were appended there, which are those of a log with
the same appends alone; a range verifies if its parts do. Where no stored bytes collide with the
appended ones, what is detected is the first entry that differs, and a range verifies if no entry in
it differs. -/
theorem verification_exact (H : Hash) (padding : Padding) (calls : List (Timestamp × Call)) :
    let log := (run H padding calls).state
    let stored := log.bytes
    let appended := (ofEvents H padding (appends calls)).bytes
    (stored.length = log.size ∧ appended.length = log.size) ∧
      (∀ i < log.size, log.verifyEntry H i =
        .ok (decide (stored[i]?.map (leafHash H) = appended[i]?.map (leafHash H)))) ∧
      (∀ a b c, a < b → b < c → c ≤ log.size →
        ∃ x y, log.verifyIntegrity H a b = .ok x ∧ log.verifyIntegrity H b c = .ok y ∧
          log.verifyIntegrity H a c = .ok (x && y)) ∧
      (∀ start stop, ¬(start < stop ∧ stop ≤ log.size) →
        log.verifyIntegrity H start stop = .error (.invalidRange start stop log.size)) ∧
      ((∀ p ∈ stored.zip appended, leafHash H p.1 = leafHash H p.2 → p.1 = p.2) →
        (∀ i, log.detectTampering H = some i ↔
          stored[i]? ≠ appended[i]? ∧ ∀ j < i, stored[j]? = appended[j]?) ∧
        (log.detectTampering H = none ↔ stored = appended) ∧
        ∀ start stop, start < stop → stop ≤ log.size →
          ∃ ok, log.verifyIntegrity H start stop = .ok ok ∧
            (ok = true ↔ ∀ i, start ≤ i → i < stop → stored[i]? = appended[i]?)) := by
  intro log stored appended
  have h : Holds H padding (appends calls) log := holds_run H padding calls
  have happended : appended = bytesOf (appends calls) := bytes_ofEvents H padding (appends calls)
  rw [happended]
  refine ⟨⟨length_bytes log, ?_⟩, fun i hi => verifyEntry_eq h hi,
    fun a b c hab hbc hc => verifyIntegrity_split h hab hbc hc,
    fun start stop hrange => verifyIntegrity_invalid H log hrange, fun hsep => ?_⟩
  · rw [length_bytesOf, h.size_eq]
  · exact ⟨detectTampering_eq_some_iff h hsep, detectTampering_eq_none_iff h hsep,
      fun start stop hstart hstop => verifyIntegrity_iff h hsep hstart hstop⟩

/-- Two appends, a blank put behind the first record, and one more append. -/
def blankedCalls : List (Timestamp × Call) := [
  (100, .append ⟨.tokenIssued, some "lab", .empty⟩),
  (101, .append ⟨.qubitAllocated, none, .empty⟩),
  (102, .tamper 0 fun bytes => bytes ++ [0x20]),
  (103, .append ⟨.tokenRevoked, none, .empty⟩)]

theorem verification_exact_blanked :
    let log := (run sha256 .duplicateLast blankedCalls).state
    let appended := (ofEvents sha256 .duplicateLast (appends blankedCalls)).bytes
    (∀ p ∈ log.bytes.zip appended, leafHash sha256 p.1 = leafHash sha256 p.2 → p.1 = p.2) ∧
      log.size = 3 ∧ log.detectTampering sha256 = some 0 ∧
      log.verifyIntegrity sha256 1 3 = .ok true ∧ log.verifyIntegrity sha256 0 3 = .ok false := by
  intro log appended
  -- Only the bytes that differ are hashed here.
  obtain ⟨hleaf, hsize, hfirst, hlater⟩ :
      (∀ p ∈ log.bytes.zip appended, p.1 = p.2 ∨ leafHash sha256 p.1 ≠ leafHash sha256 p.2) ∧
        log.size = 3 ∧ log.bytes[0]? ≠ appended[0]? ∧
        ∀ i < 3, 1 ≤ i → log.bytes[i]? = appended[i]? := by
    decide +kernel
  have hsep : ∀ p ∈ log.bytes.zip appended,
      leafHash sha256 p.1 = leafHash sha256 p.2 → p.1 = p.2 :=
    fun p hp heq => (hleaf p hp).resolve_right fun hne => hne heq
  obtain ⟨-, -, -, -, hexact⟩ := verification_exact sha256 .duplicateLast blankedCalls
  obtain ⟨hdetect, -, hrange⟩ := hexact hsep
  obtain ⟨ok, hok, hiff⟩ := hrange 1 3 (by decide) hsize.ge
  obtain ⟨ok', hok', hiff'⟩ := hrange 0 3 (by decide) hsize.ge
  have htrue : ok = true := hiff.2 fun i hle hlt => hlater i hlt hle
  have hfalse : ok' = false := Bool.eq_false_iff.2 fun h =>
    hfirst (hiff'.1 h 0 (Nat.le_refl 0) (by decide))
  exact ⟨hsep, hsize, (hdetect 0).2 ⟨hfirst, fun j hj => absurd hj (Nat.not_lt_zero j)⟩,
    htrue ▸ hok, hfalse ▸ hok'⟩

end QubitWarden.Audit.Log
