import Mathlib.Data.List.Forall2
import QubitWarden.Audit.Query
import QubitWarden.Proofs.Audit.Tampering

/-!
# Queries and statistics agree

What a query finds is said by the positions of the records it accepts: they ascend, there is none
too many and none too few, and a limit keeps the last of them. The counts of the statistics, which
are gathered in a pass of their own, are the numbers of records that queries find.

* `Query.Accepts`, `Query.matches_iff`: what it takes to pass all filters.
* `Selects`, `selects_positions`: the positions of the accepted records.
* `Log.exists_kept`: what is found are the records at the last of these positions.
* `Statistics.Describes`, `Log.describes_statistics`: what the statistics of a log count.
* `Log.queries_agree`: all of it, for every log that appends and overwritings lead to.
-/

namespace QubitWarden.Audit

/-! ## Filters -/

namespace Query

/-- A record passes every filter that is set. -/
structure Accepts (q : Query) (r : Record) : Prop where
  tenant : ∀ t, q.tenant = some t → r.tenant = some t
  eventType : ∀ e, q.eventType = some e → r.eventType = e
  range : ∀ start stop, q.range = some (start, stop) → start ≤ r.timestamp ∧ r.timestamp ≤ stop

/-- A query has the filters of another one, and maybe more. -/
structure Narrows (narrow wide : Query) : Prop where
  tenant : ∀ t, wide.tenant = some t → narrow.tenant = some t
  eventType : ∀ e, wide.eventType = some e → narrow.eventType = some e
  range : ∀ bounds, wide.range = some bounds → narrow.range = some bounds

variable {q narrow wide : Query} {r : Record}

theorem matches_iff : q.matches r = true ↔ q.Accepts r := by
  simp only [Query.matches, Bool.and_eq_true, Option.all_eq_true, decide_eq_true_eq]
  constructor
  · rintro ⟨⟨htenant, htype⟩, hrange⟩
    exact ⟨htenant, htype, fun start stop h => hrange (start, stop) h⟩
  · rintro ⟨htenant, htype, hrange⟩
    exact ⟨⟨htenant, htype⟩, fun (start, stop) h => hrange start stop h⟩

theorem Narrows.accepts (h : narrow.Narrows wide) (hr : narrow.Accepts r) : wide.Accepts r where
  tenant t ht := hr.tenant t (h.tenant t ht)
  eventType e he := hr.eventType e (h.eventType e he)
  range start stop hrange := hr.range start stop (h.range (start, stop) hrange)

theorem not_accepts_of_reversed {start stop : Timestamp} (hrange : q.range = some (start, stop))
    (hreversed : stop < start) : ¬q.Accepts r := by
  intro h
  obtain ⟨hstart, hstop⟩ := h.range start stop hrange
  exact UInt64.not_lt.2 (UInt64.le_trans hstart hstop) hreversed

/-! ## Limits -/

/-- The last elements that a query's limit leaves, or all without a limit. -/
def cut {α : Type} (q : Query) (l : List α) : List α :=
  match q.limit with
  | none => l
  | some limit => lastOf limit l

/-- How many of `n` elements are left. -/
def bounded (q : Query) (n : Nat) : Nat :=
  match q.limit with
  | none => n
  | some limit => min limit n

section
variable {α β : Type} (q : Query) (l : List α)

theorem cut_suffix : q.cut l <:+ l := by
  unfold cut
  cases q.limit with
  | none => exact List.suffix_refl l
  | some limit => exact lastOf_suffix limit l

theorem length_cut : (q.cut l).length = q.bounded l.length := by
  unfold cut bounded
  cases q.limit with
  | none => rfl
  | some limit => exact length_lastOf limit l

theorem map_cut (f : α → β) : (q.cut l).map f = q.cut (l.map f) := by
  unfold cut
  cases q.limit with
  | none => rfl
  | some limit => exact map_lastOf limit l f

end

end Query

/-! ## Positions -/

/-- These are the positions of the accepted records, in order and each once. -/
structure Selects (records : List Record) (q : Query) (positions : List Nat) : Prop where
  ascending : positions.Pairwise (· < ·)
  mem_iff : ∀ i, i ∈ positions ↔ ∃ r, records[i]? = some r ∧ q.Accepts r

/-- The positions of the records that match. -/
def Query.positions (q : Query) (records : List Record) : List Nat :=
  (List.range records.length).filter fun i => records[i]?.any q.matches

theorem selects_positions (records : List Record) (q : Query) :
    Selects records q (q.positions records) := by
  refine ⟨List.pairwise_lt_range.filter _, fun i => ?_⟩
  simp only [Query.positions, List.mem_filter, List.mem_range, Option.any_eq_true,
    Query.matches_iff]
  constructor
  · exact And.right
  · rintro ⟨r, hr, hq⟩
    exact ⟨(List.getElem?_eq_some_iff.1 hr).1, r, hr, hq⟩

/-- The records that match are the ones at the positions. -/
theorem map_positions (records : List Record) (q : Query) :
    (q.positions records).map (records[·]?) = (records.filter q.matches).map some := by
  -- Without a filter: the records are the ones at all positions.
  have hall : (List.range records.length).map (records[·]?) = records.map some := by
    refine List.ext_getElem (by simp) fun i hi _ => ?_
    rw [List.length_map, List.length_range] at hi
    simp [hi]
  calc (q.positions records).map (records[·]?)
      = ((List.range records.length).map (records[·]?)).filter (Option.any q.matches) := by
        rw [List.filter_map]
        rfl
    _ = (records.map some).filter (Option.any q.matches) := by rw [hall]
    _ = (records.filter q.matches).map some := by
        rw [List.filter_map]
        rfl

namespace Log

variable {q : Query}

theorem events_eq (log : Log) (q : Query) :
    log.events q = q.cut (log.records.filter q.matches) := by
  unfold events Query.cut
  cases q.limit <;> rfl

theorem events_unlimited (log : Log) {q : Query} (h : q.limit = none) :
    log.events q = log.records.filter q.matches := by
  rw [events_eq, Query.cut, h]

/-- **What a query finds** are the records at the last of the positions it selects. -/
theorem exists_kept (log : Log) (q : Query) :
    ∃ selected kept, Selects log.records q selected ∧ kept <:+ selected ∧
      kept.length = q.bounded selected.length ∧
      List.Forall₂ (fun i r => log.records[i]? = some r) kept (log.events q) := by
  refine ⟨q.positions log.records, q.cut (q.positions log.records),
    selects_positions log.records q, q.cut_suffix _, q.length_cut _, ?_⟩
  -- A limit cuts positions and records alike.
  have hmap : (q.cut (q.positions log.records)).map (log.records[·]?) =
      (log.events q).map some := by
    rw [q.map_cut, map_positions, ← q.map_cut, ← events_eq]
  have heach := List.forall₂_eq_eq_eq ▸ hmap
  rwa [List.forall₂_map_left_iff, List.forall₂_map_right_iff] at heach

theorem events_suffix (log : Log) (q : Query) :
    log.events q <:+ log.events { q with limit := none } := by
  rw [events_eq, events_unlimited (q := { q with limit := none }) log rfl]
  exact q.cut_suffix _

theorem events_of_reversed (log : Log) {start stop : Timestamp}
    (hrange : q.range = some (start, stop)) (hreversed : stop < start) : log.events q = [] := by
  have hnone : log.records.filter q.matches = [] := by
    rw [List.filter_eq_nil_iff]
    intro r _ hr
    exact Query.not_accepts_of_reversed hrange hreversed (Query.matches_iff.1 hr)
  rw [← List.suffix_nil, ← hnone, events_eq]
  exact q.cut_suffix _

theorem events_sublist_of_narrows (log : Log) {narrow wide : Query} (h : narrow.Narrows wide)
    (hwide : wide.limit = none) : (log.events narrow).Sublist (log.events wide) := by
  rw [events_eq, events_unlimited log hwide]
  refine (narrow.cut_suffix _).sublist.trans ?_
  refine List.monotone_filter_right _ fun r hr => ?_
  rw [Query.matches_iff] at hr ⊢
  exact h.accepts hr

end Log

/-! ## Statistics -/

/-- The counts are those of the queries, no key stands twice or with a zero count, and the
timestamps are those of the first and the last record. -/
structure Statistics.Describes (s : Statistics) (log : Log) : Prop where
  entries : s.entries = log.size
  eventTypes : ∀ e, s.byEventType.count e = (log.events { eventType := some e }).length
  tenants : ∀ t, s.byTenant.count t = (log.events { tenant := some t }).length
  eventTypes_proper : s.byEventType.Proper
  tenants_proper : s.byTenant.Proper
  eventTypes_total : s.byEventType.total = s.entries
  tenants_total : s.byTenant.total = log.records.countP fun r => r.tenant.isSome
  first : s.firstTimestamp = log.records[0]?.map Record.timestamp
  last : s.lastTimestamp = log.records[log.size - 1]?.map Record.timestamp

namespace Log

theorem length_records (log : Log) : log.records.length = log.size := List.length_map _

theorem count_byEventType (log : Log) (e : EventType) :
    log.statistics.byEventType.count e = (log.events { eventType := some e }).length := by
  rw [statistics, Tally.count_ofList, List.countP_map, events_unlimited log rfl,
    ← List.countP_eq_length_filter]
  refine List.countP_congr fun r _ => ?_
  simp [Query.matches]

theorem count_byTenant (log : Log) (t : Tenant) :
    log.statistics.byTenant.count t = (log.events { tenant := some t }).length := by
  rw [statistics, Tally.count_ofList, List.countP_filterMap, events_unlimited log rfl,
    ← List.countP_eq_length_filter]
  refine List.countP_congr fun r _ => ?_
  cases htenant : r.tenant <;> simp [Query.matches, htenant]

theorem total_byTenant (log : Log) :
    log.statistics.byTenant.total = log.records.countP fun r => r.tenant.isSome := by
  rw [statistics, Tally.total_ofList, List.length_filterMap_eq_countP]

theorem describes_statistics (log : Log) : log.statistics.Describes log where
  entries := rfl
  eventTypes := count_byEventType log
  tenants := count_byTenant log
  eventTypes_proper := Tally.proper_ofList _
  tenants_proper := Tally.proper_ofList _
  eventTypes_total := by
    rw [statistics, Tally.total_ofList, List.length_map, length_records]
  tenants_total := total_byTenant log
  first := by
    rw [statistics, List.head?_eq_getElem?]
  last := by
    rw [statistics, List.getLast?_eq_getElem?, length_records]

/-! ## Logs of a run -/

theorem Holds.sequence_eq {H : Hash} {padding : Padding} {events : EventHistory} {log : Log}
    (h : Holds H padding events log) {i : Nat} {r : Record} (hr : log.records[i]? = some r) :
    r.sequence = UInt64.ofNat i := by
  rw [h.records, recordsOf, List.getElem?_mapIdx] at hr
  obtain ⟨event, -, rfl⟩ := Option.map_eq_some_iff.1 hr
  rfl

/-- **Queries and statistics agree.** After any appends and overwritings, a query finds the records
it accepts, in the order of their numbers and each once, of which a limit keeps the last ones:
a suffix of what it finds without a limit. Reversed bounds find nothing, and more filters find a
subsequence. The statistics count what such queries find. -/
theorem queries_agree (H : Hash) (padding : Padding) (calls : List (Timestamp × Call)) :
    let log := (run H padding calls).state
    log.records = recordsOf (appends calls) ∧
      (∀ q, ∃ selected kept, Selects log.records q selected ∧ kept <:+ selected ∧
        kept.length = q.bounded selected.length ∧
        List.Forall₂ (fun i r => log.records[i]? = some r ∧ r.sequence = UInt64.ofNat i)
          kept (log.events q)) ∧
      (∀ q, log.events q <:+ log.events { q with limit := none }) ∧
      (∀ q start stop, q.range = some (start, stop) → stop < start → log.events q = []) ∧
      (∀ narrow wide, narrow.Narrows wide → wide.limit = none →
        (log.events narrow).Sublist (log.events wide)) ∧
      log.statistics.Describes log := by
  intro log
  have h : Holds H padding (appends calls) log := holds_run H padding calls
  refine ⟨h.records, fun q => ?_, events_suffix log,
    fun q start stop hrange hreversed => events_of_reversed log hrange hreversed,
    fun narrow wide hnarrow hwide => events_sublist_of_narrows log hnarrow hwide,
    describes_statistics log⟩
  obtain ⟨selected, kept, hselected, hsuffix, hlength, hfound⟩ := exists_kept log q
  exact ⟨selected, kept, hselected, hsuffix, hlength,
    hfound.imp fun i r hr => ⟨hr, h.sequence_eq hr⟩⟩

/-- Events of one tenant and of the whole kernel, with the bytes of one overwritten. -/
def mixedCalls : List (Timestamp × Call) := [
  (100, .append ⟨.tokenIssued, some "lab", .empty⟩),
  (101, .append ⟨.qubitFaulty, none, .empty⟩),
  (102, .append ⟨.tokenIssued, some "lab", .empty⟩),
  (103, .tamper 1 fun _ => []),
  (104, .append ⟨.tokenRevoked, some "lab", .empty⟩)]

theorem queries_agree_mixed :
    let log := (run sha256 .sentinel mixedCalls).state
    let lab : Query := { tenant := some "lab" }
    let issued : Query := { lab with eventType := some .tokenIssued }
    (log.events lab).map Record.sequence = [0, 2, 3] ∧
      (log.events { lab with limit := some 2 }).map Record.sequence = [2, 3] ∧
      log.events { lab with range := some (104, 100) } = [] ∧
      (log.events issued).Sublist (log.events lab) ∧
      log.statistics.byTenant.count "lab" = 3 := by
  intro log lab issued
  obtain ⟨-, -, -, hreversed, hnarrow, hstatistics⟩ :=
    queries_agree sha256 .sentinel mixedCalls
  have hlab : (log.events lab).map Record.sequence = [0, 2, 3] := by decide +kernel
  have hcount : (log.events lab).length = 3 := by
    rw [← List.length_map Record.sequence, hlab]
    rfl
  refine ⟨hlab, by decide +kernel, hreversed _ 104 100 rfl (by decide),
    hnarrow issued lab ⟨fun t ht => ht, ?_, ?_⟩ rfl, (hstatistics.tenants "lab").trans hcount⟩
  · exact fun e he => nomatch he
  · exact fun bounds hbounds => nomatch hbounds

end Log

end QubitWarden.Audit
