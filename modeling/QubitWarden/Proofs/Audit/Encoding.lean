import QubitWarden.Digest.Sha256
import QubitWarden.Proofs.Audit.Log
import QubitWarden.Proofs.Json.Reading

/-!
# The bytes of a record tell the record

A record is read back from its canonical bytes, whatever its tenant and its details hold.

* `Details.ofList_entries`: details are put together again from their entries.
* `Record.ofBytes?_toBytes`: so is a record from its bytes, and no other record has them
  (`Record.toBytes_inj`).
* `encoding_faithful`: the same for the entries of a log.
-/

namespace QubitWarden.Audit

namespace Details

/-- An entry whose key comes after all others goes to the end. -/
theorem insertEntry_of_lt {key text : String} {entries : List (String × String)}
    (h : ∀ e ∈ entries, e.1 < key) : insertEntry key text entries = entries ++ [(key, text)] := by
  induction entries with
  | nil => rfl
  | cons first rest ih =>
    obtain ⟨hfirst, hrest⟩ := List.forall_mem_cons.1 h
    have hne : key ≠ first.1 := fun he => String.lt_irrefl _ (he ▸ hfirst)
    rw [insertEntry, if_neg (String.lt_asymm hfirst), if_neg hne, ih hrest, List.cons_append]

/-- Entries in the order of their keys are appended one after the other. -/
theorem entries_foldl_insert (d : Details) {more : List (String × String)}
    (hsorted : (d.entries ++ more).Pairwise fun a b => a.1 < b.1) :
    (more.foldl (fun d e => d.insert e.1 e.2) d).entries = d.entries ++ more := by
  induction more generalizing d with
  | nil => exact (List.append_nil _).symm
  | cons e more ih =>
    have hlt : ∀ before ∈ d.entries, before.1 < e.1 := fun before hbefore =>
      (List.pairwise_append.1 hsorted).2.2 before hbefore e List.mem_cons_self
    have hentries : (d.insert e.1 e.2).entries = d.entries ++ [e] := insertEntry_of_lt hlt
    rw [List.foldl_cons, ih, hentries, List.append_assoc, List.singleton_append]
    rwa [hentries, List.append_assoc, List.singleton_append]

theorem ofList_entries (d : Details) : ofList d.entries = d := by
  have hentries : (ofList d.entries).entries = d.entries := entries_foldl_insert empty d.sorted
  cases d
  cases h : ofList _
  simp_all

end Details

namespace Record

/-! ## Reading the fields -/

theorem detailsOfJson?_detailsJson (d : Details) : detailsOfJson? (detailsJson d) = some d := by
  have hentries := Json.mapM_map_of_inverse (fun e : String × String => (e.1, Json.text e.2))
    (fun m : String × Json => m.2.text?.map fun text => (m.1, text)) (fun _ => rfl) d.entries
  rw [detailsOfJson?, detailsJson, Json.members?_ofMembers, Option.bind_some, hentries, Option.map_some,
    Details.ofList_entries]

theorem ofValues?_eq (r : Record) :
    ofValues? (.text r.eventType.name) (.ofText? r.tenant) (.natural r.timestamp.toNat)
      (detailsJson r.details) (.natural r.sequence.toNat) = some r := by
  have hname : (Json.text r.eventType.name).variant? = some r.eventType.name := rfl
  simp only [ofValues?, hname, Option.bind_some, EventType.ofName?_name, Json.optional?_ofText?,
    Json.word64?_natural, detailsOfJson?_detailsJson, Option.bind_eq_bind]
  rfl

/-- **A record is read back from its value**: each field is found under its name, once. -/
theorem ofJson?_toJson (r : Record) : ofJson? r.toJson = some r := by
  have hmembers := Json.members?_ofMembers [("event_type", .text r.eventType.name),
    ("tenant_id", .ofText? r.tenant), ("timestamp", .natural r.timestamp.toNat),
    ("details", detailsJson r.details), ("sequence_number", .natural r.sequence.toNat)]
  have hobject : ofJson? r.toJson = (r.toJson.members?.bind fun members => do
      ofValues? (← Json.required? "event_type" members) (← Json.nullable? "tenant_id" members)
        (← Json.required? "timestamp" members) (← Json.required? "details" members)
        (← Json.required? "sequence_number" members)) := rfl
  rw [hobject, toJson, hmembers, Option.bind_some]
  simpa [Json.required?, Json.nullable?, Json.fields] using r.ofValues?_eq

theorem plain_detailsJson (d : Details) : (detailsJson d).Plain := by
  refine .object fun m hm => ?_
  obtain ⟨e, -, rfl⟩ := List.mem_map.1 (List.map_map ▸ hm)
  exact .string _

theorem plain_toJson (r : Record) : r.toJson.Plain := by
  have htenant : (Json.ofText? r.tenant).Plain := by
    cases r.tenant with
    | none => exact .null
    | some t => exact .string _
  refine .object ?_
  simp only [List.map_cons, List.map_nil, List.forall_mem_cons]
  exact ⟨.string _, htenant, .natural _, plain_detailsJson _, .natural _, by simp⟩

/-! ## Reading the bytes -/

/-- **Every record is read back from its bytes.** -/
theorem ofBytes?_toBytes (r : Record) : ofBytes? r.toBytes = some r := by
  rw [ofBytes?, toBytes, toText, Json.parse?_render r.plain_toJson, Option.bind_some,
    ofJson?_toJson]

theorem toBytes_inj {r s : Record} (h : r.toBytes = s.toBytes) : r = s := by
  have hread := r.ofBytes?_toBytes
  rw [h, s.ofBytes?_toBytes] at hread
  exact (Option.some.inj hread).symm

theorem toBytes_eq_iff {r s : Record} : r.toBytes = s.toBytes ↔ r = s :=
  ⟨toBytes_inj, congrArg toBytes⟩

end Record

/-! ## Entries of a log -/

namespace Log

theorem exists_entry_ofEvents {H : Hash} {padding : Padding} {events : EventHistory} {i : Nat}
    (hi : i < (ofEvents H padding events).size) : ∃ e, (ofEvents H padding events).entry i = .ok e ∧
      Record.ofBytes? e.bytes = some e.record := by
  have hget := List.getElem?_eq_getElem (show i < (ofEvents H padding events).entries.length from hi)
  obtain ⟨-, hbytes⟩ := of_getElem?_ofEvents hget
  refine ⟨_, by rw [entry, hget], ?_⟩
  rw [hbytes, Record.ofBytes?_toBytes]

end Log

/-- **What is recorded can be read back.** Every record is read back from its bytes, whatever texts
it holds, so different records have different bytes; and at every index of a log that records were
only appended to, the stored bytes are read as the record that stands there. -/
theorem encoding_faithful :
    (∀ r : Record, Record.ofBytes? r.toBytes = some r) ∧
      (∀ r s : Record, r.toBytes = s.toBytes ↔ r = s) ∧
      ∀ (H : Hash) (padding : Padding) (events : EventHistory) (i : Nat),
        let log := Log.ofEvents H padding events
        i < log.size → ∃ e, log.entry i = .ok e ∧ Record.ofBytes? e.bytes = some e.record :=
  ⟨Record.ofBytes?_toBytes, fun _ _ => Record.toBytes_eq_iff, fun _ _ _ _ =>
    Log.exists_entry_ofEvents⟩

/-- An event whose texts hold what a literal has to escape, and texts that are empty. -/
def quotedEvent : Event where
  eventType := .securityViolation
  tenant := some "\"\\"
  details := .ofList [("\n\x01", "😀\x7f"), ("", ""), ("\"\x7d", "\\u0041")]

theorem encoding_faithful_quoted :
    let log := Log.ofEvents sha256 .sentinel [(0, quotedEvent), (7, quotedEvent)]
    1 < log.size ∧ ∃ e, log.entry 1 = .ok e ∧ Record.ofBytes? e.bytes = some e.record :=
  have hsize : 1 < (Log.ofEvents sha256 .sentinel [(0, quotedEvent), (7, quotedEvent)]).size := by
    rw [Log.size_ofEvents]
    decide
  ⟨hsize, encoding_faithful.2.2 sha256 .sentinel _ 1 hsize⟩

end QubitWarden.Audit
