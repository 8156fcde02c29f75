import QubitWarden.Proofs.Token.Payload
import QubitWarden.Token.Fields

/-!
# Sets written as joined names

Which texts are read as a set of capabilities, as which set, and what is reported of the others.

* `Capability.IsName`: a wire name, letter by letter.
* `read_eq_ok_iff`, `read_eq_error_iff`: the set whose names are the segments of a text, or else the
  first segment that is no name.
* `mem_iff_of_read`, `names_of_read`: the segments tell the members, and these have one order.
* `eq_iff_of_read`: texts are read as one set exactly if they have the same segments.
* `payload_capabilities_iff`: and so exactly if they are signed as one.
* `joined_exact`: all of this for any text.
-/

namespace QubitWarden

namespace Capability

/-- The text is a wire name: no other letter case, no white space around it, no part of one. -/
def IsName (s : String) : Prop := ∃ c : Capability, c.name = s

theorem isName_iff {s : String} : IsName s ↔ ∃ c, ofName? s = some c := by
  refine exists_congr fun c => ⟨?_, name_of_ofName?⟩
  rintro rfl
  exact ofName?_name c

instance : DecidablePred IsName := fun s =>
  decidable_of_iff ((ofName? s).isSome = true) (Option.isSome_iff_exists.trans isName_iff.symm)

theorem nodup_names : (all.map name).Nodup := by decide

end Capability

namespace CapabilitySet

open Capability

variable {joined other unknown : String} {names : List String} {s t : CapabilitySet}

/-! ## Lists of names -/

theorem listOfNames_eq_ok_iff {cs : List Capability} :
    listOfNames names = .ok cs ↔ cs.map name = names :=
  ⟨names_of_listOfNames, fun h => h ▸ listOfNames_map_name cs⟩

/-- The error is the first of the texts that is no name. -/
theorem listOfNames_eq_error_iff :
    listOfNames names = .error unknown ↔
      names.find? (fun text => ¬ IsName text) = some unknown := by
  induction names with
  | nil => exact iff_of_false (fun h => by cases h) (fun h => by cases h)
  | cons text rest ih =>
    cases htext : ofName? text with
    | none =>
      have hunknown : ¬ IsName text := by
        rw [isName_iff, htext]
        rintro ⟨c, hc⟩
        cases hc
      have hlist : listOfNames (text :: rest) = .error text := by rw [listOfNames, htext]
      rw [List.find?_cons_of_pos (by simpa using hunknown), hlist, Except.error.injEq,
        Option.some.injEq]
    | some c =>
      have hname : IsName text := isName_iff.2 ⟨c, htext⟩
      have hlist : listOfNames (text :: rest) = (listOfNames rest).map (c :: ·) := by
        rw [listOfNames, htext]
      rw [List.find?_cons_of_neg (by simpa using hname), ← ih, hlist]
      cases listOfNames rest with
      | error text' => exact Iff.rfl
      | ok cs => exact iff_of_false (fun h => by cases h) (fun h => by cases h)

/-! ## Reading a text -/

/-- **A text is read as the set that its segments name.** -/
theorem read_eq_ok_iff :
    read joined = .ok s ↔ ∃ cs, cs.map name = segments joined ∧ ofList cs = s := by
  rw [read, mapError_eq_ok_iff, parse_eq_ofNames, ofNames]
  simp only [← listOfNames_eq_ok_iff]
  cases listOfNames (segments joined) with
  | error unknown =>
    refine iff_of_false (fun h => by cases h) ?_
    rintro ⟨cs, hcs, -⟩
    cases hcs
  | ok cs =>
    constructor
    · exact fun h => ⟨cs, rfl, Except.ok.inj h⟩
    · rintro ⟨ds, hds, rfl⟩
      rw [Except.ok.inj hds]
      rfl

/-- **What is reported is the first segment that is no name.** -/
theorem read_eq_error_iff {e : TokenError} :
    read joined = .error e ↔
      ∃ unknown, (segments joined).find? (fun segment => ¬ IsName segment) = some unknown ∧
        e = .malformed (.unknownCapability unknown) := by
  rw [read, parse_eq_ofNames, ofNames]
  simp only [← listOfNames_eq_error_iff]
  cases listOfNames (segments joined) with
  | error unknown =>
    constructor
    · exact fun h => ⟨unknown, rfl, (Except.error.inj h).symm⟩
    · rintro ⟨text, htext, rfl⟩
      rw [Except.error.inj htext]
      rfl
  | ok cs =>
    refine iff_of_false (fun h => by cases h) ?_
    rintro ⟨unknown, hunknown, -⟩
    cases hunknown

theorem exists_read_iff :
    (∃ s, read joined = .ok s) ↔ ∀ segment ∈ segments joined, IsName segment := by
  constructor
  · rintro ⟨s, hs⟩ segment hsegment
    obtain ⟨cs, hcs, -⟩ := read_eq_ok_iff.1 hs
    obtain ⟨c, -, hc⟩ := List.mem_map.1 (hcs ▸ hsegment)
    exact ⟨c, hc⟩
  · intro h
    cases hread : read joined with
    | ok s => exact ⟨s, rfl⟩
    | error e =>
      obtain ⟨unknown, hfirst, -⟩ := read_eq_error_iff.1 hread
      have hunknown := List.find?_some hfirst
      exact absurd (h unknown (List.mem_of_find?_eq_some hfirst)) (by simpa using hunknown)

/-! ## The set -/

theorem mem_iff_of_read (h : read joined = .ok s) (c : Capability) :
    c ∈ s ↔ c.name ∈ segments joined := by
  obtain ⟨cs, hcs, rfl⟩ := read_eq_ok_iff.1 h
  rw [mem_ofList, ← hcs, List.mem_map]
  constructor
  · exact fun hc => ⟨c, hc, rfl⟩
  · rintro ⟨d, hd, hname⟩
    exact name_injective hname ▸ hd

/-- The names of the set are those of its text, in canonical order. -/
theorem names_of_read (h : read joined = .ok s) :
    s.names = (all.map name).filter (· ∈ segments joined) := by
  rw [CapabilitySet.names, s.canonical, List.filter_map]
  congr 1
  refine List.filter_congr fun c _ => ?_
  exact decide_eq_decide.2 (mem_iff_of_read h c)

theorem nodup_names (s : CapabilitySet) : s.names.Nodup := by
  refine Capability.nodup_names.sublist ?_
  rw [CapabilitySet.names, s.canonical]
  exact List.filter_sublist.map _

theorem segments_display (s : CapabilitySet) : segments s.display = s.names :=
  segments_intercalate s.toList

theorem read_display (s : CapabilitySet) : read s.display = .ok s :=
  mapError_eq_ok_iff.2 (parse_display s)

/-- **Texts are read as one set exactly if they have the same segments.** -/
theorem eq_iff_of_read (hs : read joined = .ok s) (ht : read other = .ok t) :
    s = t ↔ ∀ segment, segment ∈ segments joined ↔ segment ∈ segments other := by
  constructor
  · rintro rfl segment
    by_cases hname : IsName segment
    · obtain ⟨c, rfl⟩ := hname
      rw [← mem_iff_of_read hs, ← mem_iff_of_read ht]
    · have hnot {text : String} {u : CapabilitySet} (hu : read text = .ok u) :
          segment ∉ segments text := fun hsegment =>
        hname (exists_read_iff.1 ⟨u, hu⟩ segment hsegment)
      exact iff_of_false (hnot hs) (hnot ht)
  · intro h
    exact ext_mem fun c => by rw [mem_iff_of_read hs, mem_iff_of_read ht, h]

/-- **Grants that differ in their sets at most are signed as one exactly if the sets are equal.** -/
theorem payload_capabilities_iff (g : Grant) :
    { g with capabilities := s }.payload = { g with capabilities := t }.payload ↔ s = t := by
  constructor
  · intro h
    simp only [Grant.payload, List.append_assoc] at h
    have h := List.append_cancel_left (List.append_cancel_left h)
    have hnames := (Payload.list_selfDelimiting Payload.text_selfDelimiting (Payload.names_fit s)
      (Payload.names_fit t) h).1
    exact Payload.names_inj hnames
  · rintro rfl
    rfl

/-- **Joined names are read exactly.** A text is read as a set exactly if it is empty or each
segment between its commas is a wire name; the set has the capabilities with these names and no
others. Of any other text the first unknown segment is reported. The set is shown as its names in
canonical order, each once, and this is read as the same set. Two texts that are read give equal
sets, and with them the same signed bytes, exactly if they have the same segments, in whatever order
and number. -/
theorem joined_exact (joined : String) :
    ((∃ s, read joined = .ok s) ↔
        joined = "" ∨ ∀ segment ∈ Text.split ',' joined, IsName segment) ∧
      (∀ e, read joined = .error e ↔
        ∃ unknown, (segments joined).find? (fun segment => ¬ IsName segment) = some unknown ∧
          e = .malformed (.unknownCapability unknown)) ∧
      (∀ s, read joined = .ok s →
        (∀ c, c ∈ s ↔ c.name ∈ segments joined) ∧
          s.names = (all.map name).filter (· ∈ segments joined) ∧ s.names.Nodup ∧
          s.display = ",".intercalate s.names ∧ segments s.display = s.names ∧
          read s.display = .ok s) ∧
      ∀ other s t, read joined = .ok s → read other = .ok t →
        (s = t ↔ ∀ segment, segment ∈ segments joined ↔ segment ∈ segments other) ∧
          (s.names = t.names ↔ s = t) ∧
          ∀ g : Grant,
            ({ g with capabilities := s }.payload = { g with capabilities := t }.payload ↔
              s = t) := by
  refine ⟨?_, fun _ => read_eq_error_iff, fun s hs => ?_, fun other s t hs ht => ?_⟩
  · rw [exists_read_iff, segments]
    split
    next h => exact iff_of_true (List.forall_mem_nil _) (.inl h)
    next h => exact (or_iff_right h).symm
  · exact ⟨mem_iff_of_read hs, names_of_read hs, nodup_names s, rfl, segments_display s,
      read_display s⟩
  · exact ⟨eq_iff_of_read hs ht, ⟨Payload.names_inj, congrArg _⟩, payload_capabilities_iff⟩

/-- Names out of order and repeated; a beginning of a name; a comma too many. -/
theorem joined_exact_repeated :
    read "send,link,send" = .ok (ofList [.link, .send]) ∧
      (ofList [.link, .send]).display = "link,send" ∧
      (ofList [.link, .send] = ofList [.send, .link] ↔
        ∀ segment, segment ∈ segments "send,link,send" ↔ segment ∈ segments "link,send") ∧
      read "link,magic,Send" = .error (.malformed (.unknownCapability "magic")) ∧
      read "link," = .error (.malformed (.unknownCapability "")) := by
  obtain ⟨-, -, hread, hequal⟩ := joined_exact "send,link,send"
  have hs : read "send,link,send" = .ok (ofList [.link, .send]) := rfl
  have ht : read "link,send" = .ok (ofList [.send, .link]) := rfl
  obtain ⟨-, -, -, hdisplay, -⟩ := hread _ hs
  refine ⟨hs, hdisplay, (hequal _ _ _ hs ht).1, ?_, ?_⟩
  · exact ((joined_exact "link,magic,Send").2.1 _).2 ⟨"magic", by decide, rfl⟩
  · exact ((joined_exact "link,").2.1 _).2 ⟨"", by decide, rfl⟩

end CapabilitySet

end QubitWarden
