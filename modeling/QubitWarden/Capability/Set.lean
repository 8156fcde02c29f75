import QubitWarden.Capability.Basic
import QubitWarden.Text.Segments

/-!
# Sets of capabilities

A set keeps its members in canonical order without repetition, so equal sets have equal names and
equal texts.

* `CapabilitySet.ext_mem`: sets with the same members are equal.
* `mem_ofList`, `mem_difference`: membership, operation by operation.
* `ofNames`, `parse`: a set read from wire names, one by one or joined by commas; the error is the
  first unknown name.
* `segments`: the texts between the commas (`segments_intercalate`).
* `parse_eq_ok_iff`: the texts of a set are its wire names in any order, repeated or not.
-/

namespace QubitWarden

/-- A set of capabilities, as the list of its members in canonical order. -/
structure CapabilitySet where
  toList : List Capability
  canonical : toList = Capability.all.filter (· ∈ toList)
  deriving DecidableEq

namespace CapabilitySet

/-- The set of the capabilities in a list. -/
def ofList (cs : List Capability) : CapabilitySet where
  toList := Capability.all.filter (· ∈ cs)
  canonical := by
    apply List.filter_congr
    intro c _
    simp

instance : EmptyCollection CapabilitySet := ⟨ofList []⟩

instance : Inhabited CapabilitySet := ⟨∅⟩

instance : Membership Capability CapabilitySet := ⟨fun s c => c ∈ s.toList⟩

instance (c : Capability) (s : CapabilitySet) : Decidable (c ∈ s) :=
  inferInstanceAs (Decidable (c ∈ s.toList))

@[simp] theorem mem_toList {c : Capability} {s : CapabilitySet} : c ∈ s.toList ↔ c ∈ s := Iff.rfl

@[simp] theorem mem_ofList {c : Capability} {cs : List Capability} : c ∈ ofList cs ↔ c ∈ cs := by
  show c ∈ Capability.all.filter (· ∈ cs) ↔ c ∈ cs
  simp

@[simp] theorem not_mem_empty (c : Capability) : c ∉ (∅ : CapabilitySet) := fun h =>
  List.not_mem_nil (mem_ofList.1 h)

theorem ext_mem {s t : CapabilitySet} (h : ∀ c, c ∈ s ↔ c ∈ t) : s = t := by
  have hl : s.toList = t.toList := by
    rw [s.canonical, t.canonical]
    apply List.filter_congr
    intro c _
    exact decide_eq_decide.2 (h c)
  cases s; cases t; cases hl; rfl

def isEmpty (s : CapabilitySet) : Bool := s.toList.isEmpty

def size (s : CapabilitySet) : Nat := s.toList.length

def isSubset (s t : CapabilitySet) : Bool := s.toList.all (· ∈ t)

def difference (s t : CapabilitySet) : CapabilitySet := ofList (s.toList.filter (· ∉ t))

theorem isEmpty_iff {s : CapabilitySet} : s.isEmpty = true ↔ s = ∅ := by
  refine ⟨fun h => ext_mem fun c => iff_of_false ?_ (not_mem_empty c), fun h => by subst h; rfl⟩
  rw [← mem_toList, List.isEmpty_iff.1 h]
  exact List.not_mem_nil

theorem isSubset_iff {s t : CapabilitySet} : s.isSubset t = true ↔ ∀ c ∈ s, c ∈ t := by
  simp [isSubset]

@[simp] theorem mem_difference {c : Capability} {s t : CapabilitySet} :
    c ∈ s.difference t ↔ c ∈ s ∧ c ∉ t := by
  simp [difference]

/-! ## Names -/

/-- The wire names in canonical order. -/
def names (s : CapabilitySet) : List String := s.toList.map Capability.name

/-- The wire names joined by commas. -/
def display (s : CapabilitySet) : String := ",".intercalate s.names

/-- The capabilities of a list of wire names; the error is the first unknown name. -/
def listOfNames : List String → Except String (List Capability)
  | [] => .ok []
  | name :: rest =>
    match Capability.ofName? name with
    | none => .error name
    | some c => (listOfNames rest).map (c :: ·)

/-- The set of these wire names; the error is the first unknown name. -/
def ofNames (names : List String) : Except String CapabilitySet := (listOfNames names).map ofList

/-- The set written as wire names joined by commas; the empty text is the empty set. -/
def parse (joined : String) : Except String CapabilitySet :=
  if joined = "" then .ok ∅ else ofNames (Text.split ',' joined)

theorem ofList_toList (s : CapabilitySet) : ofList s.toList = s := ext_mem fun _ => mem_ofList

theorem listOfNames_map_name (cs : List Capability) :
    listOfNames (cs.map Capability.name) = .ok cs := by
  induction cs with
  | nil => rfl
  | cons c rest ih => simp [listOfNames, ih, Except.map]

theorem ofNames_names (s : CapabilitySet) : ofNames s.names = .ok s := by
  rw [ofNames, names, listOfNames_map_name, Except.map, ofList_toList]

theorem names_of_listOfNames {names : List String} {cs : List Capability}
    (h : listOfNames names = .ok cs) : cs.map Capability.name = names := by
  induction names generalizing cs with
  | nil => cases h; rfl
  | cons name rest ih =>
    unfold listOfNames at h
    split at h
    next => cases h
    next c hc =>
      cases hrest : listOfNames rest with
      | error unknown => rw [hrest] at h; cases h
      | ok others =>
        rw [hrest] at h
        obtain rfl := Except.ok.inj h
        rw [List.map_cons, ih hrest, Capability.name_of_ofName? hc]

/-! ## Joined names -/

/-- The texts between the commas; the empty text has none. -/
def segments (joined : String) : List String :=
  if joined = "" then [] else Text.split ',' joined

theorem parse_eq_ofNames (joined : String) : parse joined = ofNames (segments joined) := by
  unfold parse segments
  split
  · rfl
  · rfl

theorem intercalate_segments (joined : String) : ",".intercalate (segments joined) = joined := by
  unfold segments
  split
  next h => exact h.symm
  next => exact Text.intercalate_split rfl joined

/-- Names that are joined are told apart again. -/
theorem segments_intercalate (cs : List Capability) :
    segments (",".intercalate (cs.map Capability.name)) = cs.map Capability.name := by
  by_cases hne : cs.map Capability.name = []
  · rw [hne]
    rfl
  · have hcomma : ∀ name ∈ cs.map Capability.name, ',' ∉ name.toList := by
      intro name hname
      obtain ⟨c, -, rfl⟩ := List.mem_map.1 hname
      cases c <;> decide
    have hempty : "" ∉ cs.map Capability.name := by
      intro hmem
      obtain ⟨c, -, hc⟩ := List.mem_map.1 hmem
      revert hc
      cases c <;> decide
    rw [segments, if_neg (Text.intercalate_ne_empty rfl hne hcomma hempty),
      Text.split_intercalate rfl hne hcomma]

/-- Wire names joined by commas are read as their set, in any order and however often. -/
theorem parse_intercalate (cs : List Capability) :
    parse (",".intercalate (cs.map Capability.name)) = .ok (ofList cs) := by
  rw [parse_eq_ofNames, segments_intercalate, ofNames, listOfNames_map_name, Except.map]

/-- A set is read back from its joined wire names. -/
theorem parse_display (s : CapabilitySet) : parse s.display = .ok s := by
  rw [display, names, parse_intercalate, ofList_toList]

/-- **Exactly the wire names of a set, joined by commas, are read as it.** -/
theorem parse_eq_ok_iff {joined : String} {s : CapabilitySet} :
    parse joined = .ok s ↔
      ∃ cs, joined = ",".intercalate (cs.map Capability.name) ∧ ofList cs = s := by
  constructor
  · intro h
    rw [parse_eq_ofNames, ofNames] at h
    cases hcs : listOfNames (segments joined) with
    | error unknown => rw [hcs] at h; cases h
    | ok cs =>
      rw [hcs] at h
      refine ⟨cs, ?_, Except.ok.inj h⟩
      rw [names_of_listOfNames hcs, intercalate_segments]
  · rintro ⟨cs, rfl, rfl⟩
    exact parse_intercalate cs

end CapabilitySet

end QubitWarden
