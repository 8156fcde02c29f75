/-!
# Segments

`segments sep cs` are the parts of a text between separators: always at least one, and empty ones
count. `joinSegments` puts the text together again: `joinSegments_segments`, and
`segments_joinSegments` for parts without the separator.
-/

namespace QubitWarden.Text

/-- The parts of `cs` between occurrences of `sep`. -/
def segments (sep : Char) : List Char → List (List Char)
  | [] => [[]]
  | c :: rest =>
    if c = sep then [] :: segments sep rest
    else
      match segments sep rest with
      | [] => [[c]]
      | first :: others => (c :: first) :: others

/-- The parts put together with `sep` between them. -/
def joinSegments (sep : Char) : List (List Char) → List Char
  | [] => []
  | [first] => first
  | first :: others => first ++ sep :: joinSegments sep others

theorem segments_ne_nil (sep : Char) (cs : List Char) : segments sep cs ≠ [] := by
  cases cs with
  | nil => simp [segments]
  | cons c rest =>
    unfold segments
    split
    · simp
    · split <;> simp

theorem joinSegments_segments (sep : Char) (cs : List Char) :
    joinSegments sep (segments sep cs) = cs := by
  induction cs with
  | nil => rfl
  | cons c rest ih =>
    unfold segments
    split
    next h =>
      subst h
      cases hs : segments c rest with
      | nil => exact absurd hs (segments_ne_nil c rest)
      | cons first others => rw [hs] at ih; simp [joinSegments, ih]
    next h =>
      cases hs : segments sep rest with
      | nil => exact absurd hs (segments_ne_nil sep rest)
      | cons first others =>
        rw [hs] at ih
        cases others with
        | nil => simpa [joinSegments] using ih
        | cons second others => simpa [joinSegments] using ih

section
variable {sep : Char} {part : List Char}

theorem segments_of_not_mem (h : sep ∉ part) : segments sep part = [part] := by
  induction part with
  | nil => rfl
  | cons c rest ih =>
    rw [List.mem_cons, not_or] at h
    rw [segments, if_neg (Ne.symm h.1), ih h.2]

theorem segments_append (h : sep ∉ part) (rest : List Char) :
    segments sep (part ++ sep :: rest) = part :: segments sep rest := by
  induction part with
  | nil => exact if_pos rfl
  | cons c others ih =>
    rw [List.mem_cons, not_or] at h
    rw [List.cons_append, segments, if_neg (Ne.symm h.1), ih h.2]

theorem joinSegments_cons (first : List Char) {others : List (List Char)} (hne : others ≠ []) :
    joinSegments sep (first :: others) = first ++ sep :: joinSegments sep others := by
  cases others with
  | nil => exact absurd rfl hne
  | cons second rest => rfl

theorem segments_joinSegments {parts : List (List Char)} (hne : parts ≠ [])
    (h : ∀ part ∈ parts, sep ∉ part) : segments sep (joinSegments sep parts) = parts := by
  induction parts with
  | nil => exact absurd rfl hne
  | cons first others ih =>
    rw [List.forall_mem_cons] at h
    by_cases hothers : others = []
    · rw [hothers]
      exact segments_of_not_mem h.1
    · rw [joinSegments_cons first hothers, segments_append h.1, ih hothers h.2]

theorem joinSegments_eq_intercalate (sep : Char) (parts : List (List Char)) :
    joinSegments sep parts = [sep].intercalate parts := by
  induction parts with
  | nil => rfl
  | cons first others ih =>
    cases others with
    | nil => exact (List.append_nil first).symm
    | cons second rest =>
      rw [joinSegments_cons first (List.cons_ne_nil _ _), ih, List.intercalate_cons_cons,
        List.append_assoc]
      rfl

end

/-- The parts of a text between separators, as texts. -/
def split (sep : Char) (s : String) : List String := (segments sep s.toList).map String.ofList

/-- Texts without the separator are read back when they are joined with it. -/
theorem split_intercalate {sep : Char} {joiner : String} {parts : List String}
    (hjoiner : joiner.toList = [sep]) (hne : parts ≠ []) (h : ∀ part ∈ parts, sep ∉ part.toList) :
    split sep (joiner.intercalate parts) = parts := by
  have hsegments : segments sep (joiner.intercalate parts).toList = parts.map String.toList := by
    rw [String.toList_intercalate, hjoiner, ← joinSegments_eq_intercalate]
    refine segments_joinSegments (by simpa using hne) fun part hpart => ?_
    obtain ⟨text, htext, rfl⟩ := List.mem_map.1 hpart
    exact h text htext
  rw [split, hsegments, List.map_map]
  simp [Function.comp_def]

/-- A text is the join of its parts. -/
theorem intercalate_split {sep : Char} {joiner : String} (hjoiner : joiner.toList = [sep])
    (s : String) : joiner.intercalate (split sep s) = s := by
  refine String.toList_injective ?_
  rw [String.toList_intercalate, hjoiner, ← joinSegments_eq_intercalate, split, List.map_map]
  simp [Function.comp_def, joinSegments_segments]

/-- Texts without the separator that are joined to nothing are none, or the empty one. -/
theorem intercalate_ne_empty {sep : Char} {joiner : String} {parts : List String}
    (hjoiner : joiner.toList = [sep]) (hne : parts ≠ []) (h : ∀ part ∈ parts, sep ∉ part.toList)
    (hempty : "" ∉ parts) : joiner.intercalate parts ≠ "" := by
  intro hjoined
  have hsplit := split_intercalate hjoiner hne h
  rw [hjoined] at hsplit
  refine hempty ?_
  rw [← hsplit]
  exact List.mem_singleton.2 rfl

end QubitWarden.Text
