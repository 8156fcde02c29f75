import QubitWarden.Association

/-!
# Details of an event

A map from keys to texts, kept in the order of the keys, so that equal maps are written alike.

* `Details.insert`: the map with one entry set; a later value replaces an earlier one.
* `Details.ofList`: the map of a list of entries, where the last entry of a key counts.
* `Details.get?`: the text of a key, which is the one set last (`get?_insert`).
-/

namespace QubitWarden.Audit

open Association

/-- A map from keys to texts in strictly increasing order of the keys. -/
structure Details where
  entries : List (String × String)
  sorted : entries.Pairwise fun a b => a.1 < b.1
  deriving DecidableEq

namespace Details

/-- The entries with `key` set to `text`, in order if the given ones are. -/
def insertEntry (key text : String) : List (String × String) → List (String × String)
  | [] => [(key, text)]
  | entry :: rest =>
    if key < entry.1 then (key, text) :: entry :: rest
    else if key = entry.1 then (key, text) :: rest
    else entry :: insertEntry key text rest

theorem mem_insertEntry {key text : String} {entries : List (String × String)}
    {e : String × String} (h : e ∈ insertEntry key text entries) :
    e = (key, text) ∨ e ∈ entries := by
  induction entries with
  | nil => simpa [insertEntry] using h
  | cons entry rest ih =>
    unfold insertEntry at h
    split at h
    · simpa using h
    · split at h
      · rcases List.mem_cons.1 h with h | h
        · exact .inl h
        · exact .inr (List.mem_cons_of_mem _ h)
      · rcases List.mem_cons.1 h with h | h
        · exact .inr (h ▸ List.mem_cons_self)
        · exact (ih h).imp id (List.mem_cons_of_mem _)

theorem sorted_insertEntry {key text : String} {entries : List (String × String)}
    (h : entries.Pairwise fun a b => a.1 < b.1) :
    (insertEntry key text entries).Pairwise fun a b => a.1 < b.1 := by
  induction entries with
  | nil => simp [insertEntry]
  | cons entry rest ih =>
    obtain ⟨hfirst, hrest⟩ := List.pairwise_cons.1 h
    unfold insertEntry
    split
    next hlt =>
      refine List.pairwise_cons.2 ⟨fun e he => ?_, h⟩
      rcases List.mem_cons.1 he with rfl | he
      · exact hlt
      · exact String.lt_trans hlt (hfirst e he)
    next hlt =>
      split
      next heq => exact List.pairwise_cons.2 ⟨fun e he => heq ▸ hfirst e he, hrest⟩
      next hne =>
        refine List.pairwise_cons.2 ⟨fun e he => ?_, ih hrest⟩
        rcases mem_insertEntry he with rfl | he
        · exact Decidable.byContradiction fun hn =>
            hne (String.le_antisymm (String.not_lt.1 hn) (String.not_lt.1 hlt))
        · exact hfirst e he

def empty : Details := ⟨[], List.Pairwise.nil⟩

instance : Inhabited Details := ⟨empty⟩

/-- The map with `key` set to `text`. -/
def insert (d : Details) (key text : String) : Details :=
  ⟨insertEntry key text d.entries, sorted_insertEntry d.sorted⟩

/-- The map of a list of entries; the last entry of a key counts. -/
def ofList (entries : List (String × String)) : Details :=
  entries.foldl (fun d entry => d.insert entry.1 entry.2) empty

def get? (d : Details) (key : String) : Option String := d.entries.lookup key

theorem lookup_insertEntry (key text other : String) (entries : List (String × String)) :
    (insertEntry key text entries).lookup other =
      if other = key then some text else entries.lookup other := by
  induction entries with
  | nil => exact lookup_cons (key, text) [] other
  | cons entry rest ih =>
    unfold insertEntry
    split
    next => exact lookup_cons (key, text) (entry :: rest) other
    next =>
      split
      next heq =>
        rw [lookup_cons, lookup_cons, ← heq]
        by_cases h : other = key <;> simp [h]
      next hne =>
        rw [lookup_cons, lookup_cons, ih]
        by_cases h : other = key
        · rw [h, if_neg hne, if_pos rfl, if_pos rfl]
        · rw [if_neg h, if_neg h]

@[simp] theorem get?_empty (key : String) : empty.get? key = none := rfl

@[simp] theorem get?_insert (d : Details) (key text other : String) :
    (d.insert key text).get? other = if other = key then some text else d.get? other :=
  lookup_insertEntry key text other d.entries

end Details

end QubitWarden.Audit
