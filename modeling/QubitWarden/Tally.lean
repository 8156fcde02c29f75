import QubitWarden.Association

/-!
# Tallies

How often each key was counted. Keys stand in the order in which they first came up, and each of
them was counted at least once.

* `Tally.bump`: one more for a key.
* `Tally.ofList`: how often each element occurs in a list (`count_ofList`, `total_ofList`).
* `Tally.Proper`: each key stands once, with a count that is not zero (`proper_ofList`).
-/

namespace QubitWarden

/-- How often each key was counted. -/
structure Tally (κ : Type) where
  counts : List (κ × Nat)
  deriving DecidableEq

namespace Tally

open Association

variable {κ : Type} [DecidableEq κ]

def empty : Tally κ := ⟨[]⟩

instance : Inhabited (Tally κ) := ⟨empty⟩

/-- The counts with one more for `key`. -/
def bumpCounts (key : κ) : List (κ × Nat) → List (κ × Nat)
  | [] => [(key, 1)]
  | (k, n) :: rest => if k = key then (k, n + 1) :: rest else (k, n) :: bumpCounts key rest

/-- The tally with one more for `key`. -/
def bump (t : Tally κ) (key : κ) : Tally κ := ⟨bumpCounts key t.counts⟩

def count (t : Tally κ) (key : κ) : Nat := (t.counts.lookup key).getD 0

def total (t : Tally κ) : Nat := t.counts.foldr (fun entry n => entry.2 + n) 0

/-- How often each element occurs in a list. -/
def ofList (keys : List κ) : Tally κ := keys.foldl bump empty

theorem lookup_bumpCounts (key other : κ) (counts : List (κ × Nat)) :
    ((bumpCounts key counts).lookup other).getD 0 =
      (counts.lookup other).getD 0 + if other = key then 1 else 0 := by
  induction counts with
  | nil => by_cases h : other = key <;> simp [bumpCounts, lookup_cons, h]
  | cons entry rest ih =>
    unfold bumpCounts
    split
    next hentry => by_cases h : other = key <;> simp [lookup_cons, hentry, h]
    next hentry =>
      by_cases h : other = entry.1
      · simp [lookup_cons, hentry, h]
      · simp [lookup_cons, h, ih]

theorem count_bump (t : Tally κ) (key other : κ) :
    (t.bump key).count other = t.count other + if other = key then 1 else 0 :=
  lookup_bumpCounts key other t.counts

theorem total_bump (t : Tally κ) (key : κ) : (t.bump key).total = t.total + 1 := by
  unfold total bump
  dsimp only
  induction t.counts with
  | nil => rfl
  | cons entry rest ih =>
    unfold bumpCounts
    split
    · simp only [List.foldr_cons]
      omega
    · simp only [List.foldr_cons, ih]
      omega

theorem ofList_concat (keys : List κ) (key : κ) :
    ofList (keys ++ [key]) = (ofList keys).bump key := by
  simp [ofList]

theorem count_foldl_bump (keys : List κ) (key : κ) (t : Tally κ) :
    (keys.foldl bump t).count key = t.count key + keys.countP (· = key) := by
  induction keys generalizing t with
  | nil => rfl
  | cons first rest ih =>
    rw [List.foldl_cons, ih, count_bump, List.countP_cons]
    by_cases h : first = key
    · simp [h]
      omega
    · simp [h, Ne.symm h]

theorem count_ofList (keys : List κ) (key : κ) :
    (ofList keys).count key = keys.countP (· = key) :=
  (count_foldl_bump keys key empty).trans (Nat.zero_add _)

theorem total_foldl_bump (keys : List κ) (t : Tally κ) :
    (keys.foldl bump t).total = t.total + keys.length := by
  induction keys generalizing t with
  | nil => rfl
  | cons first rest ih =>
    rw [List.foldl_cons, ih, total_bump, List.length_cons]
    omega

theorem total_ofList (keys : List κ) : (ofList keys).total = keys.length :=
  (total_foldl_bump keys empty).trans (Nat.zero_add _)

/-! ## What stands in a tally -/

/-- Each key stands once, with a count that is not zero. -/
structure Proper (t : Tally κ) : Prop where
  keys : (t.counts.map Prod.fst).Nodup
  pos : ∀ entry ∈ t.counts, 0 < entry.2

theorem keys_bumpCounts (key : κ) (counts : List (κ × Nat)) :
    (bumpCounts key counts).map Prod.fst =
      if key ∈ counts.map Prod.fst then counts.map Prod.fst else counts.map Prod.fst ++ [key] := by
  induction counts with
  | nil => rfl
  | cons entry rest ih =>
    unfold bumpCounts
    split
    next hentry => simp [hentry]
    next hentry =>
      simp only [List.map_cons, List.mem_cons, Ne.symm hentry, false_or, ih]
      split <;> rfl

theorem pos_bumpCounts {key : κ} {counts : List (κ × Nat)} (h : ∀ entry ∈ counts, 0 < entry.2) :
    ∀ entry ∈ bumpCounts key counts, 0 < entry.2 := by
  induction counts with
  | nil => simp [bumpCounts]
  | cons first rest ih =>
    obtain ⟨hfirst, hrest⟩ := List.forall_mem_cons.1 h
    unfold bumpCounts
    split
    · exact List.forall_mem_cons.2 ⟨Nat.succ_pos _, hrest⟩
    · exact List.forall_mem_cons.2 ⟨hfirst, ih hrest⟩

theorem Proper.bump {t : Tally κ} (h : t.Proper) (key : κ) : (t.bump key).Proper := by
  refine ⟨?_, pos_bumpCounts h.pos⟩
  rw [Tally.bump, keys_bumpCounts]
  split
  next => exact h.keys
  next hnew =>
    refine List.nodup_append.2 ⟨h.keys, by simp, fun a ha b hb => ?_⟩
    rintro rfl
    exact hnew (List.mem_singleton.1 hb ▸ ha)

theorem proper_ofList (keys : List κ) : (ofList keys).Proper := by
  have hempty : (empty : Tally κ).Proper := ⟨List.nodup_nil, by simp [empty]⟩
  suffices h : ∀ t : Tally κ, t.Proper → (keys.foldl Tally.bump t).Proper from h empty hempty
  induction keys with
  | nil => exact fun t h => h
  | cons key rest ih => exact fun t h => ih (t.bump key) (h.bump key)

end Tally

end QubitWarden
