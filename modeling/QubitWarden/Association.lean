/-!
# Association lists

Keys with what they stand for, where the first entry of a key counts.

* `lookup_cons`: what is found in a list, by its first entry.
* `lookup_map_key`: under other names for the keys the same is found.
* `find?_of_injective`: of items that their keys tell apart, each is found under its key.
-/

namespace QubitWarden.Association

variable {κ μ α : Type} [DecidableEq κ] [DecidableEq μ]

theorem lookup_cons (entry : κ × α) (rest : List (κ × α)) (key : κ) :
    (entry :: rest).lookup key = if key = entry.1 then some entry.2 else rest.lookup key := by
  rw [List.lookup_cons]
  by_cases h : key = entry.1
  · simp [h]
  · simp [h, beq_false_of_ne h]

theorem lookup_map_key {f : κ → μ} (hf : ∀ {a b}, f a = f b → a = b) (entries : List (κ × α))
    (key : κ) : (entries.map fun entry => (f entry.1, entry.2)).lookup (f key) =
      entries.lookup key := by
  induction entries with
  | nil => rfl
  | cons entry rest ih =>
    rw [List.map_cons, lookup_cons, lookup_cons, ih]
    by_cases h : key = entry.1
    · rw [if_pos h, if_pos (congrArg f h)]
    · rw [if_neg h, if_neg fun he => h (hf he)]

theorem find?_of_injective {f : α → κ} (hf : ∀ {a b}, f a = f b → a = b) {items : List α} {a : α}
    (ha : a ∈ items) : items.find? (fun b => f b = f a) = some a := by
  cases h : items.find? fun b => f b = f a with
  | none => exact absurd (List.find?_eq_none.1 h a ha) (by simp)
  | some b => exact congrArg some (hf (by simpa using List.find?_some h))

end QubitWarden.Association
