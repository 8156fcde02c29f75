/-!
# Bounded histories

* `lastOf n l`: the last `n` elements of a list, or all when there are fewer.
* `pushBounded`: one more element at the end of a history that keeps at most `bound`.
* `pushBounded_lastOf`: so it keeps the last `bound` elements of all that were pushed
  (`foldl_pushBounded`).
* `AreLast`: what it means to be the last elements (`areLast_lastOf`).
-/

namespace QubitWarden

/-- The last `n` elements, or all when there are fewer. -/
def lastOf {α : Type} (n : Nat) (l : List α) : List α := l.drop (l.length - n)

/-- The history with one more element; when it is full, the oldest one goes first. -/
def pushBounded {α : Type} (bound : Nat) (l : List α) (a : α) : List α :=
  if bound = 0 then l
  else if l.length = bound then l.drop 1 ++ [a]
  else l ++ [a]

section
variable {α : Type} (n : Nat) (l : List α)

@[simp] theorem length_lastOf : (lastOf n l).length = min n l.length := by
  rw [lastOf, List.length_drop]
  omega

theorem lastOf_suffix : lastOf n l <:+ l := List.drop_suffix _ _

theorem map_lastOf {β : Type} (f : α → β) : (lastOf n l).map f = lastOf n (l.map f) := by
  rw [lastOf, lastOf, List.map_drop, List.length_map]

theorem lastOf_zero : lastOf 0 l = [] := List.drop_length

theorem lastOf_of_length_le {n : Nat} {l : List α} (h : l.length ≤ n) : lastOf n l = l := by
  rw [lastOf, Nat.sub_eq_zero_of_le h, List.drop_zero]

theorem pushBounded_lastOf (a : α) : pushBounded n (lastOf n l) a = lastOf n (l ++ [a]) := by
  unfold pushBounded
  split
  next h => rw [h, lastOf_zero, lastOf_zero]
  next h =>
    have hlength := length_lastOf n l
    split
    next hfull =>
      have hdrop : l.length + 1 - n = l.length - n + 1 := by omega
      rw [lastOf, lastOf, List.drop_drop, List.length_append, List.length_singleton, hdrop,
        List.drop_append_of_le_length (by omega)]
    next hfull =>
      rw [lastOf_of_length_le (by omega), lastOf_of_length_le (by simp; omega)]

theorem foldl_pushBounded (more : List α) :
    more.foldl (pushBounded n) (lastOf n l) = lastOf n (l ++ more) := by
  induction more generalizing l with
  | nil => rw [List.foldl_nil, List.append_nil]
  | cons a rest ih =>
    rw [List.foldl_cons, pushBounded_lastOf, ih, List.append_assoc, List.singleton_append]

/-- These are the last `n` elements of the whole, or all of them when there are fewer. -/
structure AreLast (last whole : List α) : Prop where
  suffix : last <:+ whole
  length : last.length = min n whole.length

theorem areLast_lastOf : AreLast n (lastOf n l) l := ⟨lastOf_suffix n l, length_lastOf n l⟩

end

end QubitWarden
