import Mathlib.Data.List.DropRight
import Mathlib.Data.List.Basic
/-!
# Bounded queues

A queue that drops its oldest element when it outgrows its bound holds the
last elements pushed.
-/

namespace Window
variable {α : Type*}

/-- `push_back`, then `pop_front` when there are more than `n` elements. -/
def push (n : Nat) (q : List α) (x : α) : List α :=
  if (q ++ [x]).length > n then (q ++ [x]).tail else q ++ [x]

theorem rtake_eq_self {n : Nat} {l : List α} (h : l.length ≤ n) : l.rtake n = l := by
  rw [List.rtake, Nat.sub_eq_zero_of_le h, List.drop_zero]

theorem length_rtake (n : Nat) (l : List α) : (l.rtake n).length = min n l.length := by
  rw [List.rtake, List.length_drop]; omega

theorem map_rtake {β : Type*} (f : α → β) (n : Nat) (l : List α) : (l.rtake n).map f = (l.map f).rtake n := by
  rw [List.rtake, List.rtake, List.map_drop, List.length_map]

theorem rtake_sublist (n : Nat) (l : List α) : (l.rtake n).Sublist l := List.drop_sublist _ _

/-- The queue holds the last `n` elements ever pushed. -/
theorem push_rtake (n : Nat) (l : List α) (x : α) : push n (l.rtake n) x = (l ++ [x]).rtake n := by
  simp only [push, List.rtake, List.length_append, List.length_drop, List.length_singleton]
  rcases Nat.lt_or_ge l.length n with h | h
  · rw [if_neg (by omega), Nat.sub_eq_zero_of_le h.le, Nat.sub_eq_zero_of_le h]
    rfl
  · rw [if_pos (by omega), ← List.drop_append_of_le_length (by omega), List.tail_drop,
      show l.length + 1 - n = l.length - n + 1 by omega]

/-- What an earlier bound dropped stays dropped. -/
theorem rtake_append_rtake (n : Nat) (l l' : List α) : (l.rtake n ++ l').rtake n = (l ++ l').rtake n := by
  simp only [List.rtake]
  rw [← List.drop_append_of_le_length (by omega), List.drop_drop, List.length_drop, List.length_append]
  congr 1
  omega

/-- Of the last `n` elements, an older part may be left out where nothing of it is wanted. -/
theorem filter_rtake_old (n : Nat) (p : α → Bool) {old : List α} (ho : ∀ x ∈ old, p x = false) (new : List α) :
    ((old ++ new).rtake n).filter p = (new.rtake n).filter p := by
  rw [List.rtake, List.rtake, List.drop_append, List.filter_append, List.length_append]
  rw [List.filter_eq_nil_iff.2, List.nil_append]
  · congr 2; omega
  · intro x hx
    simp [ho x (List.mem_of_mem_drop hx)]

/-- Of the last `n` elements, those past an older part are the last `n` of the rest. -/
theorem filter_rtake_append (n : Nat) (p : α → Bool) {old new : List α} (ho : ∀ x ∈ old, p x = false)
    (hn : ∀ x ∈ new, p x = true) : ((old ++ new).rtake n).filter p = new.rtake n := by
  rw [filter_rtake_old n p ho, List.filter_eq_self]
  exact fun x hx => hn x (List.mem_of_mem_drop hx)

end Window
