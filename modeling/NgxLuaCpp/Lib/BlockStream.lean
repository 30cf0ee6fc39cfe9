import Mathlib.Data.List.Basic
/-!
# Streams cut into blocks

A message as its full blocks of `B` elements and what is left over. Appending
to a message only touches the leftover, so it can be processed as it arrives.
-/

namespace BlockStream
variable {α σ : Type*}

/-- The full blocks of a message, in order. -/
def blocks (B : Nat) (l : List α) : List (List α) :=
  if 0 < B ∧ B ≤ l.length then l.take B :: blocks B (l.drop B) else []
termination_by l.length
decreasing_by simp only [List.length_drop]; omega

/-- What follows the last full block. -/
def leftover (B : Nat) (l : List α) : List α := l.drop (B * (l.length / B))

theorem blocks_of_lt {B : Nat} {l : List α} (h : l.length < B) : blocks B l = [] := by
  unfold blocks
  rw [if_neg (by omega)]

theorem leftover_of_lt {B : Nat} {l : List α} (h : l.length < B) : leftover B l = l := by
  rw [leftover, Nat.div_eq_of_lt h, Nat.mul_zero, List.drop_zero]

theorem length_leftover (B : Nat) (l : List α) : (leftover B l).length = l.length % B := by
  rw [leftover, List.length_drop, Nat.mod_eq_sub]

theorem blocks_block {B : Nat} (hB : 0 < B) {b : List α} (hb : b.length = B) (l : List α) :
    blocks B (b ++ l) = b :: blocks B l := by
  rw [blocks.eq_def, if_pos (by simp; omega), List.take_left' hb, List.drop_left' hb]

theorem leftover_block {B : Nat} (hB : 0 < B) {b : List α} (hb : b.length = B) (l : List α) :
    leftover B (b ++ l) = leftover B l := by
  have hd : (b ++ l).length / B = l.length / B + 1 := by
    rw [List.length_append, hb, Nat.add_comm, Nat.add_div_right _ hB]
  rw [leftover, leftover, hd, Nat.mul_succ, Nat.add_comm, ← List.drop_drop, List.drop_left' hb]

/-- Appending to a message processes its leftover with what is appended. -/
theorem blocks_append {B : Nat} (hB : 0 < B) (l l' : List α) :
    blocks B (l ++ l') = blocks B l ++ blocks B (leftover B l ++ l') := by
  induction hn : l.length using Nat.strongRecOn generalizing l with
  | _ n ih =>
    rcases Nat.lt_or_ge l.length B with h | h
    · rw [blocks_of_lt h, leftover_of_lt h, List.nil_append]
    · have hb : (l.take B).length = B := by rw [List.length_take]; omega
      have hd : (l.drop B).length = n - B := by rw [List.length_drop, hn]
      have e := ih (n - B) (by omega) (l.drop B) hd
      have e₁ := blocks_block hB hb (l.drop B)
      have e₂ := blocks_block hB hb (l.drop B ++ l')
      have e₃ := leftover_block hB hb (l.drop B)
      rw [← List.append_assoc, List.take_append_drop] at e₂
      rw [List.take_append_drop] at e₁ e₃
      rw [e₂, e, e₁, e₃, List.cons_append]

theorem leftover_append {B : Nat} (hB : 0 < B) (l l' : List α) :
    leftover B (l ++ l') = leftover B (leftover B l ++ l') := by
  induction hn : l.length using Nat.strongRecOn generalizing l with
  | _ n ih =>
    rcases Nat.lt_or_ge l.length B with h | h
    · rw [leftover_of_lt h]
    · have hb : (l.take B).length = B := by rw [List.length_take]; omega
      have hd : (l.drop B).length = n - B := by rw [List.length_drop, hn]
      have e := ih (n - B) (by omega) (l.drop B) hd
      have e₂ := leftover_block hB hb (l.drop B ++ l')
      have e₃ := leftover_block hB hb (l.drop B)
      rw [← List.append_assoc, List.take_append_drop] at e₂
      rw [List.take_append_drop] at e₃
      rw [e₂, e, e₃]

end BlockStream
