import Mathlib.Data.List.Basic
import Mathlib.Data.List.Flatten
import Mathlib.Tactic.Ring
/-!
# Writes into a buffer

A buffer is overwritten piece by piece. Pieces that do not overlap are all found again, and
what no piece covers is left as it was.
-/

namespace ByteBuffer
variable {α : Type*}

/-- `n` elements from `i` on. -/
def slice (p : List α) (i n : ℕ) : List α := (p.drop i).take n

/-- `src` over what is there from `i` on. -/
def overwrite (p : List α) (w : ℕ × List α) : List α := p.take w.1 ++ w.2 ++ p.drop (w.1 + w.2.length)

/-- A piece ends where a range of `n` from `i` on begins, or begins where it ends. -/
def Apart (w : ℕ × List α) (i n : ℕ) : Prop := w.1 + w.2.length ≤ i ∨ i + n ≤ w.1

variable {p : List α} {w : ℕ × List α} {ws : List (ℕ × List α)} {i n : ℕ}

theorem getElem?_slice (p : List α) (i n j : ℕ) : (slice p i n)[j]? = if j < n then p[i + j]? else none := by
  unfold slice
  rw [List.getElem?_take, List.getElem?_drop]

theorem length_slice (h : i + n ≤ p.length) : (slice p i n).length = n := by
  unfold slice
  rw [List.length_take, List.length_drop]
  omega

theorem length_overwrite (h : w.1 + w.2.length ≤ p.length) : (overwrite p w).length = p.length := by
  unfold overwrite
  rw [List.length_append, List.length_append, List.length_take, List.length_drop]
  omega

theorem getElem?_overwrite (h : w.1 + w.2.length ≤ p.length) (j : ℕ) : (overwrite p w)[j]? =
    if w.1 ≤ j ∧ j < w.1 + w.2.length then w.2[j - w.1]? else p[j]? := by
  have htake : (p.take w.1).length = w.1 := by
    rw [List.length_take]
    omega
  unfold overwrite
  rw [List.append_assoc, List.getElem?_append, htake]
  split
  · rw [if_neg (by omega), List.getElem?_take, if_pos (by assumption)]
  · rw [List.getElem?_append]
    split
    · rw [if_pos (by omega)]
    · rw [if_neg (by omega), List.getElem?_drop]
      congr 1
      omega

theorem slice_overwrite_self (h : w.1 + w.2.length ≤ p.length) : slice (overwrite p w) w.1 w.2.length = w.2 := by
  apply List.ext_getElem?
  intro j
  rw [getElem?_slice, getElem?_overwrite h]
  split
  · rw [if_pos (by omega), Nat.add_sub_cancel_left]
  · rw [List.getElem?_eq_none (by omega)]

theorem slice_overwrite_of_apart (h : w.1 + w.2.length ≤ p.length) (ha : Apart w i n) :
    slice (overwrite p w) i n = slice p i n := by
  apply List.ext_getElem?
  intro j
  rw [getElem?_slice, getElem?_slice]
  split
  · rw [getElem?_overwrite h, if_neg]
    unfold Apart at ha
    omega
  · rfl

/-- Every piece is inside a buffer of length `len`. -/
def Inside (len : ℕ) (ws : List (ℕ × List α)) : Prop := ∀ w ∈ ws, w.1 + w.2.length ≤ len

theorem length_foldl_overwrite (h : Inside p.length ws) : (ws.foldl overwrite p).length = p.length := by
  induction ws generalizing p with
  | nil => rfl
  | cons w ws ih =>
    obtain ⟨hw, hws⟩ := List.forall_mem_cons.1 h
    have hlen := length_overwrite hw
    rw [List.foldl_cons, ih, hlen]
    rwa [hlen]

/-- What no piece covers stays. -/
theorem slice_foldl_of_apart (h : Inside p.length ws) (ha : ∀ w ∈ ws, Apart w i n) :
    slice (ws.foldl overwrite p) i n = slice p i n := by
  induction ws generalizing p with
  | nil => rfl
  | cons w ws ih =>
    obtain ⟨hw, hws⟩ := List.forall_mem_cons.1 h
    obtain ⟨haw, haws⟩ := List.forall_mem_cons.1 ha
    rw [List.foldl_cons, ih _ haws, slice_overwrite_of_apart hw haw]
    rwa [length_overwrite hw]

/-- Pieces in order, each past the one before, are all found. -/
theorem slice_foldl_of_mem (h : Inside p.length ws)
    (hd : ws.Pairwise fun v w => v.1 + v.2.length ≤ w.1) (hw : w ∈ ws) :
    slice (ws.foldl overwrite p) w.1 w.2.length = w.2 := by
  induction ws generalizing p with
  | nil => cases hw
  | cons v ws ih =>
    obtain ⟨hv, hws⟩ := List.forall_mem_cons.1 h
    obtain ⟨hdv, hdws⟩ := List.pairwise_cons.1 hd
    have hws' : Inside (overwrite p v).length ws := by rwa [length_overwrite hv]
    rcases List.mem_cons.1 hw with rfl | hw
    · rw [List.foldl_cons, slice_foldl_of_apart hws' fun u hu => .inr (hdv u hu), slice_overwrite_self hv]
    · exact ih hws' hdws hw

/-- A buffer is its rows. -/
theorem flatMap_slice (k n : ℕ) (p : List α) (h : p.length = k * n) :
    ((List.range k).flatMap fun y => slice p (y * n) n) = p := by
  induction k generalizing p with
  | zero =>
    rw [Nat.zero_mul, List.length_eq_zero_iff] at h
    rw [h]
    rfl
  | succ k ih =>
    rw [List.range_succ_eq_map, List.flatMap_cons, List.flatMap_map, Nat.zero_mul]
    have hrest : ∀ y, slice p (Nat.succ y * n) n = slice (p.drop n) (y * n) n := by
      intro y
      unfold slice
      rw [List.drop_drop, Nat.succ_mul, Nat.add_comm]
    simp only [hrest]
    rw [ih (p.drop n) (by rw [List.length_drop, h, Nat.succ_mul, Nat.add_sub_cancel])]
    exact List.take_append_drop n p

end ByteBuffer
