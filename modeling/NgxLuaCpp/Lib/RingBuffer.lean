import Mathlib.Data.List.Basic
import Mathlib.Data.Nat.ModEq
import Mathlib.Logic.Function.Basic
/-!
# Ring buffers of raw storage

The slots of a ring of `n` hold an object or nothing. An object is constructed in a
free slot only, and only an object is destroyed: the rest has no value.
-/

namespace RingBuffer
variable {α : Type*}

/-- What each slot holds. -/
abbrev Slots (α : Type*) := ℕ → Option α

def construct (slots : Slots α) (i : ℕ) (x : α) : Option (Slots α) :=
  match slots i with
  | none => some (Function.update slots i (some x))
  | some _ => none

def destroy (slots : Slots α) (i : ℕ) : Option (Slots α) :=
  match slots i with
  | some _ => some (Function.update slots i none)
  | none => none

/-- `k` slots from `i` on. -/
def destroyRun (slots : Slots α) : ℕ → ℕ → Option (Slots α)
  | 0, _ => some slots
  | k + 1, i => do destroyRun (← destroy slots i) k (i + 1)

/-- The ring holds `l`, its first element in the slot of `start`, and nothing else. -/
structure Holds (n start : ℕ) (slots : Slots α) (l : List α) : Prop where
  length_le : l.length ≤ n
  slot : ∀ i < n, slots ((start + i) % n) = l[i]?

variable {n start start' i j k : ℕ} {slots : Slots α} {l : List α} {x : α}

theorem slot_inj (hi : i < n) (hj : j < n) (h : (start + i) % n = (start + j) % n) : i = j := by
  have hij : i ≡ j [MOD n] := Nat.ModEq.add_left_cancel' start h
  rwa [Nat.ModEq, Nat.mod_eq_of_lt hi, Nat.mod_eq_of_lt hj] at hij

theorem holds_nil (n start : ℕ) : Holds n start (fun _ => none) ([] : List α) := ⟨Nat.zero_le n, fun _ _ => rfl⟩

theorem Holds.congr (h : Holds n start slots l) (hs : start % n = start' % n) : Holds n start' slots l := by
  refine ⟨h.length_le, fun i hi => ?_⟩
  rw [Nat.add_mod, ← hs, ← Nat.add_mod]
  exact h.slot i hi

/-- The slot after the last element is free for another. -/
theorem Holds.construct (h : Holds n start slots l) (hl : l.length < n) (x : α) :
    ∃ slots', construct slots ((start + l.length) % n) x = some slots' ∧ Holds n start slots' (l ++ [x]) := by
  have hfree : slots ((start + l.length) % n) = none := by
    rw [h.slot _ hl, List.getElem?_eq_none (le_refl _)]
  refine ⟨Function.update slots ((start + l.length) % n) (some x), ?_, ?_, ?_⟩
  · unfold RingBuffer.construct
    rw [hfree]
  · rw [List.length_append, List.length_singleton]
    exact hl
  · intro i hi
    rcases eq_or_ne i l.length with rfl | hne
    · rw [Function.update_self, List.getElem?_concat_length]
    · rw [Function.update_of_ne fun he => hne (slot_inj hi hl he), h.slot i hi]
      rcases lt_or_gt_of_ne hne with hlt | hgt
      · rw [List.getElem?_append_left hlt]
      · rw [List.getElem?_eq_none hgt.le, List.getElem?_eq_none]
        rw [List.length_append, List.length_singleton]
        exact hgt

theorem Holds.first (h : Holds n start slots (x :: l)) : slots (start % n) = some x := by
  have hn : 0 < n := Nat.lt_of_lt_of_le (Nat.succ_pos _) h.length_le
  exact h.slot 0 hn

/-- The first element goes. -/
theorem Holds.destroy (h : Holds n start slots (x :: l)) :
    ∃ slots', destroy slots (start % n) = some slots' ∧ Holds n (start + 1) slots' l := by
  have hlen : l.length + 1 ≤ n := h.length_le
  refine ⟨Function.update slots (start % n) none, ?_, Nat.le_of_succ_le hlen, ?_⟩
  · unfold RingBuffer.destroy
    rw [h.first]
  · intro i hi
    rw [Nat.add_assoc, Nat.add_comm 1 i]
    rcases eq_or_ne (i + 1) n with hlast | hne
    · -- once around
      rw [hlast, Nat.add_mod_right, Function.update_self, List.getElem?_eq_none]
      omega
    · have hi' : i + 1 < n := by omega
      rw [Function.update_of_ne, h.slot (i + 1) hi', List.getElem?_cons_succ]
      intro he
      have := slot_inj (j := 0) hi' (by omega) he
      omega

/-- Elements destroyed up to the end of the ring are the first ones. -/
theorem Holds.destroyRun (h : Holds n start slots l) (hk : k ≤ l.length) (hend : start % n + k ≤ n) :
    ∃ slots', destroyRun slots k (start % n) = some slots' ∧ Holds n (start + k) slots' (l.drop k) := by
  induction k generalizing start slots l with
  | zero => exact ⟨slots, rfl, by simpa using h⟩
  | succ k ih =>
    cases l with
    | nil => simp at hk
    | cons x l =>
      obtain ⟨slots₁, hone, h₁⟩ := h.destroy
      rw [RingBuffer.destroyRun, hone]
      rw [List.length_cons, Nat.add_le_add_iff_right] at hk
      cases k with
      | zero => exact ⟨slots₁, rfl, by simpa using h₁⟩
      | succ k =>
        have hnext : (start + 1) % n = start % n + 1 := by
          rw [← Nat.mod_add_mod, Nat.mod_eq_of_lt (by omega)]
        obtain ⟨slots', hrest, h'⟩ := ih h₁ hk (by omega)
        refine ⟨slots', ?_, ?_⟩
        · rw [← hnext]
          exact hrest
        · rw [List.drop_succ_cons, ← Nat.add_comm 1, ← Nat.add_assoc]
          exact h'

end RingBuffer
