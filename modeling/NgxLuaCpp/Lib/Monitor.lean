import Mathlib.Algebra.BigOperators.Group.List.Lemmas
import Mathlib.Algebra.Order.BigOperators.Group.List
import Mathlib.Algebra.Order.Group.Nat
import Mathlib.Tactic.Abel
/-!
# Calls around a lock

Calls under way, each at some place. One of them may hold the lock, and all of
them together weigh what their places weigh.
-/

namespace Monitor
variable {π M : Type*} {calls : List π} {i j : Nat} {pc q : π}

/-! ## A call moves on -/

theorem getElem?_moved (hi : calls[i]? = some pc) {d : π} :
    (calls.set i q)[j]? = some d ↔ j = i ∧ d = q ∨ j ≠ i ∧ calls[j]? = some d := by
  rcases eq_or_ne j i with rfl | hj
  · rw [List.getElem?_set_self (List.getElem?_eq_some_iff.1 hi).1]
    simp [eq_comm]
  · rw [List.getElem?_set_ne hj.symm]
    simp [hj]

theorem getElem?_made {d : π} :
    (calls ++ [pc])[j]? = some d ↔ j = calls.length ∧ d = pc ∨ calls[j]? = some d := by
  rcases lt_trichotomy j calls.length with hj | rfl | hj
  · rw [List.getElem?_append_left hj]
    simp [hj.ne]
  · simp [eq_comm]
  · rw [List.getElem?_eq_none (by rw [List.length_append]; exact hj), List.getElem?_eq_none hj.le]
    simp [hj.ne']

theorem mem_moved (hi : calls[i]? = some pc) : q ∈ calls.set i q :=
  List.mem_of_getElem? ((getElem?_moved hi).2 (.inl ⟨rfl, rfl⟩))

/-- What one of the calls does, one still does, if it was not the one that moved on. -/
theorem exists_moved {P : π → Prop} (hi : calls[i]? = some pc) (h : ∃ d ∈ calls, P d) (hpc : P pc → P q) :
    ∃ d ∈ calls.set i q, P d := by
  obtain ⟨d, hd, hP⟩ := h
  obtain ⟨j, hj⟩ := List.mem_iff_getElem?.1 hd
  rcases eq_or_ne j i with rfl | hne
  · rw [hi] at hj
    obtain rfl := Option.some.inj hj
    exact ⟨q, mem_moved hi, hpc hP⟩
  · exact ⟨d, List.mem_of_getElem? ((getElem?_moved hi).2 (.inr ⟨hne, hj⟩)), hP⟩

/-! ## What the calls weigh -/

section Weight
variable [AddCommMonoid M] {f : π → M}

def weight (f : π → M) (calls : List π) : M := (calls.map f).sum

theorem weight_made : weight f (calls ++ [pc]) = weight f calls + f pc := by
  simp [weight]

theorem weight_moved (hi : calls[i]? = some pc) : weight f (calls.set i q) + f pc = weight f calls + f q := by
  induction calls generalizing i with
  | nil => cases hi
  | cons d calls ih =>
    cases i with
    | zero =>
      obtain rfl := Option.some.inj hi
      simp only [weight, List.set_cons_zero, List.map_cons, List.sum_cons]
      abel
    | succ i =>
      have hrest := ih (i := i) hi
      simp only [weight, List.set_cons_succ, List.map_cons, List.sum_cons] at hrest ⊢
      rw [add_assoc, hrest, add_assoc]

theorem weight_eraseIdx (hi : calls[i]? = some pc) : weight f (calls.eraseIdx i) + f pc = weight f calls := by
  induction calls generalizing i with
  | nil => cases hi
  | cons d calls ih =>
    cases i with
    | zero =>
      obtain rfl := Option.some.inj hi
      simp only [weight, List.eraseIdx_cons_zero, List.map_cons, List.sum_cons]
      abel
    | succ i =>
      have hrest := ih (i := i) hi
      simp only [weight, List.eraseIdx_cons_succ, List.map_cons, List.sum_cons] at hrest ⊢
      rw [add_assoc, hrest]

theorem weight_eq_zero (h : ∀ c ∈ calls, f c = 0) : weight f calls = 0 := by
  apply List.sum_eq_zero
  intro x hx
  obtain ⟨c, hc, rfl⟩ := List.mem_map.1 hx
  exact h c hc

theorem le_weight {f : π → Nat} (hi : calls[i]? = some pc) : f pc ≤ weight f calls := by
  apply List.single_le_sum (fun x _ => Nat.zero_le x)
  exact List.mem_map_of_mem (List.mem_of_getElem? hi)

end Weight

/-! ## Who holds the lock -/

/-- The lock names the call that is at a place that holds it. -/
def Locked (holds : π → Bool) (lock : Option Nat) (calls : List π) : Prop :=
  ∀ i, lock = some i ↔ ∃ pc, calls[i]? = some pc ∧ holds pc = true

section Locked
variable {holds : π → Bool} {lock : Option Nat}

theorem locked_nil : Locked holds none [] := by simp [Locked]

theorem Locked.made (h : Locked holds lock calls) (hpc : holds pc = false) : Locked holds lock (calls ++ [pc]) := by
  intro j
  rw [h j]
  constructor
  · rintro ⟨d, hj, hd⟩
    exact ⟨d, getElem?_made.2 (.inr hj), hd⟩
  · rintro ⟨d, hj, hd⟩
    rcases getElem?_made.1 hj with ⟨-, rfl⟩ | hj
    · rw [hpc] at hd
      cases hd
    · exact ⟨d, hj, hd⟩

theorem Locked.holder (h : Locked holds lock calls) (hi : calls[i]? = some pc) (hpc : holds pc = true) :
    lock = some i := (h i).2 ⟨pc, hi, hpc⟩

theorem Locked.unique (h : Locked holds lock calls) (hi : calls[i]? = some pc) (hpc : holds pc = true)
    (hj : calls[j]? = some q) (hq : holds q = true) : i = j := by
  have hlock := h.holder hi hpc
  rw [h.holder hj hq] at hlock
  exact (Option.some.inj hlock).symm

/-- After a call that has the lock has moved on, no other has it. -/
theorem Locked.alone (h : Locked holds lock calls) (hi : calls[i]? = some pc) (hpc : holds pc = true) {d : π}
    (hd : d ∈ calls.set i q) (hholds : holds d = true) : d = q := by
  obtain ⟨k, hk⟩ := List.mem_iff_getElem?.1 hd
  rcases (getElem?_moved hi).1 hk with ⟨-, rfl⟩ | ⟨hne, hk⟩
  · rfl
  · exact absurd (h.unique hk hholds hi hpc) hne

/-- A call goes on and keeps what it has. -/
theorem Locked.moved (h : Locked holds lock calls) (hi : calls[i]? = some pc) (hpc : holds q = holds pc) :
    Locked holds lock (calls.set i q) := by
  intro j
  rw [h j]
  constructor
  · rintro ⟨d, hj, hd⟩
    rcases eq_or_ne j i with rfl | hne
    · rw [hi] at hj
      obtain rfl := Option.some.inj hj
      exact ⟨q, (getElem?_moved hi).2 (.inl ⟨rfl, rfl⟩), hpc ▸ hd⟩
    · exact ⟨d, (getElem?_moved hi).2 (.inr ⟨hne, hj⟩), hd⟩
  · rintro ⟨d, hj, hd⟩
    rcases (getElem?_moved hi).1 hj with ⟨rfl, rfl⟩ | ⟨-, hj⟩
    · exact ⟨pc, hi, hpc ▸ hd⟩
    · exact ⟨d, hj, hd⟩

theorem Locked.acquire (h : Locked holds none calls) (hi : calls[i]? = some pc) (hpc : holds q = true) :
    Locked holds (some i) (calls.set i q) := by
  intro j
  constructor
  · rintro ⟨⟩
    exact ⟨q, (getElem?_moved hi).2 (.inl ⟨rfl, rfl⟩), hpc⟩
  · rintro ⟨d, hj, hd⟩
    rcases (getElem?_moved hi).1 hj with ⟨rfl, -⟩ | ⟨-, hj⟩
    · rfl
    · cases h.holder hj hd

theorem Locked.release (h : Locked holds lock calls) (hi : calls[i]? = some pc) (hpc : holds pc = true)
    (hq : holds q = false) : Locked holds none (calls.set i q) := by
  intro j
  constructor
  · exact nofun
  · rintro ⟨d, hj, hd⟩
    rcases (getElem?_moved hi).1 hj with ⟨-, rfl⟩ | ⟨hne, hj⟩
    · rw [hq] at hd
      cases hd
    · exact absurd (h.unique hj hd hi hpc) hne

/-- What a step of call `i` from `pc` to `q` may do with the lock. -/
def LockStep (holds : π → Bool) (i : Nat) (pc q : π) (lock lock' : Option Nat) : Prop :=
  holds q = holds pc ∧ lock' = lock ∨ lock = none ∧ holds q = true ∧ lock' = some i ∨
    holds pc = true ∧ holds q = false ∧ lock' = none

theorem Locked.step {lock' : Option Nat} (h : Locked holds lock calls) (hi : calls[i]? = some pc)
    (hstep : LockStep holds i pc q lock lock') : Locked holds lock' (calls.set i q) := by
  rcases hstep with ⟨hsame, rfl⟩ | ⟨rfl, hq, rfl⟩ | ⟨hpc, hq, rfl⟩
  · exact h.moved hi hsame
  · exact h.acquire hi hq
  · exact h.release hi hpc hq

end Locked
end Monitor
