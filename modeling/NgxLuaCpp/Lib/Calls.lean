import NgxLuaCpp.Lib.Monitor
import Mathlib.Algebra.Order.Group.Multiset
import Mathlib.Data.List.Basic
import Mathlib.Order.Nat
/-!
# Calls on threads

The calls that threads have made, the later ones behind, each with where it is.
A call that runs a task waits for it: the task makes calls of its own, and only
when they are over may it return. `ended` and `waits` say which places those are.
-/

namespace Calls
variable {π : Type*}

structure Call (π : Type*) where
  thread : Nat
  pc : π
  deriving DecidableEq

variable (ended waits : π → Bool)

/-- A thread can make a call: outside all calls, or from a task. -/
def free (calls : List (Call π)) (thread : Nat) : Bool :=
  calls.all fun c => c.thread != thread || ended c.pc || waits c.pc

/-- No later call of a thread is left. -/
def innermost (calls : List (Call π)) (thread j : Nat) : Bool :=
  (calls.drop (j + 1)).all fun c => c.thread != thread || ended c.pc

/-- A call of a thread waits while a later one of it is left. -/
def Nested (calls : List (Call π)) : Prop :=
  ∀ (i j : Nat) (a b : Call π), i < j → calls[i]? = some a → calls[j]? = some b → a.thread = b.thread →
    ended b.pc = true ∨ ended a.pc = true ∨ waits a.pc = true

variable {ended waits} {calls : List (Call π)} {thread i j : Nat} {c d : Call π} {pc : π}

theorem free_iff : free ended waits calls thread = true ↔
    ∀ (i : Nat) (d : Call π), calls[i]? = some d → d.thread = thread → ended d.pc = true ∨ waits d.pc = true := by
  simp only [free, List.all_eq_true, List.mem_iff_getElem?, Bool.or_eq_true, bne_iff_ne, ne_eq, or_assoc]
  constructor
  · intro h i d hd ht
    exact (h d ⟨i, hd⟩).resolve_left (not_not.2 ht)
  · rintro h d ⟨i, hd⟩
    by_cases ht : d.thread = thread
    · exact .inr (h i d hd ht)
    · exact .inl ht

theorem innermost_iff : innermost ended calls thread j = true ↔
    ∀ (k : Nat) (d : Call π), j < k → calls[k]? = some d → d.thread = thread → ended d.pc = true := by
  simp only [innermost, List.all_eq_true, List.mem_iff_getElem?, List.getElem?_drop, forall_exists_index,
    Bool.or_eq_true, bne_iff_ne, ne_eq]
  constructor
  · intro h k d hk hd ht
    have hget : calls[j + 1 + (k - (j + 1))]? = some d := by
      rw [Nat.add_sub_cancel' hk]
      exact hd
    exact (h d _ hget).resolve_left (not_not.2 ht)
  · intro h d k hd
    by_cases ht : d.thread = thread
    · exact .inr (h _ d (by omega) hd ht)
    · exact .inl ht

/-- A call of the list with one of them moved on. -/
theorem getElem?_moved (hj : calls[j]? = some c) : (calls.set j ⟨c.thread, pc⟩)[i]? = some d ↔
    i = j ∧ d = ⟨c.thread, pc⟩ ∨ i ≠ j ∧ calls[i]? = some d := by
  rcases eq_or_ne i j with rfl | hij
  · rw [List.getElem?_set_self (List.getElem?_eq_some_iff.1 hj).1]
    simp [eq_comm]
  · rw [List.getElem?_set_ne hij.symm]
    simp [hij]

theorem getElem?_made :
    (calls ++ [c])[i]? = some d ↔ i = calls.length ∧ d = c ∨ i < calls.length ∧ calls[i]? = some d := by
  rcases lt_trichotomy i calls.length with hi | rfl | hi
  · rw [List.getElem?_append_left hi]
    simp [hi, hi.ne]
  · simp [eq_comm]
  · rw [List.getElem?_eq_none (by rw [List.length_append]; exact hi)]
    simp [hi.ne', hi.not_gt]

theorem getElem?_made_of_ne (h : i ≠ calls.length) : (calls ++ [c])[i]? = calls[i]? := by
  rcases lt_or_gt_of_ne h with hi | hi
  · rw [List.getElem?_append_left hi]
  · rw [List.getElem?_eq_none (by rw [List.length_append]; exact hi), List.getElem?_eq_none hi.le]

/-- Some call meets `P`. -/
def Any (P : Call π → Prop) (calls : List (Call π)) : Prop := ∃ (i : Nat) (d : Call π), calls[i]? = some d ∧ P d

section Any
variable {P Q : Call π → Prop}

theorem any_moved (hj : calls[j]? = some c) (h : P ⟨c.thread, pc⟩) : Any P (calls.set j ⟨c.thread, pc⟩) :=
  ⟨j, _, (getElem?_moved hj).2 (.inl ⟨rfl, rfl⟩), h⟩

/-- What another call does, it goes on doing. -/
theorem Any.moved (h : Any P calls) (hj : calls[j]? = some c) (hc : P c → Q ⟨c.thread, pc⟩)
    (hother : ∀ (i : Nat) (d : Call π), i ≠ j → calls[i]? = some d → P d → Q d) :
    Any Q (calls.set j ⟨c.thread, pc⟩) := by
  obtain ⟨i, d, hi, hd⟩ := h
  rcases eq_or_ne i j with rfl | hij
  · rw [hj] at hi
    cases hi
    exact any_moved hj (hc hd)
  · exact ⟨i, d, (getElem?_moved hj).2 (.inr ⟨hij, hi⟩), hother i d hij hi hd⟩

theorem Any.made (h : Any P calls) : Any P (calls ++ [c]) := by
  obtain ⟨i, d, hi, hd⟩ := h
  exact ⟨i, d, getElem?_made.2 (.inr ⟨(List.getElem?_eq_some_iff.1 hi).1, hi⟩), hd⟩

theorem any_made (h : P c) : Any P (calls ++ [c]) := ⟨_, c, getElem?_made.2 (.inl ⟨rfl, rfl⟩), h⟩

end Any

theorem nested_nil : Nested ended waits ([] : List (Call π)) := by simp [Nested]

theorem Nested.made (h : Nested ended waits calls) (hfree : free ended waits calls thread = true) :
    Nested ended waits (calls ++ [⟨thread, pc⟩]) := by
  intro i j a b hij ha hb ht
  rw [getElem?_made] at ha hb
  rcases hb with ⟨rfl, rfl⟩ | ⟨hj, hb⟩
  · rcases ha with ⟨rfl, -⟩ | ⟨-, ha⟩
    · exact absurd hij (lt_irrefl _)
    · exact .inr (free_iff.1 hfree i a ha ht)
  · rcases ha with ⟨rfl, -⟩ | ⟨-, ha⟩
    · exact absurd (hij.trans hj) (lt_irrefl _)
    · exact h i j a b hij ha hb ht

/-- A call moves on, and a waiting one only when it is innermost. -/
theorem Nested.moved (h : Nested ended waits calls) (hj : calls[j]? = some c) (hover : ended c.pc = false)
    (hwaits : waits c.pc = true → innermost ended calls c.thread j = true) :
    Nested ended waits (calls.set j ⟨c.thread, pc⟩) := by
  intro i k a b hik ha hb ht
  rw [getElem?_moved hj] at ha hb
  rcases ha with ⟨rfl, rfl⟩ | ⟨-, ha⟩
  · rcases hb with ⟨rfl, -⟩ | ⟨-, hb⟩
    · exact absurd hik (lt_irrefl _)
    · rcases h i k c b hik hj hb ht with hb' | hc | hc
      · exact .inl hb'
      · rw [hover] at hc
        cases hc
      · exact .inl (innermost_iff.1 (hwaits hc) k b hik hb ht.symm)
  · rcases hb with ⟨rfl, rfl⟩ | ⟨-, hb⟩
    · rcases h i k a c hik ha hj ht with hc | ha'
      · rw [hover] at hc
        cases hc
      · exact .inr ha'
    · exact h i k a b hik ha hb ht

/-- Two calls of a thread that neither wait nor are over are the same. -/
theorem Nested.active (h : Nested ended waits calls) {a b : Call π} (ha : calls[i]? = some a) (hb : calls[j]? = some b)
    (ht : a.thread = b.thread) (hoa : ended a.pc = false) (hwa : waits a.pc = false) (hob : ended b.pc = false)
    (hwb : waits b.pc = false) : i = j := by
  rcases lt_trichotomy i j with hij | hij | hij
  · have := h i j a b hij ha hb ht
    simp [hob, hoa, hwa] at this
  · exact hij
  · have := h j i b a hij hb ha ht.symm
    simp [hob, hoa, hwb] at this

/-! ## What the calls carry -/

section Load
variable {β : Type*} {f : π → Multiset β}

/-- All that the calls carry with them, each by where it is. -/
def load (f : π → Multiset β) (calls : List (Call π)) : Multiset β := Monitor.weight (fun c => f c.pc) calls

theorem load_made : load f (calls ++ [c]) = load f calls + f c.pc := Monitor.weight_made

theorem load_moved (hj : calls[j]? = some c) :
    load f (calls.set j ⟨c.thread, pc⟩) + f c.pc = load f calls + f pc := Monitor.weight_moved hj

end Load
end Calls
