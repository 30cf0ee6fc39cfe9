import NgxLuaCpp.Lib.SortedMap
import Mathlib.Data.List.InsertIdx
/-!
# Sorted vectors

A vector with strictly increasing keys, searched by bisection. We show that its
operations are those of the map it holds.
-/

/-! ## Bisection -/

namespace Bisect
variable {p : Nat → Bool}

/-- The loop of `std::lower_bound` and `std::upper_bound`: where `p` stops to hold, from `first` on. -/
def bisect (p : Nat → Bool) (first len : Nat) : Nat :=
  if len = 0 then first
  else
    let half := len / 2
    if p (first + half) then bisect p (first + half + 1) (len - half - 1) else bisect p first half
  termination_by len

/-- The elements that meet `p` come first. -/
def Partitioned (p : Nat → Bool) : Prop := ∀ i j, i ≤ j → p j = true → p i = true

/-- Bisection finds the point where the elements that meet `p` end. -/
theorem bisect_spec (first len : Nat) (hp : Partitioned p) :
    first ≤ bisect p first len ∧ bisect p first len ≤ first + len ∧
      (∀ i, first ≤ i → i < bisect p first len → p i = true) ∧
      ∀ i, bisect p first len ≤ i → i < first + len → p i = false := by
  fun_induction bisect p first len with
  | case1 first =>
    refine ⟨le_rfl, le_rfl, fun i h1 h2 => ?_, fun i h1 h2 => ?_⟩
    · omega
    · omega
  | case2 first len hlen half hhalf ih =>
    obtain ⟨h1, h2, h3, h4⟩ := ih
    refine ⟨by omega, by omega, fun i hi hlt => ?_, fun i hi hlt => h4 i hi (by omega)⟩
    by_cases h : first + half + 1 ≤ i
    · exact h3 i h hlt
    · exact hp i (first + half) (by omega) hhalf
  | case3 first len hlen half hhalf ih =>
    obtain ⟨h1, h2, h3, h4⟩ := ih
    refine ⟨h1, by omega, h3, fun i hi hlt => ?_⟩
    by_cases h : i < first + half
    · exact h4 i hi h
    · by_contra hpi
      exact hhalf (hp (first + half) i (by omega) (by simpa using hpi))

end Bisect

namespace SortedVector
open Bisect
variable {α κ : Type*} [LinearOrder κ] (key : α → κ)

/-- The keys of the vector strictly increase. -/
def Sorted (l : List α) : Prop := l.Pairwise fun a b => key a < key b

def lowerBound (l : List α) (k : κ) : Nat :=
  bisect (fun i => l[i]?.elim false fun x => decide (key x < k)) 0 l.length

def upperBound (l : List α) (k : κ) : Nat :=
  bisect (fun i => l[i]?.elim false fun x => decide (¬ k < key x)) 0 l.length

/-- Where the element with the key `k` is, `none` for `end`. -/
def binaryFind (l : List α) (k : κ) : Option Nat :=
  match l.getLast? with
  | none => none
  | some last =>
    -- what is beyond the last one is not searched
    if key last < k then none
    else
      let it := lowerBound key l k
      match l[it]? with
      | none => none
      | some x => if k < key x then none else some it

def binaryInsert (l : List α) (a : α) : List α :=
  let it := upperBound key l (key a)
  match it with
  | 0 => l.insertIdx it a
  | ip + 1 => if l[ip]?.elim false fun x => decide (¬ key x < key a) then l.set ip a else l.insertIdx it a

variable {key}

/-! ## The bounds -/

theorem Sorted.lt {l : List α} (h : Sorted key l) {i j : Nat} {x y : α} (hi : l[i]? = some x) (hj : l[j]? = some y)
    (hij : i < j) : key x < key y := by
  obtain ⟨hi', rfl⟩ := List.getElem?_eq_some_iff.1 hi
  obtain ⟨hj', rfl⟩ := List.getElem?_eq_some_iff.1 hj
  exact List.pairwise_iff_getElem.1 h i j hi' hj' hij

theorem partitioned_of_sorted {l : List α} (h : Sorted key l) {p : α → Bool}
    (hp : ∀ x y, key x < key y → p y = true → p x = true) :
    Partitioned fun i => l[i]?.elim false p := by
  intro i j hij hj
  cases hy : l[j]? with
  | none => simp [hy] at hj
  | some y =>
    simp only [hy, Option.elim_some] at hj
    rcases Nat.lt_or_eq_of_le hij with hlt | rfl
    · have hi : i < l.length := hlt.trans (List.getElem?_eq_some_iff.1 hy).1
      show l[i]?.elim false p = true
      rw [List.getElem?_eq_getElem hi]
      exact hp _ _ (h.lt (List.getElem?_eq_getElem hi) hy hlt) hj
    · simpa [hy] using hj

/-- `bisect` splits a sorted vector into what meets `p` and the rest. -/
theorem bisect_sorted {l : List α} (h : Sorted key l) {p : α → Bool}
    (hp : ∀ x y, key x < key y → p y = true → p x = true) :
    ∃ pre post, l = pre ++ post ∧ pre.length = bisect (fun i => l[i]?.elim false p) 0 l.length ∧
      (∀ x ∈ pre, p x = true) ∧ ∀ x ∈ post, p x = false := by
  obtain ⟨-, hle, hpre, hpost⟩ := bisect_spec 0 l.length (partitioned_of_sorted h hp)
  generalize bisect (fun i => l[i]?.elim false p) 0 l.length = n at *
  rw [Nat.zero_add] at hle hpost
  refine ⟨l.take n, l.drop n, (List.take_append_drop n l).symm, List.length_take_of_le hle, ?_, ?_⟩
  · intro x hx
    obtain ⟨i, hi⟩ := List.mem_iff_getElem?.1 hx
    have hin : i < n := by
      have := (List.getElem?_eq_some_iff.1 hi).1
      rw [List.length_take] at this
      omega
    rw [List.getElem?_take_of_lt hin] at hi
    simpa [hi] using hpre i (Nat.zero_le i) hin
  · intro x hx
    obtain ⟨i, hi⟩ := List.mem_iff_getElem?.1 hx
    rw [List.getElem?_drop] at hi
    simpa [hi] using hpost (n + i) (Nat.le_add_right n i) (List.getElem?_eq_some_iff.1 hi).1

theorem lowerBound_spec {l : List α} (h : Sorted key l) (k : κ) :
    ∃ pre post, l = pre ++ post ∧ pre.length = lowerBound key l k ∧ (∀ x ∈ pre, key x < k) ∧
      ∀ x ∈ post, k ≤ key x := by
  obtain ⟨pre, post, hl, hlen, hpre, hpost⟩ :=
    bisect_sorted (p := fun x => decide (key x < k)) h fun x y hxy hy => by simpa using hxy.trans (by simpa using hy)
  exact ⟨pre, post, hl, hlen, fun x hx => by simpa using hpre x hx, fun x hx => by simpa using hpost x hx⟩

theorem upperBound_spec {l : List α} (h : Sorted key l) (k : κ) :
    ∃ pre post, l = pre ++ post ∧ pre.length = upperBound key l k ∧ (∀ x ∈ pre, key x ≤ k) ∧
      ∀ x ∈ post, k < key x := by
  obtain ⟨pre, post, hl, hlen, hpre, hpost⟩ :=
    bisect_sorted (p := fun x => decide (¬ k < key x)) h fun x y hxy hy => by
      simpa using hxy.le.trans (by simpa using hy)
  exact ⟨pre, post, hl, hlen, fun x hx => by simpa using hpre x hx, fun x hx => by simpa using hpost x hx⟩

/-- The vector around where the key `k` belongs. -/
theorem upperBound_cases {l : List α} (h : Sorted key l) (k : κ) :
    (∃ pre x post, l = pre ++ x :: post ∧ upperBound key l k = pre.length + 1 ∧ key x = k ∧
      (∀ y ∈ pre, key y < k) ∧ ∀ y ∈ post, k < key y) ∨
    ∃ pre post, l = pre ++ post ∧ upperBound key l k = pre.length ∧ (∀ y ∈ pre, key y < k) ∧ ∀ y ∈ post, k < key y := by
  obtain ⟨pre, post, rfl, hlen, hpre, hpost⟩ := upperBound_spec h k
  rcases List.eq_nil_or_concat' pre with rfl | ⟨pre, x, rfl⟩
  · exact .inr ⟨[], post, rfl, hlen.symm, nofun, hpost⟩
  · have hx : ∀ y ∈ pre, key y < key x := by
      intro y hy
      exact (List.pairwise_append.1 (List.pairwise_append.1 h).1).2.2 y hy x (List.mem_singleton_self x)
    rcases (hpre x (by simp)).lt_or_eq with hlt | heq
    · refine .inr ⟨pre ++ [x], post, rfl, hlen.symm, fun y hy => ?_, hpost⟩
      rcases List.mem_append.1 hy with hy | hy
      · exact (hx y hy).trans hlt
      · rwa [List.mem_singleton.1 hy]
    · refine .inl ⟨pre, x, post, by simp, ?_, heq, fun y hy => heq ▸ hx y hy, hpost⟩
      rw [← hlen, List.length_append, List.length_singleton]

/-! ## The operations -/

theorem filter_lt {l : List α} {k : κ} (h : ∀ y ∈ l, key y < k) : l.filter (fun y => decide (key y < k)) = l :=
  List.filter_eq_self.2 fun y hy => by simpa using h y hy

theorem filter_gt {l : List α} {k : κ} (h : ∀ y ∈ l, k < key y) : l.filter (fun y => decide (k < key y)) = l :=
  List.filter_eq_self.2 fun y hy => by simpa using h y hy

theorem filter_lt_nil {l : List α} {k : κ} (h : ∀ y ∈ l, k ≤ key y) : l.filter (fun y => decide (key y < k)) = [] :=
  List.filter_eq_nil_iff.2 fun y hy => by simpa using h y hy

theorem filter_gt_nil {l : List α} {k : κ} (h : ∀ y ∈ l, key y ≤ k) : l.filter (fun y => decide (k < key y)) = [] :=
  List.filter_eq_nil_iff.2 fun y hy => by simpa using h y hy

theorem insertIdx_length_append {pre post : List α} {a : α} :
    (pre ++ post).insertIdx pre.length a = pre ++ a :: post := by
  induction pre with
  | nil => simp
  | cons x pre ih => simp [ih]

/-- What comes before, the element, and what comes after. -/
theorem binaryInsert_eq {l : List α} (h : Sorted key l) (a : α) :
    binaryInsert key l a =
      l.filter (fun y => decide (key y < key a)) ++ a :: l.filter fun y => decide (key a < key y) := by
  rcases upperBound_cases h (key a) with ⟨pre, x, post, rfl, hub, hx, hpre, hpost⟩ | ⟨pre, post, rfl, hub, hpre, hpost⟩
  · simp only [binaryInsert, hub]
    simp [hx, filter_lt hpre, filter_gt hpost, filter_lt_nil fun y hy => (hpost y hy).le,
      filter_gt_nil fun y hy => (hpre y hy).le]
  · have hinsert : (pre ++ post).insertIdx pre.length a = pre ++ a :: post := insertIdx_length_append
    rw [List.filter_append, List.filter_append, filter_lt hpre, filter_gt hpost,
      filter_lt_nil fun y hy => (hpost y hy).le, filter_gt_nil fun y hy => (hpre y hy).le, List.append_nil,
      List.nil_append, ← hinsert]
    simp only [binaryInsert, hub]
    rcases List.eq_nil_or_concat' pre with rfl | ⟨pre, x, rfl⟩
    · rfl
    · simp [hpre x (by simp)]

/-- The index found is that of the key, and none if there is none. -/
theorem binaryFind_spec {l : List α} (h : Sorted key l) (k : κ) :
    match binaryFind key l k with
    | some i => ∃ pre x post, l = pre ++ x :: post ∧ i = pre.length ∧ key x = k
    | none => ∀ x ∈ l, key x ≠ k := by
  rcases List.eq_nil_or_concat' l with rfl | ⟨init, last, rfl⟩
  · simp [binaryFind]
  · have hlast : ∀ y ∈ init, key y < key last := by
      intro y hy
      exact (List.pairwise_append.1 h).2.2 y hy last (List.mem_singleton_self last)
    simp only [binaryFind, List.getLast?_concat]
    by_cases hk : key last < k
    · simp only [hk, if_true]
      intro x hx
      rcases List.mem_append.1 hx with hx | hx
      · exact ((hlast x hx).trans hk).ne
      · rw [List.mem_singleton.1 hx]
        exact hk.ne
    · simp only [hk, if_false]
      obtain ⟨pre, post, hl, hlen, hpre, hpost⟩ := lowerBound_spec h k
      rw [← hlen]
      cases post with
      | nil =>
        refine absurd (hpre last ?_) hk
        rw [← List.append_nil pre, ← hl]
        simp
      | cons x post =>
        have hx : (init ++ [last])[pre.length]? = some x := by simp [hl]
        rw [hx]
        rcases (hpost x (by simp)).lt_or_eq with hlt | heq
        · simp only [hlt, if_true]
          rw [hl]
          intro y hy
          rcases List.mem_append.1 hy with hy | hy
          · exact (hpre y hy).ne
          · rw [hl] at h
            rcases List.mem_cons.1 hy with rfl | hy
            · exact hlt.ne'
            · exact (hlt.trans ((List.pairwise_cons.1 (List.pairwise_append.1 h).2.1).1 y hy)).ne'
        · simp only [heq, lt_irrefl, if_false]
          exact ⟨pre, x, post, hl, rfl, rfl⟩

theorem Sorted.binaryInsert {l : List α} (h : Sorted key l) (a : α) : Sorted key (binaryInsert key l a) := by
  rw [binaryInsert_eq h]
  refine List.pairwise_append.2 ⟨h.filter _, List.pairwise_cons.2 ⟨fun y hy => ?_, h.filter _⟩, fun x hx y hy => ?_⟩
  · simpa using (List.mem_filter.1 hy).2
  · have hlt : key x < key a := by simpa using (List.mem_filter.1 hx).2
    rcases List.mem_cons.1 hy with rfl | hy
    · exact hlt
    · exact hlt.trans (by simpa using (List.mem_filter.1 hy).2)

theorem mem_binaryInsert {l : List α} (h : Sorted key l) {a x : α} :
    x ∈ binaryInsert key l a ↔ x = a ∨ x ∈ l ∧ key x ≠ key a := by
  rw [binaryInsert_eq h]
  simp only [List.mem_append, List.mem_cons, List.mem_filter, decide_eq_true_eq, ne_iff_lt_or_gt]
  tauto

end SortedVector
