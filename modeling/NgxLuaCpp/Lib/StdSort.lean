import Mathlib.Data.List.Pairwise
import Mathlib.Data.List.Sort
/-!
# Sorting with a comparison

`std::sort` puts a range in the order of a strict weak ordering. What it does
with equivalent elements is not said, so it is any function that sorts.
-/

/-- A comparison with which a range can be sorted. -/
structure StrictWeak {α : Type} (lt : α → α → Bool) : Prop where
  asymm : ∀ a b, lt a b = true → lt b a = false
  negTrans : ∀ a b c, lt b a = false → lt c b = false → lt c a = false

structure StdSort where
  sort : {α : Type} → (α → α → Bool) → List α → List α
  perm : ∀ {α : Type} {lt : α → α → Bool}, StrictWeak lt → ∀ l, (sort lt l).Perm l
  sorted : ∀ {α : Type} {lt : α → α → Bool}, StrictWeak lt → ∀ l, (sort lt l).Pairwise fun a b => lt b a = false

namespace StdSort
variable {α : Type} {lt : α → α → Bool}

/-- A comparison by a key. -/
theorem strictWeak_key {β : Type*} [LinearOrder β] (key : α → β) : StrictWeak fun a b => decide (key a < key b) where
  asymm a b h := by simpa using (of_decide_eq_true h).le
  negTrans a b c h h' := by simpa using le_trans (by simpa using h) (by simpa using h')

/-- A range whose elements all differ in the order has one sorted form. -/
theorem sort_of_sorted (sorter : StdSort) (h : StrictWeak lt) {l : List α} (hl : l.Pairwise fun a b => lt a b = true) :
    sorter.sort lt l = l := by
  have hdiffer : ∀ a b, a ∈ sorter.sort lt l → b ∈ l → lt b a = false → lt a b = false → a = b := by
    intro a b ha hb hab hba
    by_contra hne
    have ha : a ∈ l := (sorter.perm h l).subset ha
    have : Std.Symm fun a b => lt a b = true ∨ lt b a = true := ⟨fun _ _ h => h.symm⟩
    have hone : l.Pairwise fun a b => lt a b = true ∨ lt b a = true := hl.imp fun h => .inl h
    rcases hone.forall ha hb hne with hlt | hlt
    · simp [hlt] at hba
    · simp [hlt] at hab
  exact (sorter.perm h l).eq_of_pairwise hdiffer (sorter.sorted h l) (hl.imp fun hab => h.asymm _ _ hab)

/-! ## Two sorts -/

theorem pairwise_insertionSort (h : StrictWeak lt) (l : List α) :
    (l.insertionSort fun a b => lt b a = false).Pairwise fun a b => lt b a = false := by
  have : Std.Total fun a b => lt b a = false := by
    refine ⟨fun a b => ?_⟩
    cases hba : lt b a with
    | false => exact .inl rfl
    | true => exact .inr (h.asymm b a hba)
  have : IsTrans α fun a b => lt b a = false := ⟨h.negTrans⟩
  exact List.pairwise_insertionSort _ l

/-- Equivalent elements stay in order. -/
def stable : StdSort where
  sort lt l := l.insertionSort fun a b => lt b a = false
  perm _ l := List.perm_insertionSort _ l
  sorted := pairwise_insertionSort

/-- Equivalent elements are turned around. -/
def turning : StdSort where
  sort lt l := l.reverse.insertionSort fun a b => lt b a = false
  perm _ l := (List.perm_insertionSort _ l.reverse).trans l.reverse_perm
  sorted h l := pairwise_insertionSort h l.reverse

theorem pair_sublist {a b : α} {l : List α} (ha : a ∈ l) (hb : b ∈ l) (hne : a ≠ b) :
    [a, b].Sublist l ∨ [b, a].Sublist l := by
  obtain ⟨s, t, rfl⟩ := List.append_of_mem ha
  rcases List.mem_append.1 hb with hb | hb
  · exact .inr ((List.singleton_sublist.2 hb).append (List.singleton_sublist.2 (by simp)))
  · refine .inl ((List.Sublist.cons_cons a (List.singleton_sublist.2 ?_)).trans (List.sublist_append_right s _))
    simpa [Ne.symm hne] using hb

/-- Either order of two equivalent elements is that of some sort. -/
theorem exists_sort_pair {a b : α} {l : List α} (ha : a ∈ l) (hb : b ∈ l) (hne : a ≠ b) (hab : lt b a = false) :
    ∃ sorter : StdSort, [a, b].Sublist (sorter.sort lt l) := by
  rcases pair_sublist ha hb hne with h | h
  · exact ⟨stable, List.pair_sublist_insertionSort hab h⟩
  · exact ⟨turning, List.pair_sublist_insertionSort hab h.reverse⟩

end StdSort
