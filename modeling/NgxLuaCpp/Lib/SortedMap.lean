import Mathlib.Order.Defs.LinearOrder
import Mathlib.Order.Lattice
import Mathlib.Data.List.Perm.Basic
import Mathlib.Data.List.Nodup
/-!
# Ordered maps

A finite map kept as a list of entries with strictly increasing keys, as
`std::map` iterates it.
-/

/-- A finite map; `entries` is its in-order traversal. -/
structure SortedMap (κ ν : Type*) [LinearOrder κ] where
  entries : List (κ × ν)
  sorted : entries.Pairwise fun a b => a.1 < b.1

namespace SortedMap
variable {κ ν : Type*} [LinearOrder κ]

/-! ## Operations -/

def empty : SortedMap κ ν := ⟨[], .nil⟩

instance inhabited : Inhabited (SortedMap κ ν) := ⟨empty⟩

def find? (m : SortedMap κ ν) (k : κ) : Option ν :=
  (m.entries.find? fun e => decide (e.1 = k)).map Prod.snd

def size (m : SortedMap κ ν) : Nat := m.entries.length

def keys (m : SortedMap κ ν) : List κ := m.entries.map Prod.fst

def insertEntries (k : κ) (v : ν) : List (κ × ν) → List (κ × ν)
  | [] => [(k, v)]
  | e :: l =>
    if k < e.1 then (k, v) :: e :: l
    else if k = e.1 then (k, v) :: l
    else e :: insertEntries k v l

theorem mem_insertEntries {k : κ} {v : ν} {e : κ × ν} {l : List (κ × ν)} (h : e ∈ insertEntries k v l) :
    e = (k, v) ∨ e ∈ l := by
  induction l with
  | nil => simpa [insertEntries] using h
  | cons e' l ih =>
    simp only [insertEntries] at h
    split at h
    · simpa using h
    · split at h
      · rcases List.mem_cons.1 h with h | h
        · exact .inl h
        · exact .inr (List.mem_cons_of_mem _ h)
      · rcases List.mem_cons.1 h with rfl | h
        · simp
        · rcases ih h with h | h
          · exact .inl h
          · exact .inr (List.mem_cons_of_mem _ h)

/-- Insertion keeps the keys sorted. -/
theorem insertEntries_sorted (k : κ) (v : ν) {l : List (κ × ν)} (h : l.Pairwise fun a b => a.1 < b.1) :
    (insertEntries k v l).Pairwise fun a b => a.1 < b.1 := by
  induction l with
  | nil => simp [insertEntries]
  | cons e l ih =>
    obtain ⟨he, hl⟩ := List.pairwise_cons.1 h
    simp only [insertEntries]
    split
    · rename_i hk
      refine List.pairwise_cons.2 ⟨fun e' he' => ?_, h⟩
      rcases List.mem_cons.1 he' with rfl | he'
      · exact hk
      · exact hk.trans (he e' he')
    · split
      · rename_i hk
        exact List.pairwise_cons.2 ⟨fun e' he' => hk ▸ he e' he', hl⟩
      · rename_i h1 h2
        refine List.pairwise_cons.2 ⟨fun e' he' => ?_, ih hl⟩
        rcases mem_insertEntries he' with rfl | he'
        · exact lt_of_le_of_ne (not_lt.1 h1) (Ne.symm h2)
        · exact he e' he'

/-- `m[k] = v`. -/
def insert (m : SortedMap κ ν) (k : κ) (v : ν) : SortedMap κ ν :=
  ⟨insertEntries k v m.entries, insertEntries_sorted k v m.sorted⟩

/-- `m.erase(k)`. -/
def erase (m : SortedMap κ ν) (k : κ) : SortedMap κ ν :=
  ⟨m.entries.filter fun e => decide (e.1 ≠ k), m.sorted.filter _⟩

/-- `m.erase(m.begin())`. -/
def eraseFirst (m : SortedMap κ ν) : SortedMap κ ν :=
  ⟨m.entries.tail, m.sorted.sublist (List.tail_sublist _)⟩

@[simp] theorem eraseFirst_entries (m : SortedMap κ ν) : m.eraseFirst.entries = m.entries.tail := rfl

/-! ## Lookups -/

theorem mem_entries {m : SortedMap κ ν} {k : κ} {v : ν} : (k, v) ∈ m.entries ↔ m.find? k = some v := by
  obtain ⟨l, hl⟩ := m
  simp only [find?]
  induction l with
  | nil => simp
  | cons e l ih =>
    obtain ⟨he, hl⟩ := List.pairwise_cons.1 hl
    by_cases hk : e.1 = k
    · subst hk
      have hn : (e.1, v) ∉ l := fun hm => lt_irrefl _ (he (e.1, v) hm)
      simp [hn, Prod.ext_iff, eq_comm]
    · have hne : (k, v) ≠ e := by rintro rfl; exact hk rfl
      simp [hk, hne, ih hl]

@[simp] theorem find?_empty (k : κ) : (empty : SortedMap κ ν).find? k = none := rfl

/-- Insertion changes what is found under its key alone. -/
theorem find?_insert (m : SortedMap κ ν) (k k' : κ) (v : ν) [Decidable (k' = k)] :
    (m.insert k v).find? k' = if k' = k then some v else m.find? k' := by
  obtain ⟨l, hl⟩ := m
  simp only [find?, insert]
  induction l with
  | nil =>
    by_cases h : k' = k
    · simp [insertEntries, h]
    · simp [insertEntries, h, Ne.symm h]
  | cons e l ih =>
    have ih := ih (List.pairwise_cons.1 hl).2
    simp only [insertEntries]
    split
    · by_cases h : k' = k
      · simp [h]
      · simp [h, Ne.symm h]
    · split
      · rename_i hk
        by_cases h : k' = k
        · simp [h]
        · simp [h, Ne.symm h, ← hk]
      · rename_i h1 h2
        by_cases h : e.1 = k'
        · have : k' ≠ k := by rintro rfl; exact h2 h.symm
          simp [h, this]
        · simp only [List.find?_cons, decide_eq_false h]
          exact ih

theorem find?_erase (m : SortedMap κ ν) (k k' : κ) [Decidable (k' = k)] :
    (m.erase k).find? k' = if k' = k then none else m.find? k' := by
  simp only [find?, erase, List.find?_filter]
  by_cases h : k' = k
  · subst h
    simp
  · rw [if_neg h]
    congr 2
    funext e
    by_cases he : e.1 = k'
    · simp [he, h]
    · simp [he]

/-! ## Keys -/

theorem mem_keys {m : SortedMap κ ν} {k : κ} : k ∈ m.keys ↔ (m.find? k).isSome := by
  rw [keys, List.mem_map, Option.isSome_iff_exists]
  constructor
  · rintro ⟨⟨k, v⟩, h, rfl⟩
    exact ⟨v, mem_entries.1 h⟩
  · rintro ⟨v, h⟩
    exact ⟨(k, v), mem_entries.2 h, rfl⟩

theorem find?_eq_none {m : SortedMap κ ν} {k : κ} : m.find? k = none ↔ k ∉ m.keys := by
  rw [mem_keys, Option.not_isSome_iff_eq_none]

theorem keys_sorted (m : SortedMap κ ν) : m.keys.Pairwise (· < ·) :=
  List.pairwise_map.2 m.sorted

theorem keys_nodup (m : SortedMap κ ν) : m.keys.Nodup := m.keys_sorted.imp fun h => h.ne

theorem length_keys (m : SortedMap κ ν) : m.keys.length = m.size := List.length_map _

/-- A map's keys are those of any duplicate-free list with the same members. -/
theorem keys_perm {m : SortedMap κ ν} {l : List κ} (hn : l.Nodup) (h : ∀ k, k ∈ l ↔ (m.find? k).isSome) :
    m.keys.Perm l := by
  rw [List.perm_ext_iff_of_nodup m.keys_nodup hn]
  intro k
  rw [mem_keys, h]

/-! ## Insertion at either end -/

/-- A key past every other goes to the end. -/
theorem insert_last {m : SortedMap κ ν} {k : κ} (h : ∀ e ∈ m.entries, e.1 < k) (v : ν) :
    (m.insert k v).entries = m.entries ++ [(k, v)] := by
  have aux : ∀ l : List (κ × ν), (∀ e ∈ l, e.1 < k) → insertEntries k v l = l ++ [(k, v)] := by
    intro l
    induction l with
    | nil => simp [insertEntries]
    | cons e l ih =>
      intro h
      have he : e.1 < k := h e (by simp)
      rw [insertEntries, if_neg he.not_gt, if_neg he.ne', ih fun e' he' => h e' (by simp [he'])]
      rfl
  exact aux m.entries h

/-- A key before every other goes to the front. -/
theorem insert_first {m : SortedMap κ ν} {k : κ} (h : ∀ e ∈ m.entries, k < e.1) (v : ν) :
    (m.insert k v).entries = (k, v) :: m.entries := by
  obtain ⟨l, hl⟩ := m
  cases l with
  | nil => rfl
  | cons e l =>
    show insertEntries k v (e :: l) = _
    rw [insertEntries, if_pos (h e (by simp))]

end SortedMap
