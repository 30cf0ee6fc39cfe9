import NgxLuaCpp.Lib.SortedMap
import Mathlib.Algebra.BigOperators.Group.List.Lemmas
import Mathlib.Algebra.Ring.Nat
/-!
# Counting into a map

A map of counts that is increased once for each element of a list holds how
often each occurs.
-/

namespace SortedMap
variable {κ : Type*} [LinearOrder κ]

/-- `counts[k] += 1` -/
def bump (counts : SortedMap κ Nat) (k : κ) : SortedMap κ Nat := counts.insert k ((counts.find? k).getD 0 + 1)

/-- The counts of a list. -/
def tally (l : List κ) : SortedMap κ Nat := l.foldl bump .empty

theorem bump_empty (k : κ) : (bump .empty k).entries = [(k, 1)] := rfl

theorem find?_foldl_bump (l : List κ) (counts : SortedMap κ Nat) (k : κ) :
    (l.foldl bump counts).find? k =
      if k ∈ l then some ((counts.find? k).getD 0 + l.count k) else counts.find? k := by
  induction l generalizing counts with
  | nil => simp
  | cons j l ih =>
    rw [List.foldl_cons, ih, bump, find?_insert]
    by_cases hj : k = j
    · subst hj
      by_cases hk : k ∈ l
      · simp [hk]
        omega
      · simp [hk, List.count_eq_zero_of_not_mem hk]
    · simp [hj, Ne.symm hj]

theorem find?_tally (l : List κ) (k : κ) : (tally l).find? k = if k ∈ l then some (l.count k) else none := by
  rw [tally, find?_foldl_bump]
  simp

theorem mem_keys_tally {l : List κ} {k : κ} : k ∈ (tally l).keys ↔ k ∈ l := by
  rw [mem_keys, find?_tally]
  split <;> simp [*]

theorem keys_tally_perm (l : List κ) : (tally l).keys.Perm l.dedup := by
  refine keys_perm (List.nodup_dedup l) ?_
  intro k
  rw [← mem_keys, mem_keys_tally, List.mem_dedup]

theorem mem_entries_tally {l : List κ} {k : κ} {n : Nat} : (k, n) ∈ (tally l).entries ↔ k ∈ l ∧ n = l.count k := by
  rw [mem_entries, find?_tally]
  split <;> simp [*, eq_comm]

/-- The entries pair each key with its count. -/
theorem entries_tally (l : List κ) : (tally l).entries = (tally l).keys.map fun k => (k, l.count k) := by
  rw [keys, List.map_map]
  refine (List.map_id _).symm.trans (List.map_congr_left ?_)
  rintro ⟨k, n⟩ h
  rw [Function.comp_apply, ← (mem_entries_tally.1 h).2]
  rfl

/-- The counts add up to the length. -/
theorem sum_tally (l : List κ) : ((tally l).entries.map Prod.snd).sum = l.length := by
  rw [entries_tally, List.map_map, ← List.sum_map_count_dedup_eq_length l]
  exact ((keys_tally_perm l).map _).sum_eq

/-- The counts of some keys add up to how many elements they are. -/
theorem sum_filter_tally (p : κ → Bool) (l : List κ) :
    (((tally l).entries.filter fun e => p e.1).map Prod.snd).sum = l.countP p := by
  rw [entries_tally, List.filter_map, List.map_map, ← List.sum_map_count_dedup_filter_eq_countP p l]
  exact (((keys_tally_perm l).filter p).map _).sum_eq

theorem getD_find?_tally (l : List κ) (k : κ) : ((tally l).find? k).getD 0 = l.count k := by
  rw [find?_tally]
  split
  · rfl
  · next h => exact (List.count_eq_zero_of_not_mem h).symm

/-- Lookups of different keys add up as well. -/
theorem sum_getD_tally {ks : List κ} (hks : ks.Nodup) {p : κ → Bool} (hp : ∀ k, p k = true ↔ k ∈ ks) (l : List κ) :
    (ks.map fun k => ((tally l).find? k).getD 0).sum = l.countP p := by
  have hp' : l.countP p = l.countP fun k => decide (k ∈ ks) := List.countP_congr fun k _ => by simpa using hp k
  simp only [getD_find?_tally, hp']
  clear hp hp'
  induction ks with
  | nil => simp
  | cons k ks ih =>
    obtain ⟨hk, hks⟩ := List.nodup_cons.1 hks
    rw [List.map_cons, List.sum_cons, ih hks]
    clear ih hks
    induction l with
    | nil => rfl
    | cons j l ih =>
      rw [List.count_cons, List.countP_cons, List.countP_cons, ← ih]
      by_cases hj : j = k
      · subst hj
        simp [hk]
        omega
      · simp [hj, Nat.add_assoc]

end SortedMap
