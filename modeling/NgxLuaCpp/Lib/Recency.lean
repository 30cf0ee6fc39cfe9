import Mathlib.Algebra.GroupWithZero.Nat
import Mathlib.Data.List.Nodup
import Mathlib.Data.List.Dedup
import Mathlib.Data.List.Basic
/-!
# Recency lists

A bounded store in order of last use: putting an element moves it to the
front and, when the store is full, drops the element at the back.
-/

/-- At most `cap` elements with distinct keys, the most recently used first. -/
@[ext] structure Recency {α κ : Type*} (key : α → κ) (cap : Nat) where
  items : List α
  nodup : (items.map key).Nodup
  bounded : items.length ≤ cap

namespace Recency
variable {α κ : Type*} [DecidableEq κ] {key : α → κ} {cap : Nat}

def empty : Recency key cap := ⟨[], .nil, Nat.zero_le _⟩

def find? (r : Recency key cap) (k : κ) : Option α := r.items.find? fun x => decide (key x = k)

/-- The elements with another key. -/
def others (r : Recency key cap) (k : κ) : List α := r.items.filter fun x => decide (key x ≠ k)

theorem mem_others {r : Recency key cap} {k : κ} {x : α} : x ∈ r.others k ↔ x ∈ r.items ∧ key x ≠ k := by
  simp [others]

theorem others_nodup (r : Recency key cap) (k : κ) : ((r.others k).map key).Nodup :=
  r.nodup.sublist (List.filter_sublist.map _)

theorem length_others_le (r : Recency key cap) (k : κ) : (r.others k).length ≤ r.items.length :=
  List.length_filter_le _ _

def remove (r : Recency key cap) (k : κ) : Recency key cap :=
  ⟨r.others k, r.others_nodup k, Nat.le_trans (r.length_others_le k) r.bounded⟩

/-- Drop the element at the back. -/
def dropLast (r : Recency key cap) : Recency key cap :=
  ⟨r.items.dropLast, r.nodup.sublist ((List.dropLast_sublist _).map _),
    Nat.le_trans (List.dropLast_sublist _).length_le r.bounded⟩

def put [NeZero cap] (r : Recency key cap) (x : α) : Recency key cap where
  items := x :: (r.others (key x)).take (cap - 1)
  nodup := by
    rw [List.map_cons, List.nodup_cons]
    refine ⟨fun h => ?_, (r.others_nodup _).sublist ((List.take_sublist _ _).map _)⟩
    obtain ⟨y, hy, hk⟩ := List.mem_map.1 h
    exact (mem_others.1 (List.mem_of_mem_take hy)).2 hk
  bounded := by
    have := Nat.pos_of_neZero cap
    rw [List.length_cons, List.length_take]; omega

@[simp] theorem remove_items (r : Recency key cap) (k : κ) : (r.remove k).items = r.others k := rfl

omit [DecidableEq κ] in
@[simp] theorem dropLast_items (r : Recency key cap) : r.dropLast.items = r.items.dropLast := rfl

theorem put_items [NeZero cap] (r : Recency key cap) (x : α) :
    (r.put x).items = x :: (r.others (key x)).take (cap - 1) := rfl

/-! ## Lookups -/

theorem find?_eq_some_iff (r : Recency key cap) {k : κ} {x : α} : r.find? k = some x ↔ x ∈ r.items ∧ key x = k := by
  constructor
  · intro h
    exact ⟨List.mem_of_find?_eq_some h, by simpa using List.find?_some h⟩
  · rintro ⟨hx, rfl⟩
    obtain ⟨y, hy⟩ : ∃ y, r.find? (key x) = some y := by
      rw [← Option.isSome_iff_exists, find?, List.find?_isSome]
      exact ⟨x, hx, by simp⟩
    have hk : key y = key x := by simpa using List.find?_some hy
    rw [hy, List.inj_on_of_nodup_map r.nodup (List.mem_of_find?_eq_some hy) hx hk]

theorem find?_eq_none_iff (r : Recency key cap) {k : κ} : r.find? k = none ↔ k ∉ r.items.map key := by
  simp [find?, List.find?_eq_none]

theorem isSome_find? (r : Recency key cap) {k : κ} : (r.find? k).isSome ↔ k ∈ r.items.map key := by
  rw [← not_iff_not, Option.not_isSome_iff_eq_none, r.find?_eq_none_iff]

/-! ## Which element a `put` drops -/

theorem others_of_absent {r : Recency key cap} {k : κ} (h : r.find? k = none) : r.others k = r.items := by
  rw [others, List.filter_eq_self]
  intro x hx
  have := r.find?_eq_none_iff.1 h
  simp only [List.mem_map, not_exists, not_and] at this
  simpa using this x hx

theorem length_others_of_present {r : Recency key cap} {k : κ} {x : α} (h : r.find? k = some x) :
    (r.others k).length < r.items.length := by
  obtain ⟨hx, hk⟩ := r.find?_eq_some_iff.1 h
  exact List.length_filter_lt_length_iff_exists.2 ⟨x, hx, by simp [hk]⟩

variable [NeZero cap]

/-- Refreshing a key drops nothing. -/
theorem put_present {r : Recency key cap} {x y : α} (h : r.find? (key x) = some y) :
    (r.put x).items = x :: r.others (key x) := by
  have := length_others_of_present h
  have := r.bounded
  rw [put_items, List.take_of_length_le (by omega)]

/-- Nor does a new key while there is room. -/
theorem put_room {r : Recency key cap} {x : α} (h : r.find? (key x) = none) (hr : r.items.length < cap) :
    (r.put x).items = x :: r.items := by
  rw [put_items, others_of_absent h, List.take_of_length_le (by omega)]

/-- A new key drops the last element of a full store, and nothing else. -/
theorem put_full {r : Recency key cap} {x : α} (h : r.find? (key x) = none) (hr : r.items.length = cap) :
    (r.put x).items = x :: r.items.dropLast := by
  rw [put_items, others_of_absent h, List.dropLast_eq_take, hr]

theorem find?_put_full {r : Recency key cap} {x last : α} (h : r.find? (key x) = none) (hr : r.items.length = cap)
    (hl : r.items.getLast? = some last) {k : κ} (hk : k ≠ key x) :
    (r.put x).find? k = if k = key last then none else r.find? k := by
  obtain ⟨es, hes⟩ := List.getLast?_eq_some_iff.1 hl
  have hn := r.nodup
  rw [hes, List.map_append, List.nodup_append] at hn
  rw [find?, find?, put_full h hr, hes, List.dropLast_concat, List.find?_cons_of_neg (by simpa using hk.symm),
    List.find?_append]
  by_cases hlast : k = key last
  · subst hlast
    rw [if_pos rfl, List.find?_eq_none]
    exact fun y hy => by simpa using hn.2.2 _ (List.mem_map_of_mem hy) _ (by simp)
  · rw [if_neg hlast, List.find?_cons_of_neg (by simpa using Ne.symm hlast)]
    simp

/-! ## Order of use -/

/-- How many uses ago `k` was last used, `log` listing the uses, the latest first. -/
def age (log : List κ) (k : κ) : Nat := log.idxOf k

/-- Every element was used, and elements nearer the front were used later. -/
def OrderedBy (log : List κ) (l : List κ) : Prop :=
  (∀ k ∈ l, k ∈ log) ∧ l.Pairwise fun a b => age log a < age log b

omit [NeZero cap] in
theorem OrderedBy.sublist {log l l' : List κ} (h : OrderedBy log l) (hs : l'.Sublist l) : OrderedBy log l' :=
  ⟨fun k hk => h.1 k (hs.subset hk), h.2.sublist hs⟩

theorem OrderedBy.use {log l : List κ} (h : OrderedBy log l) {k : κ} (hk : k ∉ l) : OrderedBy (k :: log) (k :: l) := by
  refine ⟨fun k' hk' => ?_, List.pairwise_cons.2 ⟨fun k' hk' => ?_, ?_⟩⟩
  · rcases List.mem_cons.1 hk' with rfl | hk'
    · simp
    · exact List.mem_cons_of_mem _ (h.1 k' hk')
  · have hne : k ≠ k' := by rintro rfl; exact hk hk'
    simp [age, hne]
  · refine h.2.imp_of_mem fun {a b} ha hb hab => ?_
    have hka : k ≠ a := by rintro rfl; exact hk ha
    have hkb : k ≠ b := by rintro rfl; exact hk hb
    simpa [age, List.idxOf_cons, hka, hkb] using hab

theorem orderedBy_put {r : Recency key cap} {log : List κ} (h : OrderedBy log (r.items.map key)) (x : α) :
    OrderedBy (key x :: log) ((r.put x).items.map key) := by
  have hs : (((r.others (key x)).take (cap - 1)).map key).Sublist (r.items.map key) :=
    ((List.take_sublist _ _).trans List.filter_sublist).map _
  have hn := (r.put x).nodup
  rw [put_items, List.map_cons, List.nodup_cons] at hn
  exact (h.sublist hs).use hn.1

/-! ## What stays -/

/-- The uses after the last use of `k`. -/
def since (log : List κ) (k : κ) : List κ := log.takeWhile fun x => decide (x ≠ k)

omit [NeZero cap] in
@[simp] theorem since_self (log : List κ) (k : κ) : since (k :: log) k = [] := by
  simp [since]

omit [NeZero cap] in
theorem since_other {log : List κ} {k x : κ} (h : x ≠ k) : since (x :: log) k = x :: since log k := by
  simp [since, h]

omit [NeZero cap] in
theorem mem_since {log : List κ} {a b : κ} (h : age log a < age log b) : a ∈ since log b := by
  induction log with
  | nil => simp [age] at h
  | cons c log ih =>
    by_cases hb : c = b
    · subst hb
      simp [age] at h
    · rw [since_other hb]
      by_cases ha : c = a
      · simp [ha]
      · rw [age, age, List.idxOf_cons_ne _ ha, List.idxOf_cons_ne _ hb] at h
        exact List.mem_cons_of_mem _ (ih (Nat.lt_of_succ_lt_succ h))

/-- An element stays while fewer than `cap` distinct keys were used since its own. -/
theorem mem_put {r : Recency key cap} {log : List κ} (h : OrderedBy log (r.items.map key)) {e x : α}
    (he : e ∈ r.items) (hne : key x ≠ key e) (hc : (since (key x :: log) (key e)).dedup.length < cap) :
    e ∈ (r.put x).items := by
  obtain ⟨newer, older, hsplit⟩ := List.append_of_mem (mem_others.2 ⟨he, hne.symm⟩)
  have hnodup := r.others_nodup (key x)
  have hord : ((r.others (key x)).map key).Pairwise fun a b => age log a < age log b :=
    h.2.sublist (List.filter_sublist.map key)
  rw [hsplit, List.map_append, List.nodup_append] at hnodup
  rw [hsplit, List.map_append, List.pairwise_append] at hord
  -- what is ahead of `e` was used since, and so is `x`
  have hfresh : (key x :: newer.map key).Nodup := by
    refine List.nodup_cons.2 ⟨?_, hnodup.1⟩
    intro hx
    obtain ⟨y, hy, hk⟩ := List.mem_map.1 hx
    exact (mem_others.1 (hsplit ▸ List.mem_append_left _ hy : y ∈ r.others (key x))).2 hk
  have hsub : key x :: newer.map key ⊆ (since (key x :: log) (key e)).dedup := by
    rw [since_other hne]
    intro k hk
    rw [List.mem_dedup]
    rcases List.mem_cons.1 hk with rfl | hk
    · exact List.mem_cons_self
    · exact List.mem_cons_of_mem _ (mem_since (hord.2.2 k hk (key e) (by simp)))
  have hlen := List.Nodup.length_le_of_subset hfresh hsub
  rw [List.length_cons, List.length_map] at hlen
  rw [put_items, hsplit]
  refine List.mem_cons_of_mem _ ?_
  rw [List.take_append, List.take_of_length_le (by omega)]
  apply List.mem_append_right
  obtain ⟨n, hn⟩ : ∃ n, cap - 1 - newer.length = n + 1 := ⟨cap - 1 - newer.length - 1, by omega⟩
  rw [hn, List.take_succ_cons]
  exact List.mem_cons_self

end Recency
