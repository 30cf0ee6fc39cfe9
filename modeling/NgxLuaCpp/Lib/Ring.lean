import Mathlib.Logic.Function.Basic
import Mathlib.Data.List.Nodup
/-!
# Intrusive rings

A circular doubly linked list through the nodes themselves, kept by a header
node. Inserting and removing are pointer updates that check nothing; they are
right for a node outside the ring, and inside it, respectively.
-/

namespace Ring
variable {N : Type*}

structure Links (N : Type*) where
  next : N → N
  prev : N → N

/-- `a` leads to `b` through the nodes `l`, and back. -/
def Path (r : Links N) (a : N) : List N → N → Prop
  | [], b => r.next a = b ∧ r.prev b = a
  | x :: l, b => (r.next a = x ∧ r.prev x = a) ∧ Path r x l b

/-- The ring of header `h` holds the nodes `l`, each once. -/
structure IsRing (r : Links N) (h : N) (l : List N) : Prop where
  path : Path r h l h
  nodup : (h :: l).Nodup

/-! ## Paths -/

section Paths
variable {r r' : Links N} {a b h x : N} {l l' : List N}

theorem path_append : Path r a (l ++ x :: l') b ↔ Path r a l x ∧ Path r x l' b := by
  induction l generalizing a with
  | nil => simp [Path]
  | cons y l ih => simp [Path, ih, and_assoc]

/-- A path only depends on the links along it. -/
theorem Path.congr (p : Path r a l b) (hn : ∀ y ∈ a :: l, r'.next y = r.next y)
    (hp : ∀ y ∈ l ++ [b], r'.prev y = r.prev y) : Path r' a l b := by
  induction l generalizing a with
  | nil => exact ⟨(hn a (by simp)).trans p.1, (hp b (by simp)).trans p.2⟩
  | cons x l ih =>
    refine ⟨⟨(hn a (by simp)).trans p.1.1, (hp x (by simp)).trans p.1.2⟩, ih p.2 ?_ ?_⟩
    · intro y hy
      exact hn y (List.mem_cons_of_mem _ hy)
    · intro y hy
      exact hp y (List.mem_cons_of_mem _ hy)

/-- The node before the end of a path. -/
theorem Path.prev_end (p : Path r a l b) : r.prev b ∈ a :: l := by
  induction l generalizing a with
  | nil => simp [p.2]
  | cons x l ih => exact List.mem_cons_of_mem _ (ih p.2)

theorem Path.next_mem (p : Path r a l b) {y : N} (hy : y ∈ a :: l) : r.next y ∈ l ++ [b] := by
  induction l generalizing a with
  | nil =>
    obtain rfl := List.mem_singleton.1 hy
    simp [p.1]
  | cons x l ih =>
    rcases List.mem_cons.1 hy with rfl | hy
    · simp [p.1.1]
    · exact List.mem_cons_of_mem _ (ih p.2 hy)

theorem Path.prev_next (p : Path r a l b) {y : N} (hy : y ∈ a :: l) : r.prev (r.next y) = y := by
  induction l generalizing a with
  | nil =>
    obtain rfl := List.mem_singleton.1 hy
    rw [p.1, p.2]
  | cons x l ih =>
    rcases List.mem_cons.1 hy with rfl | hy
    · rw [p.1.1, p.1.2]
    · exact ih p.2 hy

theorem Path.next_prev (p : Path r a l b) : r.next (r.prev b) = b := by
  induction l generalizing a with
  | nil => rw [p.2, p.1]
  | cons x l ih => exact ih p.2

/-- A path to `x` is one to `b` once its last node leads there. -/
theorem Path.retarget (p : Path r a l x) (hnd : (a :: l).Nodup) (hn : r'.next (r.prev x) = b)
    (hp : r'.prev b = r.prev x) (hnext : ∀ y, y ≠ r.prev x → r'.next y = r.next y)
    (hprev : ∀ y ∈ l, r'.prev y = r.prev y) : Path r' a l b := by
  induction l generalizing a with
  | nil =>
    have ha : r.prev x = a := p.2
    exact ⟨ha ▸ hn, ha ▸ hp⟩
  | cons y l ih =>
    obtain ⟨⟨h₁, h₂⟩, p'⟩ := p
    obtain ⟨ha, hnd⟩ := List.nodup_cons.1 hnd
    have hne : a ≠ r.prev x := fun e => ha (e ▸ p'.prev_end)
    exact ⟨⟨(hnext a hne).trans h₁, (hprev y (by simp)).trans h₂⟩,
      ih p' hnd fun z hz => hprev z (List.mem_cons_of_mem _ hz)⟩

/-- A ring that a path's first node is in holds the whole path, if it agrees on
what comes next. -/
theorem Path.subset_ring (p : Path r a l b) (hr : IsRing r' h l') (ha : a ∈ h :: l')
    (hn : ∀ y ∈ a :: l, r'.next y = r.next y) : ∀ y ∈ a :: l, y ∈ h :: l' := by
  induction l generalizing a with
  | nil =>
    intro y hy
    exact List.mem_singleton.1 hy ▸ ha
  | cons x l ih =>
    intro y hy
    have hx : x ∈ h :: l' := by
      have hm := hr.path.next_mem ha
      rw [hn a (by simp), p.1.1] at hm
      simpa [or_comm] using hm
    rcases List.mem_cons.1 hy with rfl | hy
    · exact ha
    · exact ih p.2 hx (fun z hz => hn z (List.mem_cons_of_mem _ hz)) y hy

theorem IsRing.next_header (p : IsRing r h (x :: l)) : r.next h = x := p.path.1.1

theorem IsRing.prev_header_iff (p : IsRing r h l) : r.prev h = h ↔ l = [] := by
  cases l with
  | nil => simp [p.path.2]
  | cons x l =>
    have hm := p.path.2.prev_end
    have hn := (List.nodup_cons.1 p.nodup).1
    simp only [reduceCtorEq, iff_false]
    intro he
    exact hn (he ▸ hm)
end Paths

/-! ## The operations -/

namespace Links
variable [DecidableEq N]

/-- Every node linked to itself. -/
def empty : Links N := ⟨id, id⟩

/-- `x->prev = h->prev; x->prev->next = x; x->next = h; h->prev = x`. -/
def insertTail (r : Links N) (h x : N) : Links N :=
  let prev := Function.update r.prev x (r.prev h)
  let next := Function.update r.next (prev x) x
  let next := Function.update next x h
  ⟨next, Function.update prev h x⟩

/-- `x->next->prev = x->prev; x->prev->next = x->next`. -/
def remove (r : Links N) (x : N) : Links N :=
  let prev := Function.update r.prev (r.next x) (r.prev x)
  ⟨Function.update r.next (prev x) (r.next x), prev⟩

theorem insertTail_next (r : Links N) (h x a : N) :
    (r.insertTail h x).next a = if a = x then h else if a = r.prev h then x else r.next a := by
  simp [insertTail, Function.update_apply]

theorem insertTail_prev (r : Links N) (h x a : N) :
    (r.insertTail h x).prev a = if a = h then x else if a = x then r.prev h else r.prev a := by
  simp [insertTail, Function.update_apply]

theorem remove_prev (r : Links N) (x a : N) :
    (r.remove x).prev a = if a = r.next x then r.prev x else r.prev a := by
  simp [remove, Function.update_apply]

theorem remove_next (r : Links N) (x a : N) :
    (r.remove x).next a = if a = r.prev x then r.next x else r.next a := by
  simp [remove, Function.update_apply]

end Links

theorem isRing_empty (h : N) : IsRing Links.empty h [] := ⟨⟨rfl, rfl⟩, by simp⟩

variable [DecidableEq N] {r : Links N} {a h x : N} {l l' : List N}

theorem Path.insertTail (p : Path r a l h) (hn : (a :: l).Nodup) (hx : x ∉ a :: l) (hh : h ∉ l) (hxh : x ≠ h) :
    Path (r.insertTail h x) a (l ++ [x]) h := by
  induction l generalizing a with
  | nil =>
    have hxa : a ≠ x := fun e => hx (by simp [e])
    simp [Path, Links.insertTail_next, Links.insertTail_prev, p.2, hxa, hxh]
  | cons y l ih =>
    obtain ⟨⟨h₁, h₂⟩, p'⟩ := p
    obtain ⟨ha, hn⟩ := List.nodup_cons.1 hn
    have hax : a ≠ x := fun e => hx (by simp [e])
    have hyx : y ≠ x := fun e => hx (by simp [e])
    have hyh : y ≠ h := fun e => hh (by simp [e])
    have hprev : a ≠ r.prev h := fun e => ha (e ▸ p'.prev_end)
    refine ⟨⟨?_, ?_⟩, ih p' hn (fun hm => hx (List.mem_cons_of_mem _ hm)) (fun hm => hh (List.mem_cons_of_mem _ hm))⟩
    · rw [Links.insertTail_next, if_neg hax, if_neg hprev, h₁]
    · rw [Links.insertTail_prev, if_neg hyh, if_neg hyx, h₂]

theorem IsRing.insertTail (p : IsRing r h l) (hx : x ∉ h :: l) : IsRing (r.insertTail h x) h (l ++ [x]) := by
  have hxh : x ≠ h := fun e => hx (by simp [e])
  refine ⟨p.path.insertTail p.nodup hx (List.nodup_cons.1 p.nodup).1 hxh, ?_⟩
  rw [← List.cons_append, List.nodup_append]
  refine ⟨p.nodup, List.nodup_singleton x, ?_⟩
  rintro y hy z hz rfl
  exact hx (List.mem_singleton.1 hz ▸ hy)

/-- A node removed leaves a ring of the others. -/
theorem IsRing.remove (p : IsRing r h (l ++ x :: l')) : IsRing (r.remove x) h (l ++ l') := by
  obtain ⟨p₁, p₂⟩ := path_append.1 p.path
  have hsub : (h :: (l ++ l')).Sublist (h :: (l ++ x :: l')) :=
    ((List.Sublist.refl l).append (List.sublist_cons_self x l')).cons_cons h
  have hnd := p.nodup
  rw [← List.cons_append, List.nodup_append] at hnd
  obtain ⟨hnd₁, hnd₂, hdis⟩ := hnd
  refine ⟨?_, p.nodup.sublist hsub⟩
  cases l' with
  | nil =>
    -- `x` is last: its predecessor leads to the header
    rw [List.append_nil]
    have hs : r.next x = h := p₂.1
    refine p₁.retarget hnd₁ ?_ ?_ (fun y hy => ?_) (fun y hy => ?_)
    · rw [Links.remove_next, if_pos rfl, hs]
    · rw [Links.remove_prev, if_pos hs.symm]
    · rw [Links.remove_next, if_neg hy]
    · have hyh : y ≠ r.next x := fun e => (List.nodup_cons.1 hnd₁).1 (hs ▸ e ▸ hy)
      rw [Links.remove_prev, if_neg hyh]
  | cons s l' =>
    have hs : r.next x = s := p₂.1.1
    rw [path_append]
    constructor
    · refine p₁.retarget hnd₁ ?_ ?_ (fun y hy => ?_) (fun y hy => ?_)
      · rw [Links.remove_next, if_pos rfl, hs]
      · rw [Links.remove_prev, if_pos hs.symm]
      · rw [Links.remove_next, if_neg hy]
      · have hys : y ≠ r.next x := fun e => hdis y (List.mem_cons_of_mem _ hy) s (by simp) (e.trans hs)
        rw [Links.remove_prev, if_neg hys]
    · refine p₂.2.congr (fun y hy => ?_) (fun y hy => ?_)
      · have hyq : y ≠ r.prev x := fun e => hdis _ p₁.prev_end y (List.mem_cons_of_mem _ hy) e.symm
        rw [Links.remove_next, if_neg hyq]
      · have hys : y ≠ r.next x := by
          rintro rfl
          rw [hs] at hy
          rcases List.mem_append.1 hy with hy | hy
          · exact (List.nodup_cons.1 (List.nodup_cons.1 hnd₂).2).1 hy
          · exact hdis h (by simp) s (by simp) (List.mem_singleton.1 hy).symm
        rw [Links.remove_prev, if_neg hys]

/-- Inserting a node that is in the ring breaks it: the node before it still
leads to it, but no longer back. -/
theorem IsRing.not_insertTail (p : IsRing r h l) (hx : x ∈ l) : ¬ ∃ l', IsRing (r.insertTail h x) h l' := by
  rintro ⟨l', p'⟩
  obtain ⟨l₁, l₂, rfl⟩ := List.append_of_mem hx
  obtain ⟨p₁, p₂⟩ := path_append.1 p.path
  have hnd := p.nodup
  rw [← List.cons_append, List.nodup_append] at hnd
  obtain ⟨-, -, hdis⟩ := hnd
  have hlast : ∀ y ∈ h :: l₁, y ≠ r.prev h := fun y hy => hdis y hy _ p₂.prev_end
  have hnx : ∀ y ∈ h :: l₁, y ≠ x := fun y hy => hdis y hy x (by simp)
  have hnext : ∀ y ∈ h :: l₁, (r.insertTail h x).next y = r.next y := fun y hy => by
    rw [Links.insertTail_next, if_neg (hnx y hy), if_neg (hlast y hy)]
  have hq := p₁.subset_ring p' (by simp) hnext _ p₁.prev_end
  -- in the new ring its predecessor is the last node, in the old one an earlier one
  have hback := p'.path.prev_next hq
  rw [hnext _ p₁.prev_end, p₁.next_prev, Links.insertTail_prev, if_neg (hnx h (by simp)).symm, if_pos rfl] at hback
  exact hlast _ p₁.prev_end hback.symm

end Ring
