import Mathlib.Algebra.Order.Group.Multiset
import Mathlib.Data.List.Nodup
import Mathlib.Data.List.Perm.Basic
import Mathlib.Logic.Function.Basic
import Mathlib.Order.Defs.LinearOrder
/-!
# Trees ordered by a coordinate at each node

A node compares by a coordinate of its own: those to its left have at most its value
there, those to its right at least. `coord v i` is the coordinate `i` of `v`.
-/

namespace KdTree
variable {ν ι α : Type} [LinearOrder α]

inductive SplitTree (ν ι : Type) where
  | nil
  | node (v : ν) (i : ι) (left right : SplitTree ν ι)
  deriving DecidableEq

namespace SplitTree

def toList : SplitTree ν ι → List ν
  | nil => []
  | node v _ l r => v :: (l.toList ++ r.toList)

instance instMembership : Membership ν (SplitTree ν ι) := ⟨fun t v => v ∈ t.toList⟩

variable (coord : ν → ι → α)

def Ordered : SplitTree ν ι → Prop
  | nil => True
  | node v i l r =>
    (∀ x ∈ l, coord x i ≤ coord v i) ∧ (∀ x ∈ r, coord v i ≤ coord x i) ∧ l.Ordered ∧ r.Ordered

/-- At the end of a branch, with the coordinate that `x` is to compare by. -/
def insert (x : ν) (j : ι) : SplitTree ν ι → SplitTree ν ι
  | nil => node x j nil nil
  | node v i l r => if coord x i < coord v i then node v i (l.insert x j) r else node v i l (r.insert x j)

def lesser (j : ι) (p m : ν) : ν := if coord m j < coord p j then m else p

def greater (j : ι) (p m : ν) : ν := if coord m j < coord p j then p else m

variable [DecidableEq ι]

/-- The least by the coordinate `j`; a node that compares by it has none to its right. -/
def least (j : ι) : SplitTree ν ι → Option ν
  | nil => none
  | node v i l r =>
    let p := (l.least j).elim v (lesser coord j v)
    some (if j = i then p else (r.least j).elim p (lesser coord j p))

/-- The greatest by the coordinate `j`. -/
def greatest (j : ι) : SplitTree ν ι → Option ν
  | nil => none
  | node v i l r =>
    let p := if j = i then v else (l.greatest j).elim v (greater coord j v)
    some ((r.greatest j).elim p (greater coord j p))

variable [DecidableEq ν]

/-- The least on its right or the greatest on its left takes the place of `x`, as
`select` says; one branch alone moves up. -/
def remove (select : SplitTree ν ι → SplitTree ν ι → Bool) (x : ν) : SplitTree ν ι → SplitTree ν ι
  | nil => nil
  | node v i l r =>
    if v = x then
      match l.greatest coord i, r.least coord i with
      | none, _ => r
      | _, none => l
      | some g, some m =>
        if select l r then node m i l (r.remove select m) else node g i (l.remove select g) r
    else node v i (l.remove select x) (r.remove select x)

/-- Until the queryer does not want to go on: who it is called with, and whether it
went on. A call looks into one branch, and the loop goes on with the other, each
if `left` or `right` says so. -/
def query (skew : Bool) (left right : ν → ι → Bool) (queryer : ν → Bool) : SplitTree ν ι → List ν × Bool
  | nil => ([], true)
  | node v i l r =>
    if queryer v then
      let inLeft := if left v i then l.query skew left right queryer else ([], true)
      let inRight := if right v i then r.query skew left right queryer else ([], true)
      let (first, second) := if skew then (inLeft, inRight) else (inRight, inLeft)
      if first.2 then (v :: (first.1 ++ second.1), second.2) else (v :: first.1, false)
    else ([v], false)

/-- `box i` is a bound on the coordinate `i`, from below if `low i`. A branch is looked
into with what its node says of it, the loop goes on with the box as it was. -/
def cull (low : ι → Bool) (skew : Bool) (culler : (ι → α) → Bool) (queryer : ν → Bool) :
    SplitTree ν ι → (ι → α) → List ν × Bool
  | nil, _ => ([], true)
  | node v i l r, box =>
    if !culler box then ([], true)
    else if culler (coord v) && !queryer v then ([v], false)
    else
      let called := if culler (coord v) then [v] else []
      let narrowed := if low i != skew then Function.update box i (coord v i) else box
      let first := if skew then l.cull low skew culler queryer narrowed else r.cull low skew culler queryer narrowed
      let second := if skew then r.cull low skew culler queryer box else l.cull low skew culler queryer box
      if first.2 then (called ++ (first.1 ++ second.1), second.2) else (called ++ first.1, false)

/-- The middle first, then what is before it and what is behind. -/
def build (next : ι → ι) (j : ι) (nodes : List ν) (t : SplitTree ν ι) : SplitTree ν ι :=
  match h : nodes[nodes.length / 2]? with
  | none => t
  | some v =>
    have hlt := (List.getElem?_eq_some_iff.1 h).1
    let t := build next (next j) (nodes.take (nodes.length / 2)) (t.insert coord v j)
    build next (next j) (nodes.drop (nodes.length / 2 + 1)) t
termination_by nodes.length
decreasing_by all_goals simp only [List.length_take, List.length_drop]; omega

end SplitTree

/-! ## Which there are -/

namespace SplitTree
variable {coord : ν → ι → α} {t l r : SplitTree ν ι} {v x y : ν} {i j : ι}

@[simp] theorem mem_nil : x ∉ (nil : SplitTree ν ι) := List.not_mem_nil

@[simp] theorem mem_node : x ∈ node v i l r ↔ x = v ∨ x ∈ l ∨ x ∈ r := by
  show x ∈ v :: (l.toList ++ r.toList) ↔ _
  rw [List.mem_cons, List.mem_append]
  exact Iff.rfl

theorem perm_insert : (t.insert coord x j).toList.Perm (x :: t.toList) := by
  induction t with
  | nil => exact .refl _
  | node v i l r ihl ihr =>
    rw [insert]
    split
    · refine ((ihl.append_right r.toList).cons v).trans ?_
      exact .swap x v _
    · have hright : (l.toList ++ (r.insert coord x j).toList).Perm (x :: (l.toList ++ r.toList)) :=
        (ihr.append_left l.toList).trans List.perm_middle
      exact (hright.cons v).trans (.swap x v _)

theorem mem_insert : y ∈ t.insert coord x j ↔ y = x ∨ y ∈ t :=
  perm_insert.mem_iff.trans List.mem_cons

/-- Insertion keeps the order. -/
theorem Ordered.insert (h : t.Ordered coord) : (t.insert coord x j).Ordered coord := by
  induction t with
  | nil => exact ⟨nofun, nofun, trivial, trivial⟩
  | node v i l r ihl ihr =>
    obtain ⟨hl, hr, hol, hor⟩ := h
    rw [SplitTree.insert]
    split
    · next hlt =>
      refine ⟨fun y hy => ?_, hr, ihl hol, hor⟩
      rcases mem_insert.1 hy with rfl | hy
      · exact hlt.le
      · exact hl y hy
    · next hle =>
      refine ⟨hl, fun y hy => ?_, hol, ihr hor⟩
      rcases mem_insert.1 hy with rfl | hy
      · exact not_lt.1 hle
      · exact hr y hy

section Extremes

theorem lesser_spec (coord : ν → ι → α) (j : ι) (p m : ν) : (lesser coord j p m = p ∨ lesser coord j p m = m) ∧
    coord (lesser coord j p m) j ≤ coord p j ∧ coord (lesser coord j p m) j ≤ coord m j := by
  rw [lesser]
  split
  · next h => exact ⟨.inr rfl, h.le, le_rfl⟩
  · next h => exact ⟨.inl rfl, le_rfl, not_lt.1 h⟩

theorem greater_spec (coord : ν → ι → α) (j : ι) (p m : ν) : (greater coord j p m = p ∨ greater coord j p m = m) ∧
    coord p j ≤ coord (greater coord j p m) j ∧ coord m j ≤ coord (greater coord j p m) j := by
  rw [greater]
  split
  · next h => exact ⟨.inl rfl, le_rfl, h.le⟩
  · next h => exact ⟨.inr rfl, not_lt.1 h, le_rfl⟩

variable [DecidableEq ι]

theorem least_eq_none : t.least coord j = none ↔ t = nil := by
  cases t <;> simp [least]

theorem greatest_eq_none : t.greatest coord j = none ↔ t = nil := by
  cases t <;> simp [greatest]

theorem least_branch (p : ν) (h : ∀ m, t.least coord j = some m → m ∈ t ∧ ∀ y ∈ t, coord m j ≤ coord y j) :
    ((t.least coord j).elim p (lesser coord j p) = p ∨ (t.least coord j).elim p (lesser coord j p) ∈ t) ∧
      coord ((t.least coord j).elim p (lesser coord j p)) j ≤ coord p j ∧
      ∀ y ∈ t, coord ((t.least coord j).elim p (lesser coord j p)) j ≤ coord y j := by
  cases hm : t.least coord j with
  | none =>
    rw [least_eq_none.1 hm]
    exact ⟨.inl rfl, le_rfl, nofun⟩
  | some m =>
    obtain ⟨hmem, hle⟩ := h m hm
    obtain ⟨hor, hp, hlesser⟩ := lesser_spec coord j p m
    refine ⟨hor.imp_right fun heq => ?_, hp, fun y hy => hlesser.trans (hle y hy)⟩
    rwa [Option.elim_some, heq]

theorem greatest_branch (p : ν)
    (h : ∀ m, t.greatest coord j = some m → m ∈ t ∧ ∀ y ∈ t, coord y j ≤ coord m j) :
    ((t.greatest coord j).elim p (greater coord j p) = p ∨ (t.greatest coord j).elim p (greater coord j p) ∈ t) ∧
      coord p j ≤ coord ((t.greatest coord j).elim p (greater coord j p)) j ∧
      ∀ y ∈ t, coord y j ≤ coord ((t.greatest coord j).elim p (greater coord j p)) j := by
  cases hm : t.greatest coord j with
  | none =>
    rw [greatest_eq_none.1 hm]
    exact ⟨.inl rfl, le_rfl, nofun⟩
  | some m =>
    obtain ⟨hmem, hle⟩ := h m hm
    obtain ⟨hor, hp, hgreater⟩ := greater_spec coord j p m
    refine ⟨hor.imp_right fun heq => ?_, hp, fun y hy => (hle y hy).trans hgreater⟩
    rwa [Option.elim_some, heq]

/-- What is found is least in the whole tree. -/
theorem least_spec (h : t.Ordered coord) (hx : t.least coord j = some x) : x ∈ t ∧ ∀ y ∈ t, coord x j ≤ coord y j := by
  induction t generalizing x with
  | nil => cases hx
  | node v i l r ihl ihr =>
    obtain ⟨hl, hr, hol, hor⟩ := h
    obtain ⟨hpl, hpv, hpmin⟩ := least_branch v fun m => ihl hol (x := m)
    simp only [least] at hx
    generalize (l.least coord j).elim v (lesser coord j v) = p at *
    have hp : p ∈ node v i l r := mem_node.2 (hpl.imp_right .inl)
    by_cases hj : j = i
    · subst hj
      rw [if_pos rfl] at hx
      obtain rfl := Option.some.inj hx
      refine ⟨hp, fun y hy => ?_⟩
      rcases mem_node.1 hy with rfl | hy | hy
      · exact hpv
      · exact hpmin y hy
      · exact hpv.trans (hr y hy)
    · rw [if_neg hj] at hx
      obtain rfl := Option.some.inj hx
      obtain ⟨hq, hqp, hqmin⟩ := least_branch p fun m => ihr hor (x := m)
      refine ⟨?_, fun y hy => ?_⟩
      · rcases hq with heq | hq
        · rwa [heq]
        · exact mem_node.2 (.inr (.inr hq))
      · rcases mem_node.1 hy with rfl | hy | hy
        · exact hqp.trans hpv
        · exact hqp.trans (hpmin y hy)
        · exact hqmin y hy

/-- What is found is greatest in the whole tree. -/
theorem greatest_spec (h : t.Ordered coord) (hx : t.greatest coord j = some x) :
    x ∈ t ∧ ∀ y ∈ t, coord y j ≤ coord x j := by
  induction t generalizing x with
  | nil => cases hx
  | node v i l r ihl ihr =>
    obtain ⟨hl, hr, hol, hor⟩ := h
    -- the greatest of the node and its left
    obtain ⟨p, hpdef, hp, hpv, hpmax⟩ : ∃ p,
        (if j = i then v else (l.greatest coord j).elim v (greater coord j v)) = p ∧ (p = v ∨ p ∈ l) ∧
          coord v j ≤ coord p j ∧ ∀ y ∈ l, coord y j ≤ coord p j := by
      by_cases hj : j = i
      · subst hj
        exact ⟨v, if_pos rfl, .inl rfl, le_rfl, hl⟩
      · exact ⟨_, if_neg hj, greatest_branch v fun m => ihl hol (x := m)⟩
    simp only [greatest, hpdef] at hx
    obtain rfl := Option.some.inj hx
    obtain ⟨hq, hqp, hqmax⟩ := greatest_branch p fun m => ihr hor (x := m)
    refine ⟨?_, fun y hy => ?_⟩
    · rcases hq with heq | hq
      · rw [heq]
        exact mem_node.2 (hp.imp_right .inl)
      · exact mem_node.2 (.inr (.inr hq))
    · rcases mem_node.1 hy with rfl | hy | hy
      · exact hpv.trans hqp
      · exact (hpmax y hy).trans hqp
      · exact hqmax y hy

end Extremes

/-! ## One less -/

section Remove
variable [DecidableEq ι] [DecidableEq ν] {select : SplitTree ν ι → SplitTree ν ι → Bool}

theorem remove_of_notMem (h : x ∉ t) : t.remove coord select x = t := by
  induction t with
  | nil => rfl
  | node v i l r ihl ihr =>
    rw [mem_node] at h
    push Not at h
    rw [remove, if_neg h.1.symm, ihl h.2.1, ihr h.2.2]

/-- Removal takes out that member alone. -/
theorem perm_remove (h : t.Ordered coord) (hnodup : t.toList.Nodup) :
    (t.remove coord select x).toList.Perm (t.toList.erase x) := by
  induction t generalizing x with
  | nil => exact .refl _
  | node v i l r ihl ihr =>
    obtain ⟨-, -, hol, hor⟩ := h
    obtain ⟨-, happ⟩ := List.nodup_cons.1 hnodup
    obtain ⟨hnl, hnr, hdisjoint⟩ := List.nodup_append.1 happ
    rw [remove]
    split
    · next hv =>
      subst hv
      rw [toList, List.erase_cons_head]
      split
      · next hnone =>
        rw [greatest_eq_none.1 hnone]
        exact .refl _
      · next hnone _ =>
        rw [least_eq_none.1 hnone, toList, List.append_nil]
      · next g m hg hm =>
        split
        · have hmem : m ∈ r.toList := (least_spec hor hm).1
          have hcons : (l.toList ++ m :: r.toList.erase m).Perm (l.toList ++ r.toList) :=
            (List.perm_cons_erase hmem).symm.append_left _
          refine (((ihr hor hnr).append_left l.toList).cons m).trans ?_
          exact List.perm_middle.symm.trans hcons
        · have hmem : g ∈ l.toList := (greatest_spec hol hg).1
          have hcons : (g :: l.toList.erase g ++ r.toList).Perm (l.toList ++ r.toList) :=
            (List.perm_cons_erase hmem).symm.append_right _
          exact (((ihl hol hnl).append_right r.toList).cons g).trans hcons
    · next hv =>
      have hperm : ((l.remove coord select x).toList ++ (r.remove coord select x).toList).Perm
          ((l.toList ++ r.toList).erase x) := by
        by_cases hx : x ∈ l.toList
        · have hxr : x ∉ r := fun hxr => hdisjoint x hx x hxr rfl
          rw [remove_of_notMem hxr, List.erase_append_left _ hx]
          exact (ihl hol hnl).append_right _
        · rw [remove_of_notMem hx, List.erase_append_right _ hx]
          exact (ihr hor hnr).append_left _
      rw [toList, toList, List.erase_cons_tail (by simpa using hv)]
      exact hperm.cons v

theorem mem_of_mem_remove (h : t.Ordered coord) (hnodup : t.toList.Nodup) (hy : y ∈ t.remove coord select x) :
    y ∈ t :=
  List.mem_of_mem_erase ((perm_remove h hnodup).mem_iff.1 hy)

/-- Removal keeps the order. -/
theorem Ordered.remove (h : t.Ordered coord) (hnodup : t.toList.Nodup) :
    (t.remove coord select x).Ordered coord := by
  induction t generalizing x with
  | nil => exact trivial
  | node v i l r ihl ihr =>
    obtain ⟨hl, hr, hol, hor⟩ := h
    obtain ⟨-, happ⟩ := List.nodup_cons.1 hnodup
    obtain ⟨hnl, hnr, -⟩ := List.nodup_append.1 happ
    rw [SplitTree.remove]
    split
    · split
      · exact hor
      · exact hol
      · next g m hg hm =>
        obtain ⟨hgl, hgmax⟩ := greatest_spec hol hg
        obtain ⟨hmr, hmmin⟩ := least_spec hor hm
        split
        · refine ⟨fun y hy => (hl y hy).trans (hr m hmr), fun y hy => ?_, hol, ihr hor hnr⟩
          exact hmmin y (mem_of_mem_remove hor hnr hy)
        · refine ⟨fun y hy => ?_, fun y hy => (hl g hgl).trans (hr y hy), ihl hol hnl, hor⟩
          exact hgmax y (mem_of_mem_remove hol hnl hy)
    · refine ⟨fun y hy => hl y (mem_of_mem_remove hol hnl hy), fun y hy => hr y (mem_of_mem_remove hor hnr hy),
        ihl hol hnl, ihr hor hnr⟩

end Remove

/-! ## Who is found -/

section Query
variable {skew : Bool} {left right : ν → ι → Bool} {queryer : ν → Bool}

end Query

section Cull
variable [DecidableEq ι] {low : ι → Bool} {skew : Bool} {culler : (ι → α) → Bool} {queryer : ν → Bool} {box : ι → α}

def Inside (low : ι → Bool) (box k : ι → α) : Prop := ∀ i, if low i then box i ≤ k i else k i ≤ box i

def narrowed (coord : ν → ι → α) (low : ι → Bool) (skew : Bool) (v : ν) (i : ι) (box : ι → α) : ι → α :=
  if low i != skew then Function.update box i (coord v i) else box

end Cull

/-! ## Built at once -/

theorem eq_nil_of_middle {nodes : List ν} (h : nodes[nodes.length / 2]? = none) : nodes = [] := by
  have hle := List.getElem?_eq_none_iff.1 h
  apply List.eq_nil_of_length_eq_zero
  omega

theorem split_middle {nodes : List ν} (h : nodes[nodes.length / 2]? = some v) :
    nodes.take (nodes.length / 2) ++ v :: nodes.drop (nodes.length / 2 + 1) = nodes := by
  obtain ⟨hlt, hv⟩ := List.getElem?_eq_some_iff.1 h
  rw [← hv, ← List.drop_eq_getElem_cons hlt, List.take_append_drop]

/-- All the nodes are in the tree that is built, which is ordered. -/
theorem build_spec {next : ι → ι} {nodes : List ν} (h : t.Ordered coord) :
    (build coord next j nodes t).Ordered coord ∧ (build coord next j nodes t).toList.Perm (nodes ++ t.toList) := by
  fun_induction build coord next j nodes t with
  | case1 j nodes t hnone =>
    rw [eq_nil_of_middle hnone]
    exact ⟨h, .refl _⟩
  | case2 j nodes t v hv hlt t' ih1 ih2 =>
    obtain ⟨hordered, hperm⟩ := ih1 h.insert
    obtain ⟨hbuilt, hperm'⟩ := ih2 hordered
    refine ⟨hbuilt, hperm'.trans ?_⟩
    have hjoin : nodes.take (nodes.length / 2) ++ v :: (nodes.drop (nodes.length / 2 + 1) ++ t.toList) =
        nodes ++ t.toList := by
      rw [← List.cons_append, ← List.append_assoc, split_middle hv]
    rw [← hjoin]
    refine ((hperm.trans (perm_insert.append_left _)).append_left _).trans ?_
    refine (List.perm_append_comm_assoc _ _ _).trans ?_
    exact List.perm_middle.append_left _

end SplitTree
end KdTree
