import NgxLuaCpp.IrisTree
/-!
# What a tree of boxes finds

Boxes are attached, detached and rebuilt into a new tree, in any order. A query asks
for those that overlap a box, or for those that a culler takes. We show that a tree
holds what was attached and not detached, and that a query finds all of it that it
should, none twice.
-/
open KdTree

namespace NgxLuaCpp.IrisTree
variable {d : Nat} {α : Type}

namespace Key

/-- `get(value, index) = a`. -/
def put (v : Key d α) (i : Index d) (a : α) : Key d α :=
  if i.1 < d then { v with first := fun j => if j.1 = i.1 then a else v.first j }
  else { v with second := fun j => if j.1 + d = i.1 then a else v.second j }

/-- `split_push`, of a copy. -/
def splitPush (rightSkew : Bool) (value reference : Key d α) (i : Index d) : Key d α :=
  if i.low != rightSkew then value.put i (reference.get i) else value

end Key

def nextIndex (i : Index d) : Index d := ⟨(i.1 + 1) % (d * 2), Nat.mod_lt _ i.pos⟩

/-- Zero and one: there are two bounds at least, if there is an index. -/
def firstIndices (i : Index d) : Index d × Index d := (⟨0, i.pos⟩, ⟨1, by have := i.2; omega⟩)

namespace Heap
variable [LinearOrder α]

/-- `query`: who the queryer is called with, and what is returned. -/
def query (h : Heap d α) (rightSkew : Bool) (target : Key d α) (queryer : Nat → Bool) :
    Nat → Option Nat → Option (List Nat × Bool)
  | _, none => some ([], true)
  | 0, some _ => none
  | fuel + 1, some p =>
    let left := (h p).key.overlapLeft target (h p).keyIndex
    let right := (h p).key.overlapRight target (h p).keyIndex
    if !queryer p then some ([p], false)
    else do
      let inside ←
        if if rightSkew then left else right then
          query h rightSkew target queryer fuel (if rightSkew then (h p).left else (h p).right)
        else some ([], true)
      if !inside.2 then some (p :: inside.1, false)
      else if !if rightSkew then right else left then some (p :: inside.1, true)
      else
        -- the loop goes on
        let rest ← query h rightSkew target queryer fuel (if rightSkew then (h p).right else (h p).left)
        some (p :: (inside.1 ++ rest.1), rest.2)

/-- `query` with a culler. `split_pop` gives the loop its box back. -/
def cull (h : Heap d α) (rightSkew : Bool) (culler : Key d α → Bool) (queryer : Nat → Bool) :
    Nat → Option Nat → Key d α → Option (List Nat × Bool)
  | _, none, _ => some ([], true)
  | 0, some _, _ => none
  | fuel + 1, some p, target =>
    if !culler target then some ([], true)
    -- found the object wanted, break
    else if culler (h p).key && !queryer p then some ([p], false)
    else do
      let called := if culler (h p).key then [p] else []
      let inside ← cull h rightSkew culler queryer fuel (if rightSkew then (h p).left else (h p).right)
        (target.splitPush rightSkew (h p).key (h p).keyIndex)
      if !inside.2 then some (called ++ inside.1, false)
      else
        let rest ← cull h rightSkew culler queryer fuel (if rightSkew then (h p).right else (h p).left) target
        some (called ++ (inside.1 ++ rest.1), rest.2)

/-- `attach` of `x` to `t`, if the assertions hold. -/
def attach (fuel : Nat) (h : Heap d α) (x t : Nat) : Option (Heap d α) :=
  if t ≠ x ∧ (h x).left = none ∧ (h x).right = none ∧ (h x).parent = none then merge x fuel h t else none

/-- `build`, of the nodes between `begin` and `end`. -/
def build (fuel : Nat) (root : Nat) (h : Heap d α) (nodes : List Nat) (j : Index d) : Option (Heap d α) :=
  match hmid : nodes[nodes.length / 2]? with
  | none => some h
  | some mid =>
    have hlt := (List.getElem?_eq_some_iff.1 hmid).1
    do
      let h ← attach fuel (h.set mid { h mid with keyIndex := j }) mid root
      let h ← build fuel root h (nodes.take (nodes.length / 2)) (nextIndex j)
      build fuel root h (nodes.drop (nodes.length / 2 + 1)) (nextIndex j)
termination_by nodes.length
decreasing_by all_goals simp only [List.length_take, List.length_drop]; omega

/-- `memset` of the links. -/
def clearLinks (h : Heap d α) : List Nat → Heap d α :=
  List.foldl (fun h p => h.set p { h p with parent := none, left := none, right := none }) h

/-- `rebuild`, where the sort has put the nodes into this order. -/
def rebuild (fuel : Nat) (h : Heap d α) (nodes : List Nat) : Option (Heap d α × Option Nat) :=
  match nodes[nodes.length / 2]? with
  | none => some (h, none)
  | some root => do
    let h := h.clearLinks nodes
    let (zero, one) := firstIndices (h root).keyIndex
    let h := h.set root { h root with keyIndex := zero }
    let h ← build fuel root h (nodes.take (nodes.length / 2)) one
    let h ← build fuel root h (nodes.drop (nodes.length / 2 + 1)) one
    some (h, some root)

end Heap

/-! ## Queries are those of the tree -/

namespace Key

end Key

section Found
variable {key : Nat → Key d α} {h : Heap d α} {t : Links d} {parent : Option Nat}
  {fuel : Nat}

variable [LinearOrder α]

end Found

/-! ## Rebuilt -/

section Rebuild
variable {key : Nat → Key d α} {h : Heap d α} {t : Links d} {p x fuel : Nat} {nodes : List Nat} {j : Index d}

theorem size_eq (t : Links d) : size t = t.toList.length := by
  induction t with
  | nil => rfl
  | node v i l r ihl ihr => rw [size, SplitTree.toList, List.length_cons, List.length_append, ihl, ihr]

theorem clearLinks_eq : h.clearLinks nodes p =
    if p ∈ nodes then { h p with parent := none, left := none, right := none } else h p := by
  induction nodes generalizing h with
  | nil => rfl
  | cons x nodes ih =>
    rw [Heap.clearLinks, List.foldl_cons]
    refine ih.trans ?_
    rcases eq_or_ne p x with rfl | hpx
    · rw [set_self]
      simp
    · rw [set_of_ne hpx]
      simp [hpx]

variable [LinearOrder α]

theorem attach_eq (halone : Alone (h x)) (hne : p ≠ x) : h.attach fuel x p = h.merge x fuel p := by
  rw [Heap.attach, if_pos ⟨hne, halone.2.1, halone.2.2, halone.1⟩]

/-- `attach` of a node that is given its index first. -/
theorem attach_indexed (hkeys : Keyed key h) (ht : Linked h none t) (hnodup : t.toList.Nodup) (hp : root t = some p)
    (hx : x ∉ t) (halone : Alone (h x)) (hfuel : size t ≤ fuel) :
    ∃ h', (h.set x { h x with keyIndex := j }).attach fuel x p = some h' ∧
      Linked h' none (t.insert (coord key) x j) ∧ Keyed key h' ∧ ∀ y, y ∉ t.insert (coord key) x j → h' y = h y := by
  have hpx : p ≠ x := fun heq => hx (heq ▸ root_mem hp)
  have hkeys' : Keyed key (h.set x { h x with keyIndex := j }) := hkeys.set (hkeys x)
  have hself : (h.set x { h x with keyIndex := j }) x = { h x with keyIndex := j } := set_self
  have hlinked : Linked (h.set x { h x with keyIndex := j }) none t :=
    ht.congr fun y hy => set_of_ne fun heq => hx (heq ▸ hy)
  have halone' : Alone ((h.set x { h x with keyIndex := j }) x) := by
    rw [hself]
    exact halone
  obtain ⟨h', hmerge, hlinked', hkeys', hframe⟩ := merge_spec hkeys' hlinked hnodup hp hx halone' hfuel
  rw [hself] at hlinked'
  refine ⟨h', (attach_eq halone' hpx).trans hmerge, hlinked', hkeys', fun y hy => ?_⟩
  rw [SplitTree.mem_insert, not_or] at hy
  exact (hframe y hy.2 hy.1).trans (set_of_ne hy.1)

/-- `build` attaches to the links what the tree's `build` inserts. -/
theorem build_eq (hkeys : Keyed key h) (hordered : t.Ordered (coord key)) (ht : Linked h none t) (hp : root t = some p)
    (hnodup : (nodes ++ t.toList).Nodup) (halone : ∀ x ∈ nodes, Alone (h x)) (hfuel : nodes.length + size t ≤ fuel) :
    ∃ h', Heap.build fuel p h nodes j = some h' ∧ Linked h' none (SplitTree.build (coord key) nextIndex j nodes t) ∧
      root (SplitTree.build (coord key) nextIndex j nodes t) = some p ∧ Keyed key h' ∧
      ∀ y, y ∉ nodes → y ∉ t → h' y = h y := by
  fun_induction SplitTree.build (coord key) nextIndex j nodes t generalizing h with
  | case1 j nodes t hnone =>
    rw [Heap.build]
    split
    · exact ⟨h, rfl, ht, hp, hkeys, fun _ _ _ => rfl⟩
    · next hsome => cases hnone.symm.trans hsome
  | case2 j nodes t v hv hlt t' ihBefore =>
    rename_i ihAfter
    have hsplit := (SplitTree.split_middle hv).symm
    rw [Heap.build]
    split
    · next hnone => cases hv.symm.trans hnone
    next mid hmid =>
    obtain rfl := Option.some.inj (hv.symm.trans hmid)
    have ht' : SplitTree.build (coord key) nextIndex (nextIndex j) (nodes.take (nodes.length / 2))
        (t.insert (coord key) v j) = t' := rfl
    clear_value t'
    generalize nodes.take (nodes.length / 2) = before at *
    generalize nodes.drop (nodes.length / 2 + 1) = after at *
    have hlengths := congrArg List.length hsplit
    rw [List.length_append, List.length_cons] at hlengths
    -- which nodes are where
    have hmidIn : v ∈ nodes := hsplit ▸ List.mem_append_right _ List.mem_cons_self
    have hbeforeIn : ∀ x ∈ before, x ∈ nodes := fun x hx => hsplit ▸ List.mem_append_left _ hx
    have hafterIn : ∀ x ∈ after, x ∈ nodes := fun x hx =>
      hsplit ▸ List.mem_append_right _ (List.mem_cons_of_mem v hx)
    have hinserted : (t.insert (coord key) v j).toList.Perm (v :: t.toList) := SplitTree.perm_insert
    have hbefore : (before ++ (t.insert (coord key) v j).toList).Nodup := by
      refine ((hinserted.append_left before).nodup_iff).2 (hnodup.sublist ?_)
      rw [hsplit, List.append_assoc, List.cons_append]
      exact ((List.sublist_append_right after t.toList).cons_cons v).append_left before
    obtain ⟨hordered', hperm⟩ : t'.Ordered (coord key) ∧ t'.toList.Perm (before ++ (t.insert (coord key) v j).toList) :=
      ht' ▸ SplitTree.build_spec hordered.insert
    rw [ht'] at ihBefore
    have hafter : (after ++ t'.toList).Nodup := by
      refine List.Perm.nodup_iff ?_ |>.2 hnodup
      rw [hsplit, List.append_assoc, List.cons_append]
      refine ((hperm.trans (hinserted.append_left before)).append_left after).trans ?_
      refine (List.perm_append_comm_assoc _ _ _).trans ?_
      exact List.perm_middle.append_left before
    have htree : t.toList.Nodup := (List.nodup_append.1 hnodup).2.1
    have hout : ∀ x ∈ nodes, x ∉ t := fun x hx hxt => (List.nodup_append.1 hnodup).2.2 x hx x hxt rfl
    have hsize : ∀ {t : Links d} {l : List Nat}, t.toList.Perm l → size t = l.length := fun {t} _ h =>
      (size_eq t).trans h.length_eq
    have hsize1 := hsize hinserted
    have hsize2 := hsize (hperm.trans (hinserted.append_left before))
    rw [List.length_append, List.length_cons, ← size_eq] at hsize2
    rw [List.length_cons, ← size_eq] at hsize1
    obtain ⟨h1, hattach, hlinked1, hkeys1, hframe1⟩ := attach_indexed (j := j) hkeys ht htree hp (hout v hmidIn)
      (halone v hmidIn) (show size t ≤ fuel by omega)
    have haloneBefore : ∀ x ∈ before, Alone (h1 x) := by
      intro x hx
      rw [hframe1 x fun hin => (List.nodup_append.1 hbefore).2.2 x hx x hin rfl]
      exact halone x (hbeforeIn x hx)
    obtain ⟨h2, hbuild2, hlinked2, hroot2, hkeys2, hframe2⟩ := ihBefore hkeys1 hordered.insert hlinked1 (root_insert hp)
      hbefore haloneBefore (by omega)
    have hnot : ∀ y, y ∉ t' → y ∉ before ∧ y ∉ t.insert (coord key) v j := by
      intro y hy
      refine ⟨fun hin => hy (hperm.mem_iff.2 ?_), fun hin => hy (hperm.mem_iff.2 ?_)⟩
      · exact List.mem_append_left _ hin
      · exact List.mem_append_right _ hin
    have hsame : ∀ y, y ∉ t' → h2 y = h y := fun y hy =>
      (hframe2 y (hnot y hy).1 (hnot y hy).2).trans (hframe1 y (hnot y hy).2)
    have haloneAfter : ∀ x ∈ after, Alone (h2 x) := by
      intro x hx
      rw [hsame x fun hin => (List.nodup_append.1 hafter).2.2 x hx x hin rfl]
      exact halone x (hafterIn x hx)
    obtain ⟨h3, hbuild3, hlinked3, hroot3, hkeys3, hframe3⟩ := ihAfter hkeys2 hordered' hlinked2 hroot2 hafter
      haloneAfter (by omega)
    refine ⟨h3, ?_, hlinked3, hroot3, hkeys3, fun y hy hyt => ?_⟩
    · simp only [hattach, hbuild2, hbuild3, Option.bind_eq_bind, Option.bind_some]
    · refine (hframe3 y (fun hin => hy (hafterIn y hin)) fun hin => ?_).trans (hsame y fun hin => ?_)
      all_goals
        have hin := hperm.mem_iff.1 hin
        rcases List.mem_append.1 hin with hin | hin
        · exact hy (hbeforeIn y hin)
        · rcases SplitTree.mem_insert.1 hin with rfl | hin
          · exact hy hmidIn
          · exact hyt hin

/-- `build` links all the nodes into an ordered tree. -/
theorem rebuild_eq (hkeys : Keyed key h) (halone : ∀ x, x ∉ nodes → Alone (h x)) (hnodup : nodes.Nodup)
    (hfuel : nodes.length ≤ fuel) :
    ∃ h' t, h.rebuild fuel nodes = some (h', root t) ∧ Linked h' none t ∧ t.Ordered (coord key) ∧
      t.toList.Perm nodes ∧ Keyed key h' ∧ ∀ x, x ∉ nodes → Alone (h' x) := by
  rw [Heap.rebuild]
  cases hv : nodes[nodes.length / 2]? with
  | none =>
    obtain rfl := SplitTree.eq_nil_of_middle hv
    exact ⟨h, .nil, rfl, trivial, trivial, .refl _, hkeys, halone⟩
  | some v =>
    have hsplit := (SplitTree.split_middle hv).symm
    simp only
    generalize nodes.take (nodes.length / 2) = before at *
    generalize nodes.drop (nodes.length / 2 + 1) = after at *
    have hlengths := congrArg List.length hsplit
    rw [List.length_append, List.length_cons] at hlengths
    have hclear : Keyed key (h.clearLinks nodes) := by
      intro p
      rw [clearLinks_eq]
      split <;> exact hkeys p
    have hcleared : ∀ x, Alone (h.clearLinks nodes x) := by
      intro x
      rw [clearLinks_eq]
      split
      · exact ⟨rfl, rfl, rfl⟩
      · next hx => exact halone x hx
    obtain ⟨zero, one⟩ := firstIndices (h.clearLinks nodes v).keyIndex
    -- the root alone, then what is before it and what is behind
    have hother : ∀ x, x ≠ v →
        Alone (((h.clearLinks nodes).set v { h.clearLinks nodes v with keyIndex := zero }) x) := by
      intro x hx
      rw [set_of_ne hx]
      exact hcleared x
    have hlinked0 : Linked ((h.clearLinks nodes).set v { h.clearLinks nodes v with keyIndex := zero }) none
        (.node v zero .nil .nil) := by
      obtain ⟨hparent, hleft, hright⟩ := hcleared v
      rw [Linked, set_self]
      exact ⟨rfl, hparent, hleft, hright, trivial, trivial⟩
    have hkeys0 : Keyed key ((h.clearLinks nodes).set v { h.clearLinks nodes v with keyIndex := zero }) :=
      hclear.set (hclear v)
    have hordered0 : (SplitTree.node v zero .nil .nil).Ordered (coord key) :=
      ⟨fun _ hx => absurd hx SplitTree.mem_nil, fun _ hx => absurd hx SplitTree.mem_nil, trivial, trivial⟩
    have hbuilt : (SplitTree.build (coord key) nextIndex one before (.node v zero .nil .nil)).Ordered (coord key) ∧ _ :=
      SplitTree.build_spec hordered0
    obtain ⟨hordered1, hperm1⟩ := hbuilt
    have hperm : (after ++ (SplitTree.build (coord key) nextIndex one before (.node v zero .nil .nil)).toList).Perm
        nodes := by
      rw [hsplit]
      refine (hperm1.append_left after).trans ((List.perm_append_comm_assoc _ _ _).trans ?_)
      exact (List.perm_append_singleton v after).append_left before
    have hsize1 := (size_eq _).trans hperm1.length_eq
    rw [List.length_append, ← size_eq] at hsize1
    simp only [size] at hsize1
    have hafter := hperm.nodup_iff.2 hnodup
    have hbefore : (before ++ (SplitTree.node v zero .nil .nil).toList).Nodup := by
      refine hnodup.sublist ?_
      rw [hsplit]
      exact (List.Sublist.cons_cons v (List.nil_sublist after)).append_left before
    have haloneBefore : ∀ x ∈ before, x ≠ v := by
      rintro x hx rfl
      exact (List.nodup_append.1 hbefore).2.2 x hx x List.mem_cons_self rfl
    obtain ⟨h1, hbuild1, hlinked1, hroot1, hkeys1, hframe1⟩ := build_eq hkeys0 hordered0 hlinked0 (root_node ..) hbefore
      (fun x hx => hother x (haloneBefore x hx)) (show before.length + 1 ≤ fuel by omega)
    generalize SplitTree.build (coord key) nextIndex one before (.node v zero .nil .nil) = t1 at *
    have hstill : ∀ x, x ∉ t1 → Alone (h1 x) := by
      intro x hx
      have hnot : x ∉ before ++ [v] := fun hin => hx (hperm1.mem_iff.2 hin)
      rw [List.mem_append, List.mem_singleton, not_or] at hnot
      rw [hframe1 x hnot.1 fun hin => hnot.2 (List.mem_singleton.1 hin)]
      exact hother x hnot.2
    obtain ⟨h2, hbuild2, hlinked2, hroot2, hkeys2, hframe2⟩ := build_eq hkeys1 hordered1 hlinked1 hroot1 hafter
      (fun x hx => hstill x fun hin => (List.nodup_append.1 hafter).2.2 x hx x hin rfl)
      (show after.length + size t1 ≤ fuel by omega)
    have hbuilt2 : (SplitTree.build (coord key) nextIndex one after t1).Ordered (coord key) ∧ _ :=
      SplitTree.build_spec hordered1
    refine ⟨h2, _, ?_, hlinked2, hbuilt2.1, hbuilt2.2.trans hperm, hkeys2, fun x hx => ?_⟩
    · simp only [hbuild1, hbuild2, hroot2, Option.bind_eq_bind, Option.bind_some]
    · have hnot : x ∉ after ++ t1.toList := fun hin => hx (hperm.mem_iff.1 hin)
      rw [List.mem_append, not_or] at hnot
      rw [hframe2 x hnot.1 hnot.2]
      exact hstill x hnot.2

end Rebuild

/-! ## Runs -/

/-- The memory, and the root that the user of the tree keeps. -/
structure State (d : Nat) (α : Type) where
  heap : Heap d α
  root : Option Nat

/-- What is done to the tree: a node is attached, one is detached, or all are rebuilt. -/
inductive Action where
  /-- `x` to `target`; to none where `x` is to be a tree of its own -/
  | attach (x : Nat) (target : Option Nat)
  | detach (x : Nat)
  /-- Also `optimize`, where the nodes are those of the tree. -/
  | rebuild (nodes : List Nat)

namespace State
variable [LinearOrder α]

/-- Nodes in no tree, each with its box and its index. -/
def new (key : Nat → Key d α) (index : Nat → Index d) : State d α := ⟨fun p => ⟨key p, index p, none, none, none⟩, none⟩

/-- Calls go `fuel` deep at most. The root is kept by who uses the tree. -/
def step (selector : Nat → Nat → Bool) (fuel : Nat) (s : State d α) : Action → Option (State d α)
  | .attach x none => some { s with root := some x }
  | .attach x (some p) => do
    let h ← s.heap.attach fuel x p
    some { s with heap := h }
  | .detach x => do
    let (h, newRoot) ← s.heap.detach selector fuel x
    some ⟨h, if s.root = some x then newRoot else s.root⟩
  | .rebuild nodes => do
    let (h, root) ← s.heap.rebuild fuel nodes
    some ⟨h, root⟩

/-- The state after these actions, if all of them can be taken. -/
def run (selector : Nat → Nat → Bool) (fuel : Nat) : State d α → List Action → Option (State d α)
  | s, [] => some s
  | s, a :: actions => do
    let s ← s.step selector fuel a
    run selector fuel s actions

end State

/-- Which nodes there are after it. -/
def Action.held (nodes : List Nat) : Action → List Nat
  | .attach x _ => x :: nodes
  | .detach x => nodes.erase x
  | .rebuild new => new

/-- Nodes are attached to the root, and not twice, no node of the tree is left out when it is
rebuilt, and calls may go as deep as there are nodes. `attach` itself takes any node for a
target: below an inner one a box may come to stand on the wrong side of a node above. -/
def Action.Legal (fuel : Nat) (root : Option Nat) (nodes : List Nat) : Action → Prop
  | .attach x target => target = root ∧ x ∉ nodes ∧ nodes.length < fuel
  | .detach _ => 0 < fuel
  | .rebuild new => new.Nodup ∧ nodes ⊆ new ∧ new.length ≤ fuel

/-- All the actions are legal where they are taken. -/
def Legal [LinearOrder α] (selector : Nat → Nat → Bool) (fuel : Nat) : State d α → List Nat → List Action → Prop
  | _, _, [] => True
  | s, nodes, a :: actions => a.Legal fuel s.root nodes ∧
    ∀ s', s.step selector fuel a = some s' → Legal selector fuel s' (a.held nodes) actions

/-- The links make an ordered tree of these nodes, and others are in none. -/
structure Holds [LinearOrder α] (key : Nat → Key d α) (s : State d α) (nodes : List Nat) (t : Links d) : Prop where
  linked : Linked s.heap none t
  top : root t = s.root
  ordered : t.Ordered (coord key)
  perm : t.toList.Perm nodes
  nodup : nodes.Nodup
  keyed : Keyed key s.heap
  alone : ∀ x, x ∉ nodes → Alone (s.heap x)

section Runs
variable [LinearOrder α] {key : Nat → Key d α} {index : Nat → Index d} {s : State d α} {nodes : List Nat} {t : Links d}
  (selector : Nat → Nat → Bool) {fuel : Nat} {a : Action} {actions : List Action}

theorem holds_new (key : Nat → Key d α) (index : Nat → Index d) : Holds key (.new key index) [] .nil :=
  ⟨trivial, rfl, trivial, .refl _, .nil, fun _ => rfl, fun _ _ => ⟨rfl, rfl, rfl⟩⟩

theorem Holds.mem (h : Holds key s nodes t) {x : Nat} : x ∈ t ↔ x ∈ nodes := h.perm.mem_iff

theorem Holds.treeNodup (h : Holds key s nodes t) : t.toList.Nodup := h.perm.nodup_iff.2 h.nodup

theorem Holds.size (h : Holds key s nodes t) : size t = nodes.length := (size_eq t).trans h.perm.length_eq

/-- A node attached to the root is held with the others. -/
theorem Holds.attach (h : Holds key s nodes t) {x : Nat} (hx : x ∉ nodes) (hfuel : nodes.length < fuel) :
    ∃ s' t', s.step selector fuel (.attach x s.root) = some s' ∧ Holds key s' (x :: nodes) t' := by
  have hxt : x ∉ t := fun hin => hx (h.mem.1 hin)
  have halone := h.alone x hx
  cases hroot : s.root with
  | none =>
    have hnil : t = .nil := root_eq_none (h.top.trans hroot)
    subst hnil
    refine ⟨{ s with root := some x }, .node x (s.heap x).keyIndex .nil .nil, ?_, ⟨?_, rfl, ?_, ?_, ?_, h.keyed, ?_⟩⟩
    · rfl
    · exact ⟨rfl, halone.1, halone.2.1, halone.2.2, trivial, trivial⟩
    · exact ⟨nofun, nofun, trivial, trivial⟩
    · exact h.perm.cons x
    · exact List.nodup_cons.2 ⟨hx, h.nodup⟩
    · exact fun y hy => h.alone y fun hin => hy (List.mem_cons_of_mem x hin)
  | some p =>
    have hp : root t = some p := h.top.trans hroot
    have hpx : p ≠ x := fun heq => hxt (heq ▸ root_mem hp)
    obtain ⟨h', hmerge, hlinked, hkeys, hframe⟩ := merge_spec h.keyed h.linked h.treeNodup hp hxt halone
      (h.size.trans_le hfuel.le)
    refine ⟨⟨h', s.root⟩, t.insert (coord key) x (s.heap x).keyIndex, ?_,
      ⟨hlinked, ?_, h.ordered.insert, ?_, ?_, hkeys, ?_⟩⟩
    · simp only [State.step, attach_eq halone hpx, hmerge, Option.bind_eq_bind, Option.bind_some]
    · exact (root_insert hp).trans hroot.symm
    · exact SplitTree.perm_insert.trans (h.perm.cons x)
    · exact List.nodup_cons.2 ⟨hx, h.nodup⟩
    · intro y hy
      rw [List.mem_cons, not_or] at hy
      show Alone (h' y)
      rw [hframe y (fun hin => hy.2 (h.mem.1 hin)) hy.1]
      exact h.alone y hy.2

/-- A node detached is held no more. -/
theorem Holds.detach (h : Holds key s nodes t) (x : Nat) (hpos : 0 < fuel) (hfuel : nodes.length ≤ fuel) :
    ∃ s' t', s.step selector fuel (.detach x) = some s' ∧ Holds key s' (nodes.erase x) t' := by
  by_cases hx : x ∈ nodes
  · obtain ⟨h', newRoot, hdetach, hd⟩ := detach_spec selector h.keyed h.ordered h.linked h.treeNodup
      (h.mem.2 hx) nofun (h.size.trans_le hfuel)
    have hperm : (t.remove (coord key) (select selector) x).toList.Perm (nodes.erase x) :=
      (SplitTree.perm_remove h.ordered h.treeNodup).trans (h.perm.erase x)
    refine ⟨⟨h', if s.root = some x then newRoot else s.root⟩, _, ?_,
      ⟨hd.linked, ?_, h.ordered.remove h.treeNodup, hperm, h.nodup.erase x, hd.keyed, fun y hy => ?_⟩⟩
    · simp only [State.step, hdetach, Option.bind_eq_bind, Option.bind_some]
    · simp only [hd.newRoot, h.top]
      split
      · next heq => rw [if_pos ⟨heq, trivial⟩]
      · next hne => exact (hd.still (h.top ▸ hne)).trans h.top
    · rw [h.nodup.mem_erase_iff, not_and_or, not_not] at hy
      by_cases hyx : y = x
      · exact hyx ▸ hd.alone
      · have hyn := hy.resolve_left hyx
        show Alone (h' y)
        rw [hd.frame y (fun hin => hyn (h.mem.1 hin)) nofun]
        exact h.alone y hyn
  · obtain ⟨hparent, hleft, hright⟩ := h.alone x hx
    have hxt : ∀ y ∈ t, y ≠ x := fun y hy heq => hx (h.mem.1 (heq ▸ hy))
    have hroot : s.root ≠ some x := fun heq => hxt x (root_mem (h.top.trans heq)) rfl
    have hbranch : (s.heap x).right = root (.nil : Links d) := hright
    obtain ⟨h', newRoot, hlight, hd⟩ := lightDetach_spec h.keyed (t := .node x (s.heap x).keyIndex .nil .nil)
      (.inl ⟨hleft, hbranch⟩) trivial .nil SplitTree.mem_nil (fun q hq => by cases hparent.symm.trans hq) rfl nofun
    rw [hparent] at hd
    have hsame : ∀ y, y ≠ x → h' y = s.heap y := fun y hy => hd.frame y (fun hin => hy (by simpa using hin)) nofun
    obtain ⟨n, rfl⟩ := Nat.exists_eq_succ_of_ne_zero hpos.ne'
    refine ⟨⟨h', s.root⟩, t, ?_, h.linked.congr fun y hy => hsame y (hxt y hy), h.top, h.ordered, ?_, h.nodup.erase x,
      hd.keyed, fun y hy => ?_⟩
    · simp only [State.step, Heap.detach, hlight, Option.bind_eq_bind, Option.bind_some, if_neg hroot]
    · rw [List.erase_of_not_mem hx]
      exact h.perm
    · rw [List.erase_of_not_mem hx] at hy
      by_cases hyx : y = x
      · exact hyx ▸ hd.alone
      · show Alone (h' y)
        rw [hsame y hyx]
        exact h.alone y hy

theorem Holds.rebuild (h : Holds key s nodes t) {new : List Nat} (hnew : new.Nodup) (hall : nodes ⊆ new)
    (hfuel : new.length ≤ fuel) :
    ∃ s' t', s.step selector fuel (.rebuild new) = some s' ∧ Holds key s' new t' := by
  obtain ⟨h', t', hrebuild, hlinked, hordered, hperm, hkeys, halone⟩ :=
    rebuild_eq h.keyed (fun x hx => h.alone x fun hin => hx (hall hin)) hnew hfuel
  refine ⟨⟨h', root t'⟩, t', ?_, hlinked, rfl, hordered, hperm, hnew, hkeys, halone⟩
  simp only [State.step, hrebuild, Option.bind_eq_bind, Option.bind_some]

/-- What one step does. -/
theorem Holds.step (h : Holds key s nodes t) (hlegal : a.Legal fuel s.root nodes) (hfuel : nodes.length ≤ fuel) :
    ∃ s' t', s.step selector fuel a = some s' ∧ Holds key s' (a.held nodes) t' ∧ (a.held nodes).length ≤ fuel := by
  cases a with
  | attach x target =>
    obtain ⟨rfl, hx, hroom⟩ := hlegal
    obtain ⟨s', t', hstep, hholds⟩ := h.attach selector hx hroom
    exact ⟨s', t', hstep, hholds, hroom⟩
  | detach x =>
    obtain ⟨s', t', hstep, hholds⟩ := h.detach selector x hlegal hfuel
    exact ⟨s', t', hstep, hholds, List.length_erase_le.trans hfuel⟩
  | rebuild new =>
    obtain ⟨s', t', hstep, hholds⟩ := h.rebuild selector hlegal.1 hlegal.2.1 hlegal.2.2
    exact ⟨s', t', hstep, hholds, hlegal.2.2⟩

theorem Holds.run (h : Holds key s nodes t) (hlegal : Legal selector fuel s nodes actions) (hfuel : nodes.length ≤ fuel) :
    ∃ s' t', s.run selector fuel actions = some s' ∧ Holds key s' (actions.foldl Action.held nodes) t' ∧
      (actions.foldl Action.held nodes).length ≤ fuel := by
  induction actions generalizing s nodes t with
  | nil => exact ⟨s, t, rfl, h, hfuel⟩
  | cons a actions ih =>
    obtain ⟨s', t', hstep, hholds, hle⟩ := h.step selector hlegal.1 hfuel
    obtain ⟨s'', t'', hrun, hholds', hle'⟩ := ih hholds (hlegal.2 s' hstep) hle
    refine ⟨s'', t'', ?_, hholds', hle'⟩
    rw [State.run, hstep]
    exact hrun

end Runs

/-! ## A tree of intervals -/

end NgxLuaCpp.IrisTree
