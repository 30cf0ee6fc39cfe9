import NgxLuaCpp.Lib.KdTree
/-!
# Boxes in a tree

`iris_tree_t` keeps boxes in a tree whose nodes are linked by pointers. A node
compares by its own coordinate: the lower bounds are the coordinates below `d`, the
upper ones the others. We show that what is done to the links is done to the tree.

A node stands at an address. `detach` goes deeper only into what is left below a
node, so that a depth of calls as large as the tree is enough.
-/
open KdTree

namespace NgxLuaCpp.IrisTree
variable {d : Nat} {α : Type}

/-- `std::pair` of the lower and the upper bounds. -/
structure Key (d : Nat) (α : Type) where
  first : Fin d → α
  second : Fin d → α

/-- `index_t` -/
abbrev Index (d : Nat) := Fin (d * 2)

/-- The index is one of the lower corner. -/
def Index.low (i : Index d) : Bool := i.1 < d

namespace Key

/-- The coordinate of a box at an index, of its lower or upper corner. -/
def get (v : Key d α) (i : Index d) : α :=
  if h : i.1 < d then v.first ⟨i.1, h⟩ else v.second ⟨i.1 - d, by omega⟩

variable [LinearOrder α]

/-- Whether `rhs` goes to the left of `lhs`. -/
def compare (lhs rhs : Key d α) (i : Index d) : Bool := rhs.get i < lhs.get i

def overlapLeft (lhs rhs : Key d α) (i : Index d) : Bool :=
  if h : i.1 < d then true else !(lhs.get i < rhs.get ⟨i.1 - d, by omega⟩)

def overlapRight (lhs rhs : Key d α) (i : Index d) : Bool :=
  if h : i.1 < d then !(rhs.get ⟨i.1 + d, by omega⟩ < lhs.get i) else true

end Key

/-- `iris_tree_t`: a box, the index it splits at, and the links. -/
structure Node (d : Nat) (α : Type) where
  key : Key d α
  keyIndex : Index d
  parent : Option Nat
  left : Option Nat
  right : Option Nat

/-- What is stored at every address. -/
abbrev Heap (d : Nat) (α : Type) := Nat → Node d α

namespace Heap
variable (h : Heap d α)

def set (p : Nat) (n : Node d α) : Heap d α := Function.update h p n

def setParent (p : Nat) (parent : Option Nat) : Heap d α := h.set p { h p with parent := parent }

/-- `set_parent` of a node there may not be. -/
def setParent? (p : Option Nat) (parent : Option Nat) : Heap d α := p.elim h fun p => h.setParent p parent

/-- `*pp = child`, for the pointer of `q` to `p`. -/
def setChild (q p : Nat) (child : Option Nat) : Heap d α :=
  h.set q (if (h q).left = some p then { h q with left := child } else { h q with right := child })

variable [LinearOrder α]

/-- `merge`, from `p` down. -/
def merge (t : Nat) : Nat → Heap d α → Nat → Option (Heap d α)
  | 0, _, _ => none
  | fuel + 1, h, p =>
    let left := (h p).key.compare (h t).key (h p).keyIndex
    match if left then (h p).left else (h p).right with
    | none =>
      let h := h.set p (if left then { h p with left := some t } else { h p with right := some t })
      some (h.setParent t (some p))
    | some q => merge t fuel h q

/-- `light_detach`: the new root, if a branch is empty. -/
def lightDetach (p : Nat) : Option (Heap d α × Option Nat) := do
  let (h, newRoot) ← match (h p).left, (h p).right with
    | some _, some _ => none
    | some l, none =>
      let h := h.setParent l (h p).parent
      some (h.set p { h p with left := none }, some l)
    | none, some r =>
      let h := h.setParent r (h p).parent
      some (h.set p { h p with right := none }, some r)
    | none, none => some (h, none)
  -- detach from parent
  match (h p).parent with
  | some q => some ((h.setChild q p newRoot).setParent p none, none)
  | none => some (h, newRoot)

/-- The replacement of `p` by what is found below a pointer, if that is better. -/
def pick (find : Nat → Option Nat) (better : Nat → Nat → Bool) (p : Nat) : Option Nat → Option Nat
  | none => some p
  | some child => do
    let compare ← find child
    some (if better p compare then compare else p)

/-- `find_minimal` at the index `j`; calls deeper than the fuel are none. -/
def findMinimal (j : Index d) : Nat → Nat → Option Nat
  | 0, _ => none
  | fuel + 1, this => do
    let better p compare := (h p).key.compare (h compare).key j
    let p ← pick (findMinimal j fuel) better this (h this).left
    -- if index == get_index(), then right_node must be greater than this, skip
    if j ≠ (h this).keyIndex then pick (findMinimal j fuel) better p (h this).right else some p

/-- `find_maximal` at the index `j`; calls deeper than the fuel are none. -/
def findMaximal (j : Index d) : Nat → Nat → Option Nat
  | 0, _ => none
  | fuel + 1, this => do
    let better p compare := !(h p).key.compare (h compare).key j
    -- if index == get_index(), then left_node must be less than this, skip
    let p ← if j ≠ (h this).keyIndex then pick (findMaximal j fuel) better this (h this).left else some this
    pick (findMaximal j fuel) better p (h this).right

/-- The swap of the indices and the links. -/
def swapLinks (p q : Nat) : Heap d α :=
  (h.set p { h q with key := (h p).key }).set q { h p with key := (h q).key }

/-- `detach`, with what `selector` says of two children. -/
def detach (selector : Nat → Nat → Bool) : Nat → Heap d α → Nat → Option (Heap d α × Option Nat)
  | 0, _, _ => none
  | fuel + 1, h, this =>
    match h.lightDetach this with
    | some light => some light
    | none => do
      let l ← (h this).left
      let r ← (h this).right
      -- find replacer tree node
      let p ← if selector l r then h.findMinimal (h this).keyIndex fuel r else h.findMaximal (h this).keyIndex fuel l
      -- detach cascaded
      let (h, _) ← detach selector fuel h p
      -- assign new topology relationship
      let (h, newRoot) := match (h this).parent with
        | some q => (h.setChild q this (some p), none)
        | none => (h, some p)
      let h := h.setParent? (h this).left (some p)
      let h := h.setParent? (h this).right (some p)
      -- replace links
      some (h.swapLinks this p, newRoot)

end Heap

/-! ## The tree that the links make -/

def coord (key : Nat → Key d α) (p : Nat) (i : Index d) : α := (key p).get i

/-- The tree the links make, with an index at each node. -/
abbrev Links (d : Nat) := SplitTree Nat (Index d)

def root : Links d → Option Nat
  | .nil => none
  | .node p _ _ _ => some p

/-- `t` is what is linked below a pointer, whose node has `parent` for its parent. -/
def Linked (h : Heap d α) : Option Nat → Links d → Prop
  | _, .nil => True
  | parent, .node p i l r =>
    (h p).keyIndex = i ∧ (h p).parent = parent ∧ (h p).left = root l ∧ (h p).right = root r ∧
      Linked h (some p) l ∧ Linked h (some p) r

/-- The keys are these. -/
def Keyed (key : Nat → Key d α) (h : Heap d α) : Prop := ∀ p, (h p).key = key p

/-- In no tree. -/
def Alone (n : Node d α) : Prop := n.parent = none ∧ n.left = none ∧ n.right = none

def size : Links d → Nat
  | .nil => 0
  | .node _ _ l r => size l + size r + 1

variable {key : Nat → Key d α} {h h' : Heap d α} {t l r : Links d} {p q x y : Nat} {i : Index d} {parent : Option Nat}

theorem root_mem (ht : root t = some p) : p ∈ t := by
  cases t with
  | nil => cases ht
  | node v i l r =>
    obtain rfl := Option.some.inj ht
    exact SplitTree.mem_node.2 (.inl rfl)

theorem root_eq_none (ht : root t = none) : t = .nil := by
  cases t with
  | nil => rfl
  | node v i l r => cases ht

theorem Linked.congr (ht : Linked h parent t) (heq : ∀ y ∈ t, h' y = h y) : Linked h' parent t := by
  induction t generalizing parent with
  | nil => trivial
  | node v i l r ihl ihr =>
    obtain ⟨hindex, hparent, hleft, hright, hl, hr⟩ := ht
    have hv : h' v = h v := heq v (SplitTree.mem_node.2 (.inl rfl))
    rw [Linked, hv]
    exact ⟨hindex, hparent, hleft, hright, ihl hl fun y hy => heq y (SplitTree.mem_node.2 (.inr (.inl hy))),
      ihr hr fun y hy => heq y (SplitTree.mem_node.2 (.inr (.inr hy)))⟩

/-- Below another node, or none. -/
theorem Linked.setParent? (ht : Linked h parent t) (hnodup : t.toList.Nodup) (other : Option Nat) :
    Linked (h.setParent? (root t) other) other t := by
  cases t with
  | nil => trivial
  | node v i l r =>
    obtain ⟨hindex, hparent, hleft, hright, hl, hr⟩ := ht
    obtain ⟨hv, -⟩ := List.nodup_cons.1 hnodup
    have hother : ∀ y, y ≠ v → h.setParent v other y = h y := fun y hy => Function.update_of_ne hy _ _
    have hself : h.setParent v other v = { h v with parent := other } := Function.update_self ..
    show Linked (h.setParent v other) other (.node v i l r)
    rw [Linked, hself]
    refine ⟨hindex, rfl, hleft, hright, hl.congr fun y hy => hother y ?_, hr.congr fun y hy => hother y ?_⟩
    · rintro rfl
      exact hv (List.mem_append_left _ hy)
    · rintro rfl
      exact hv (List.mem_append_right _ hy)

/-! ## What is read -/

section Read
variable [LinearOrder α] {j : Index d} {fuel : Nat}

theorem compare_iff (hkeys : Keyed key h) : (h p).key.compare (h q).key j = decide (coord key q j < coord key p j) := by
  rw [Key.compare, hkeys p, hkeys q]
  rfl

/-- What is found below a pointer is what is in the tree there. -/
theorem pick_eq {find : Nat → Option Nat} {better : Nat → Nat → Bool} {found : Option Nat} {f : Nat → Nat → Nat}
    (hbetter : ∀ a m, (if better a m then m else a) = f a m) (hfind : ∀ q, root t = some q → find q = found)
    (hfound : found = none ↔ t = .nil) (a : Nat) : Heap.pick find better a (root t) = some (found.elim a (f a)) := by
  cases t with
  | nil =>
    rw [hfound.2 rfl]
    rfl
  | node v i l r =>
    cases hm : found with
    | none => cases hfound.1 hm
    | some m =>
      show (find v).bind (fun m => some (if better a m then m else a)) = some (f a m)
      rw [hfind v rfl, hm, Option.bind_some, hbetter]

/-- On linked nodes, `find_minimal` finds the least of the tree. -/
theorem findMinimal_eq (hkeys : Keyed key h) (ht : Linked h parent t) (hp : root t = some p) (hfuel : size t ≤ fuel) :
    h.findMinimal j fuel p = t.least (coord key) j := by
  induction t generalizing fuel p parent with
  | nil => cases hp
  | node v i l r ihl ihr =>
    obtain rfl := Option.some.inj hp
    obtain ⟨hindex, -, hleft, hright, hl, hr⟩ := ht
    cases fuel with
    | zero => cases hfuel
    | succ fuel =>
      have hfuel : size l + size r ≤ fuel := Nat.le_of_succ_le_succ hfuel
      have hbetter : ∀ a m, (if (h a).key.compare (h m).key j then m else a) = SplitTree.lesser (coord key) j a m := by
        intro a m
        simp only [compare_iff hkeys, decide_eq_true_eq, SplitTree.lesser]
      have hlfound : ∀ q, root l = some q → h.findMinimal j fuel q = l.least (coord key) j :=
        fun q hq => ihl hl hq (by omega)
      have hinLeft := pick_eq hbetter hlfound SplitTree.least_eq_none
      have hrfound : ∀ q, root r = some q → h.findMinimal j fuel q = r.least (coord key) j :=
        fun q hq => ihr hr hq (by omega)
      have hinRight := pick_eq hbetter hrfound SplitTree.least_eq_none
      simp only [Heap.findMinimal, hleft, hright, hindex, hinLeft, hinRight, Option.bind_eq_bind, Option.bind_some,
        SplitTree.least]
      by_cases hj : j = i <;> simp [hj]

/-- On linked nodes, `find_maximal` finds the greatest of the tree. -/
theorem findMaximal_eq (hkeys : Keyed key h) (ht : Linked h parent t) (hp : root t = some p) (hfuel : size t ≤ fuel) :
    h.findMaximal j fuel p = t.greatest (coord key) j := by
  induction t generalizing fuel p parent with
  | nil => cases hp
  | node v i l r ihl ihr =>
    obtain rfl := Option.some.inj hp
    obtain ⟨hindex, -, hleft, hright, hl, hr⟩ := ht
    cases fuel with
    | zero => cases hfuel
    | succ fuel =>
      have hfuel : size l + size r ≤ fuel := Nat.le_of_succ_le_succ hfuel
      have hbetter : ∀ a m, (if !(h a).key.compare (h m).key j then m else a) =
          SplitTree.greater (coord key) j a m := by
        intro a m
        rw [compare_iff hkeys, SplitTree.greater]
        by_cases hlt : coord key m j < coord key a j <;> simp [hlt]
      have hlfound : ∀ q, root l = some q → h.findMaximal j fuel q = l.greatest (coord key) j :=
        fun q hq => ihl hl hq (by omega)
      have hinLeft := pick_eq hbetter hlfound SplitTree.greatest_eq_none
      have hrfound : ∀ q, root r = some q → h.findMaximal j fuel q = r.greatest (coord key) j :=
        fun q hq => ihr hr hq (by omega)
      have hinRight := pick_eq hbetter hrfound SplitTree.greatest_eq_none
      simp only [Heap.findMaximal, hleft, hright, hindex, hinLeft, hinRight, Option.bind_eq_bind, Option.bind_some,
        SplitTree.greatest]
      by_cases hj : j = i <;> simp [hj]

end Read

/-! ## One more -/

theorem Linked.inLeft {l' : Links d} (ht : Linked h parent (.node p i l r)) (hp : h' p = { h p with left := root l' })
    (hl : Linked h' (some p) l') (hr : ∀ y ∈ r, h' y = h y) : Linked h' parent (.node p i l' r) := by
  obtain ⟨hindex, hparent, -, hright, -, hinRight⟩ := ht
  rw [Linked, hp]
  exact ⟨hindex, hparent, rfl, hright, hl, hinRight.congr hr⟩

theorem Linked.inRight {r' : Links d} (ht : Linked h parent (.node p i l r)) (hp : h' p = { h p with right := root r' })
    (hr : Linked h' (some p) r') (hl : ∀ y ∈ l, h' y = h y) : Linked h' parent (.node p i l r') := by
  obtain ⟨hindex, hparent, hleft, -, hinLeft, -⟩ := ht
  rw [Linked, hp]
  exact ⟨hindex, hparent, hleft, rfl, hinLeft.congr hl, hr⟩

/-- The nodes of the two branches and the one above them are not the same. -/
theorem nodup_node (hnodup : (SplitTree.node p i l r).toList.Nodup) :
    l.toList.Nodup ∧ r.toList.Nodup ∧ p ∉ l ∧ p ∉ r ∧ ∀ y ∈ l, y ∉ r := by
  obtain ⟨hp, happ⟩ := List.nodup_cons.1 hnodup
  obtain ⟨hl, hr, hdisjoint⟩ := List.nodup_append.1 happ
  refine ⟨hl, hr, fun hmem => hp ?_, fun hmem => hp ?_, fun y hyl hyr => hdisjoint y hyl y hyr rfl⟩
  · exact List.mem_append_left _ hmem
  · exact List.mem_append_right _ hmem

section Merge
variable [LinearOrder α] {j : Index d} {fuel : Nat}

theorem root_insert {coord : Nat → Index d → α} (ht : root t = some p) : root (t.insert coord x j) = some p := by
  cases t with
  | nil => cases ht
  | node v i l r =>
    rw [SplitTree.insert]
    split <;> exact ht

/-- What `merge` below a pointer does: `n` is the node above, with the pointer set. -/
theorem merge_below (hkeys : Keyed key h) (hx : x ≠ p) (halone : Alone (h x)) {n : Node d α} (hn : n.key = key p)
    {below : Nat → Option (Heap d α)} (hp : p ∉ t)
    (hbelow : ∀ q, root t = some q → ∃ h', below q = some h' ∧
      Linked h' (some p) (t.insert (coord key) x (h x).keyIndex) ∧ Keyed key h' ∧ ∀ y, y ∉ t → y ≠ x → h' y = h y) :
    ∃ h', (match root t with
        | none => some ((h.set p n).setParent x (some p))
        | some q => below q) = some h' ∧ h' p = (if root t = none then n else h p) ∧
      Linked h' (some p) (t.insert (coord key) x (h x).keyIndex) ∧ Keyed key h' ∧
      ∀ y, y ∉ t → y ≠ x → y ≠ p → h' y = h y := by
  cases hroot : root t with
  | none =>
    obtain rfl := root_eq_none hroot
    have hstill : (h.set p n) x = h x := Function.update_of_ne hx _ _
    have hself : ((h.set p n).setParent x (some p)) x = { h x with parent := some p } := by
      rw [Heap.setParent, hstill]
      exact Function.update_self ..
    have habove : ((h.set p n).setParent x (some p)) p = n :=
      (Function.update_of_ne hx.symm _ _).trans (Function.update_self ..)
    have hother : ∀ y, y ≠ x → y ≠ p → ((h.set p n).setParent x (some p)) y = h y := fun y hyx hyp =>
      (Function.update_of_ne hyx _ _).trans (Function.update_of_ne hyp _ _)
    refine ⟨_, rfl, habove, ?_, fun y => ?_, fun y _ => hother y⟩
    · show Linked _ (some p) (.node x (h x).keyIndex .nil .nil)
      rw [Linked, hself]
      exact ⟨rfl, rfl, halone.2.1, halone.2.2, trivial, trivial⟩
    · rcases eq_or_ne y x with rfl | hyx
      · rw [hself]
        exact hkeys y
      · rcases eq_or_ne y p with rfl | hyp
        · rw [habove, hn]
        · rw [hother y hyx hyp, hkeys y]
  | some q =>
    obtain ⟨h', hmerge, hlinked, hkeys', hframe⟩ := hbelow q hroot
    exact ⟨h', hmerge, hframe p hp hx.symm, hlinked, hkeys', fun y hy hyx _ => hframe y hy hyx⟩

/-- `merge` links the node in where the tree inserts it. -/
theorem merge_spec (hkeys : Keyed key h) (ht : Linked h parent t) (hnodup : t.toList.Nodup) (hp : root t = some p)
    (hx : x ∉ t) (halone : Alone (h x)) (hfuel : size t ≤ fuel) :
    ∃ h', Heap.merge x fuel h p = some h' ∧ Linked h' parent (t.insert (coord key) x (h x).keyIndex) ∧
      Keyed key h' ∧ ∀ y, y ∉ t → y ≠ x → h' y = h y := by
  induction t generalizing fuel p parent with
  | nil => cases hp
  | node v i l r ihl ihr =>
    obtain rfl := Option.some.inj hp
    obtain ⟨hnl, hnr, hvl, hvr, hlr⟩ := nodup_node hnodup
    simp only [SplitTree.mem_node, not_or] at hx ⊢
    obtain ⟨hxv, hxl, hxr⟩ := hx
    cases fuel with
    | zero => cases hfuel
    | succ fuel =>
      have hfuel : size l + size r ≤ fuel := Nat.le_of_succ_le_succ hfuel
      have hfl : size l ≤ fuel := by omega
      have hfr : size r ≤ fuel := by omega
      obtain ⟨hindex, -, hleft, hright, hl, hr⟩ := id ht
      rw [Heap.merge, compare_iff hkeys, hindex, hleft, hright, SplitTree.insert]
      by_cases hlt : coord key x i < coord key v i
      · simp only [hlt, decide_true, if_true]
        obtain ⟨h', hmerge, hv', hlinked, hkeys', hframe⟩ := merge_below hkeys hxv halone
          (n := { h v with left := some x }) (hkeys v) hvl fun q hq => ihl hl hnl hq hxl hfl
        refine ⟨h', hmerge, ht.inLeft ?_ hlinked fun y hy => ?_, hkeys', fun y hy hyx => hframe y hy.2.1 hyx hy.1⟩
        · cases hroot : root l with
          | none =>
            rw [hv', if_pos hroot, root_eq_none hroot]
            rfl
          | some q => rw [hv', if_neg (by simp [hroot]), root_insert hroot, ← hroot, ← hleft]
        · exact hframe y (fun hyl => hlr y hyl hy) (fun heq => hxr (heq ▸ hy)) fun heq => hvr (heq ▸ hy)
      · simp only [hlt, decide_false, Bool.false_eq_true, if_false]
        obtain ⟨h', hmerge, hv', hlinked, hkeys', hframe⟩ := merge_below hkeys hxv halone
          (n := { h v with right := some x }) (hkeys v) hvr fun q hq => ihr hr hnr hq hxr hfr
        refine ⟨h', hmerge, ht.inRight ?_ hlinked fun y hy => ?_, hkeys', fun y hy hyx => hframe y hy.2.2 hyx hy.1⟩
        · cases hroot : root r with
          | none =>
            rw [hv', if_pos hroot, root_eq_none hroot]
            rfl
          | some q => rw [hv', if_neg (by simp [hroot]), root_insert hroot, ← hroot, ← hright]
        · exact hframe y (fun hyr => hlr y hy hyr) (fun heq => hxl (heq ▸ hy)) fun heq => hvl (heq ▸ hy)

end Merge

/-! ## One less -/

theorem set_self {n : Node d α} : (h.set p n) p = n := Function.update_self ..

theorem set_of_ne {n : Node d α} (hy : y ≠ p) : (h.set p n) y = h y := Function.update_of_ne hy _ _

theorem setParent_self {other : Option Nat} : (h.setParent p other) p = { h p with parent := other } := set_self

theorem setParent_of_ne {other : Option Nat} (hy : y ≠ p) : (h.setParent p other) y = h y := set_of_ne hy

theorem setParent?_of_notMem {other : Option Nat} (hy : y ∉ t) : (h.setParent? (root t) other) y = h y := by
  cases t with
  | nil => rfl
  | node v i l r =>
    apply setParent_of_ne
    rintro rfl
    exact hy (root_mem rfl)

theorem setChild_of_ne {child : Option Nat} (hy : y ≠ q) : (h.setChild q p child) y = h y := set_of_ne hy

theorem setChild_congr {child : Option Nat} (hq : h' q = h q) :
    (h'.setChild q p child) q = (h.setChild q p child) q := by
  rw [Heap.setChild, Heap.setChild, set_self, set_self, hq]

theorem Keyed.set (hkeys : Keyed key h) {n : Node d α} (hn : n.key = key p) : Keyed key (h.set p n) := by
  intro y
  rcases eq_or_ne y p with rfl | hy
  · rw [set_self, hn]
  · rw [set_of_ne hy, hkeys y]

theorem Keyed.setParent (hkeys : Keyed key h) (other : Option Nat) : Keyed key (h.setParent p other) :=
  hkeys.set (hkeys p)

theorem Keyed.setParent? (hkeys : Keyed key h) (p other : Option Nat) : Keyed key (h.setParent? p other) := by
  cases p with
  | none => exact hkeys
  | some p => exact hkeys.setParent other

theorem Keyed.setChild (hkeys : Keyed key h) (child : Option Nat) : Keyed key (h.setChild q p child) := by
  apply hkeys.set
  split <;> exact hkeys q

section Detach
variable {newRoot : Option Nat} {t' : Links d}

/-- What `detach` of `x` does: `t` was linked below `parent`, `t'` is. -/
structure Detached (key : Nat → Key d α) (h : Heap d α) (parent : Option Nat) (t t' : Links d) (x : Nat)
    (h' : Heap d α) (newRoot : Option Nat) : Prop where
  linked : Linked h' parent t'
  alone : Alone (h' x)
  keyed : Keyed key h'
  frame : ∀ y ∉ t, parent ≠ some y → h' y = h y
  above : ∀ q, parent = some q → h' q = if root t = some x then (h.setChild q x (root t')) q else h q
  newRoot : newRoot = if root t = some x ∧ parent = none then root t' else none
  still : root t ≠ some x → root t' = root t

/-- The only branch there is moves up. -/
theorem lightDetach_eq (hone : (h x).left = none ∧ (h x).right = root t ∨ (h x).left = root t ∧ (h x).right = none)
    (hx : x ∉ t) :
    h.lightDetach x = some
      (let moved := (h.setParent? (root t) (h x).parent).set x { h x with left := none, right := none }
      match (h x).parent with
      | some q => ((moved.setChild q x (root t)).setParent x none, none)
      | none => (moved, root t)) := by
  have hstill : (h.setParent? (root t) (h x).parent) x = h x := setParent?_of_notMem hx
  cases hroot : root t with
  | none =>
    rw [hroot] at hone
    obtain ⟨hl, hr⟩ : (h x).left = none ∧ (h x).right = none := by
      rcases hone with hone | hone <;> exact hone
    have hleaf : ∀ n : Node d α, n.left = none → n.right = none → { n with left := none, right := none } = n := by
      rintro ⟨⟩ ⟨⟩ ⟨⟩
      rfl
    have hsame : (h.setParent? none (h x).parent).set x { h x with left := none, right := none } = h := by
      rw [hleaf (h x) hl hr]
      exact Function.update_eq_self x h
    rw [hsame]
    cases hparent : (h x).parent <;> simp [Heap.lightDetach, hl, hr, hparent]
  | some k =>
    rw [hroot] at hone hstill
    have hstill : (h.setParent k (h x).parent) x = h x := hstill
    rcases hone with ⟨hl, hr⟩ | ⟨hl, hr⟩
    · have hnode : ({ h x with left := none, right := none } : Node d α) = { h x with right := none } := by rw [← hl]
      rw [hnode]
      cases hparent : (h x).parent <;> rw [hparent] at hstill <;>
        simp [Heap.lightDetach, Heap.setParent?, hl, hr, hparent, hstill, set_self]
    · have hnode : ({ h x with left := none, right := none } : Node d α) = { h x with left := none } := by rw [← hr]
      rw [hnode]
      cases hparent : (h x).parent <;> rw [hparent] at hstill <;>
        simp [Heap.lightDetach, Heap.setParent?, hl, hr, hparent, hstill, set_self]

/-- A node with one branch is replaced by that branch. -/
theorem lightDetach_spec (hkeys : Keyed key h)
    (hone : (h x).left = none ∧ (h x).right = root t' ∨ (h x).left = root t' ∧ (h x).right = none)
    (ht : Linked h (some x) t') (hnodup : t'.toList.Nodup) (hx : x ∉ t')
    (hparent : ∀ q, (h x).parent = some q → q ≠ x ∧ q ∉ t') (hroot : root t = some x) (hmem : ∀ y ∈ t', y ∈ t) :
    ∃ h' newRoot, h.lightDetach x = some (h', newRoot) ∧ Detached key h (h x).parent t t' x h' newRoot := by
  refine ⟨_, _, lightDetach_eq hone hx, ?_⟩
  have hother : ∀ y, y ∉ t' → y ≠ x →
      ((h.setParent? (root t') (h x).parent).set x { h x with left := none, right := none }) y = h y :=
    fun y hy hyx => (set_of_ne hyx).trans (setParent?_of_notMem hy)
  have hbelow : ∀ y ∈ t', ((h.setParent? (root t') (h x).parent).set x { h x with left := none, right := none }) y =
      (h.setParent? (root t') (h x).parent) y := by
    intro y hy
    apply set_of_ne
    rintro rfl
    exact hx hy
  have hxt : x ∈ t := root_mem hroot
  have hlinked := (ht.setParent? hnodup (h x).parent).congr hbelow
  have hmoved : Keyed key ((h.setParent? (root t') (h x).parent).set x { h x with left := none, right := none }) :=
    (hkeys.setParent? _ _).set (hkeys x)
  cases hp : (h x).parent with
  | none =>
    rw [hp] at hlinked hmoved hother
    refine ⟨hlinked, ?_, hmoved, fun y hy _ => ?_, nofun, ?_, ?_⟩
    · simp only [set_self]
      exact ⟨hp, rfl, rfl⟩
    · exact hother y (fun h => hy (hmem y h)) fun heq => hy (heq ▸ hxt)
    · simp [hroot]
    · exact fun hne => (hne hroot).elim
  | some q =>
    obtain ⟨hqx, hqt⟩ := hparent q hp
    rw [hp] at hlinked hmoved hother
    have hq := hother q hqt hqx
    refine ⟨hlinked.congr fun y hy => ?_, ?_, (hmoved.setChild _).setParent _, fun y hy hyq => ?_, ?_, ?_, ?_⟩
    · have hyx : y ≠ x := fun heq => hx (heq ▸ hy)
      have hyq : y ≠ q := fun heq => hqt (heq ▸ hy)
      exact (setParent_of_ne hyx).trans (setChild_of_ne hyq)
    · simp only [setParent_self, setChild_of_ne hqx.symm, set_self]
      exact ⟨rfl, rfl, rfl⟩
    · have hyx : y ≠ x := fun heq => hy (heq ▸ hxt)
      have hyq : y ≠ q := fun heq => hyq (heq ▸ rfl)
      exact ((setParent_of_ne hyx).trans (setChild_of_ne hyq)).trans (hother y (fun h => hy (hmem y h)) hyx)
    · rintro _ ⟨⟩
      rw [if_pos hroot]
      exact (setParent_of_ne hqx).trans (setChild_congr hq)
    · simp
    · exact fun hne => (hne hroot).elim

theorem swapLinks_self (hpq : p ≠ q) : (h.swapLinks p q) p = { h q with key := (h p).key } :=
  (set_of_ne hpq).trans set_self

theorem swapLinks_other : (h.swapLinks p q) q = { h p with key := (h q).key } := set_self

theorem swapLinks_of_ne (hyp : y ≠ p) (hyq : y ≠ q) : (h.swapLinks p q) y = h y :=
  (set_of_ne hyq).trans (set_of_ne hyp)

theorem Keyed.swapLinks (hkeys : Keyed key h) : Keyed key (h.swapLinks p q) := by
  have hp : Keyed key (h.set p { h q with key := (h p).key }) := hkeys.set (hkeys p)
  exact hp.set (hkeys q)

/-- `m` takes the links of `x`. -/
theorem replaced {m : Nat} (hkeys : Keyed key h) (ht : Linked h parent (.node x i l r))
    (hnodup : (SplitTree.node x i l r).toList.Nodup) (hm : m ∉ SplitTree.node x i l r) (halone : Alone (h m))
    (hparent : ∀ q, parent = some q → q ∉ SplitTree.node x i l r ∧ q ≠ m) :
    ∃ h' newRoot,
      (let (h, newRoot) := match (h x).parent with
        | some q => (h.setChild q x (some m), none)
        | none => (h, some m)
      let h := h.setParent? (h x).left (some m)
      let h := h.setParent? (h x).right (some m)
      some (h.swapLinks x m, newRoot)) = some (h', newRoot) ∧
      Linked h' parent (.node m i l r) ∧ Alone (h' x) ∧ Keyed key h' ∧
      (∀ y, y ∉ SplitTree.node x i l r → y ≠ m → parent ≠ some y → h' y = h y) ∧
      (∀ q, parent = some q → h' q = (h.setChild q x (some m)) q) ∧
      newRoot = if parent = none then some m else none := by
  obtain ⟨hnl, hnr, hxl, hxr, hlr⟩ := nodup_node hnodup
  obtain ⟨hindex, hup, hleft, hright, hl, hr⟩ := ht
  simp only [SplitTree.mem_node, not_or] at hm hparent ⊢
  obtain ⟨hmx, hml, hmr⟩ := hm
  -- what the parent points to
  obtain ⟨h1, newRoot, heq, hkeys1, hother, habove, hnew⟩ : ∃ h1 newRoot, (match (h x).parent with
        | some q => (h.setChild q x (some m), none)
        | none => (h, some m)) = (h1, newRoot) ∧ Keyed key h1 ∧ (∀ y, parent ≠ some y → h1 y = h y) ∧
      (∀ q, parent = some q → h1 q = (h.setChild q x (some m)) q) ∧
      newRoot = if parent = none then some m else none := by
    rw [hup]
    cases parent with
    | none => exact ⟨h, some m, rfl, hkeys, fun _ _ => rfl, (fun q hq => by cases hq), rfl⟩
    | some q =>
      refine ⟨_, none, rfl, hkeys.setChild _, fun y hy => setChild_of_ne fun heq => hy (heq ▸ rfl), ?_, rfl⟩
      rintro _ ⟨⟩
      rfl
  have hnot : ∀ y, y = x ∨ y = m ∨ y ∈ l ∨ y ∈ r → h1 y = h y := by
    rintro y hy
    apply hother
    intro hq
    obtain ⟨⟨hqx, hql, hqr⟩, hqm⟩ := hparent y hq
    rcases hy with rfl | rfl | hy | hy
    · exact hqx rfl
    · exact hqm rfl
    · exact hql hy
    · exact hqr hy
  have hx1 : h1 x = h x := hnot x (.inl rfl)
  have hx2 : (h1.setParent? (root l) (some m)) x = h x := (setParent?_of_notMem hxl).trans hx1
  refine ⟨((h1.setParent? (root l) (some m)).setParent? (root r) (some m)).swapLinks x m, newRoot, ?_, ?_⟩
  · simp only [heq, hx1, hleft, hx2, hright]
  have hx3 : ((h1.setParent? (root l) (some m)).setParent? (root r) (some m)) x = h x :=
    (setParent?_of_notMem hxr).trans hx2
  have hm3 : ((h1.setParent? (root l) (some m)).setParent? (root r) (some m)) m = h m :=
    ((setParent?_of_notMem hmr).trans (setParent?_of_notMem hml)).trans (hnot m (.inr (.inl rfl)))
  have hl1 : Linked h1 (some x) l := hl.congr fun y hy => hnot y (.inr (.inr (.inl hy)))
  have hr1 : Linked h1 (some x) r := hr.congr fun y hy => hnot y (.inr (.inr (.inr hy)))
  have hr2 : Linked (h1.setParent? (root l) (some m)) (some x) r :=
    hr1.congr fun y hy => setParent?_of_notMem fun hyl => hlr y hyl hy
  refine ⟨⟨?_, ?_, ?_, ?_, ?_, ?_⟩, ?_, ((hkeys1.setParent? _ _).setParent? _ _).swapLinks, ?_, fun q hq => ?_, hnew⟩
  · rw [swapLinks_other, hx3, hindex]
  · rw [swapLinks_other, hx3, hup]
  · rw [swapLinks_other, hx3, hleft]
  · rw [swapLinks_other, hx3, hright]
  · refine (hl1.setParent? hnl (some m)).congr fun y hy => ?_
    have hyx : y ≠ x := fun heq => hxl (heq ▸ hy)
    have hym : y ≠ m := fun heq => hml (heq ▸ hy)
    rw [swapLinks_of_ne hyx hym]
    exact setParent?_of_notMem (hlr y hy)
  · refine (hr2.setParent? hnr (some m)).congr fun y hy => ?_
    exact swapLinks_of_ne (fun heq => hxr (heq ▸ hy)) fun heq => hmr (heq ▸ hy)
  · rw [swapLinks_self (Ne.symm hmx), hm3]
    exact halone
  · rintro y ⟨hyx, hyl, hyr⟩ hym hyq
    rw [swapLinks_of_ne hyx hym, setParent?_of_notMem hyr, setParent?_of_notMem hyl, hother y hyq]
  · obtain ⟨⟨hqx, hql, hqr⟩, hqm⟩ := hparent q hq
    rw [swapLinks_of_ne hqx hqm, setParent?_of_notMem hqr, setParent?_of_notMem hql, habove q hq]

variable {selector : Nat → Nat → Bool} {fuel : Nat}

/-- What `selector` says of two trees. -/
def select (selector : Nat → Nat → Bool) (l r : Links d) : Bool :=
  match root l, root r with
  | some l, some r => selector l r
  | _, _ => true

theorem not_mem_node (hy : y ∉ SplitTree.node p i l r) : y ≠ p ∧ y ∉ l ∧ y ∉ r := by
  simpa only [SplitTree.mem_node, not_or] using hy

theorem root_node (p : Nat) (i : Index d) (l r : Links d) : root (.node p i l r) = some p := rfl

/-- In the left branch. -/
theorem Detached.inLeft {l' : Links d} (hd : Detached key h (some p) l l' x h' newRoot)
    (ht : Linked h parent (.node p i l r)) (hnodup : (SplitTree.node p i l r).toList.Nodup) (hx : x ∈ l)
    (hparent : ∀ q, parent = some q → q ∉ SplitTree.node p i l r) :
    Detached key h parent (.node p i l r) (.node p i l' r) x h' newRoot := by
  obtain ⟨-, -, hpl, hpr, hlr⟩ := nodup_node hnodup
  have hpx : p ≠ x := fun heq => hpl (heq ▸ hx)
  have hne : root (SplitTree.node p i l r) ≠ some x := fun heq => hpx (Option.some.inj heq)
  have hp : h' p = { h p with left := root l' } := by
    obtain ⟨-, -, hleft, -, -, -⟩ := ht
    rw [hd.above p rfl]
    split
    · next hroot => rw [Heap.setChild, set_self, if_pos (hleft.trans hroot)]
    · next hroot => rw [hd.still hroot, ← hleft]
  refine ⟨ht.inLeft hp hd.linked fun y hy => hd.frame y (fun hyl => hlr y hyl hy) ?_, hd.alone, hd.keyed,
    fun y hy _ => ?_, fun q hq => ?_, ?_, fun _ => rfl⟩
  · rintro ⟨⟩
    exact hpr hy
  · have hy := not_mem_node hy
    exact hd.frame y hy.2.1 fun heq => hy.1 (Option.some.inj heq).symm
  · rw [if_neg hne]
    have hq := not_mem_node (hparent q hq)
    exact hd.frame q hq.2.1 fun heq => hq.1 (Option.some.inj heq).symm
  · rw [hd.newRoot, if_neg (fun hand => Option.some_ne_none p hand.2), if_neg fun hand => hne hand.1]

/-- What is taken out of the right branch is taken out of the tree. -/
theorem Detached.inRight {r' : Links d} (hd : Detached key h (some p) r r' x h' newRoot)
    (ht : Linked h parent (.node p i l r)) (hnodup : (SplitTree.node p i l r).toList.Nodup) (hx : x ∈ r)
    (hparent : ∀ q, parent = some q → q ∉ SplitTree.node p i l r) :
    Detached key h parent (.node p i l r) (.node p i l r') x h' newRoot := by
  obtain ⟨-, -, hpl, hpr, hlr⟩ := nodup_node hnodup
  have hpx : p ≠ x := fun heq => hpr (heq ▸ hx)
  have hne : root (SplitTree.node p i l r) ≠ some x := fun heq => hpx (Option.some.inj heq)
  have hp : h' p = { h p with right := root r' } := by
    obtain ⟨-, -, hleft, hright, -, -⟩ := ht
    have hnotLeft : (h p).left ≠ some x := fun heq => hlr x (root_mem (hleft.symm.trans heq)) hx
    rw [hd.above p rfl]
    split
    · rw [Heap.setChild, set_self, if_neg hnotLeft]
    · next hroot => rw [hd.still hroot, ← hright]
  refine ⟨ht.inRight hp hd.linked fun y hy => hd.frame y (hlr y hy) ?_, hd.alone, hd.keyed,
    fun y hy _ => ?_, fun q hq => ?_, ?_, fun _ => rfl⟩
  · rintro ⟨⟩
    exact hpl hy
  · have hy := not_mem_node hy
    exact hd.frame y hy.2.2 fun heq => hy.1 (Option.some.inj heq).symm
  · rw [if_neg hne]
    have hq := not_mem_node (hparent q hq)
    exact hd.frame q hq.2.2 fun heq => hq.1 (Option.some.inj heq).symm
  · rw [hd.newRoot, if_neg (fun hand => Option.some_ne_none p hand.2), if_neg fun hand => hne hand.1]

variable [LinearOrder α]

theorem select_eq (hl : root l = some p) (hr : root r = some q) :
    select selector l r = selector p q := by
  rw [select, hl, hr]

/-- After the cascade `m` is in no tree, and takes the place of `p`. -/
theorem Detached.replaces {m : Nat} {l' r' : Links d}
    (hd : Detached key h parent (.node p i l r) (.node p i l' r') m h' newRoot)
    (hordered : (SplitTree.node p i l r).Ordered (coord key)) (hnodup : (SplitTree.node p i l r).toList.Nodup)
    (hm : m ∈ SplitTree.node p i l r)
    (hremove : (SplitTree.node p i l r).remove (coord key) (select selector) m = .node p i l' r')
    (hparent : ∀ q, parent = some q → q ∉ SplitTree.node p i l r) :
    ∃ h'' newRoot,
      (let (h, newRoot) := match (h' p).parent with
        | some q => (h'.setChild q p (some m), none)
        | none => (h', some m)
      let h := h.setParent? (h p).left (some m)
      let h := h.setParent? (h p).right (some m)
      some (h.swapLinks p m, newRoot)) = some (h'', newRoot) ∧
      Detached key h parent (.node p i l r) (.node m i l' r') p h'' newRoot := by
  have hperm : ((SplitTree.node p i l r).remove (coord key) (select selector) m).toList.Perm _ :=
    SplitTree.perm_remove hordered hnodup
  rw [hremove] at hperm
  have hgone : m ∉ SplitTree.node p i l' r' := fun hin => hnodup.not_mem_erase (hperm.mem_iff.1 hin)
  have hmem : ∀ y, y ∈ SplitTree.node p i l' r' ∨ y = m → y ∈ SplitTree.node p i l r := by
    rintro y (hy | rfl)
    · exact List.mem_of_mem_erase (hperm.mem_iff.1 hy)
    · exact hm
  obtain ⟨h'', newRoot, heq, hlinked, halone, hkeys, hframe, habove, hnew⟩ :=
    replaced hd.keyed hd.linked (hperm.nodup_iff.2 (hnodup.erase m)) hgone hd.alone fun q hq =>
      ⟨fun hin => hparent q hq (hmem q (.inl hin)), fun heq => hparent q hq (hmem q (.inr heq))⟩
  have hmp : root (SplitTree.node p i l r) ≠ some m := by
    intro heq
    obtain rfl := Option.some.inj heq
    exact hgone (root_mem rfl)
  refine ⟨h'', newRoot, heq, hlinked, halone, hkeys, fun y hy hyq => ?_, fun q hq => ?_, ?_, fun hne => (hne rfl).elim⟩
  · have hsame := hframe y (fun hin => hy (hmem y (.inl hin))) (fun heq => hy (hmem y (.inr heq))) hyq
    exact hsame.trans (hd.frame y hy hyq)
  · have hq' := hd.above q hq
    rw [if_neg hmp] at hq'
    rw [habove q hq, if_pos (root_node p i l r)]
    exact setChild_congr hq'
  · simp [hnew, root]

/-- `detach` does to the links what `remove` does to the tree. -/
theorem detach_spec (selector : Nat → Nat → Bool) (hkeys : Keyed key h) (hordered : t.Ordered (coord key))
    (ht : Linked h parent t) (hnodup : t.toList.Nodup) (hx : x ∈ t) (hparent : ∀ q, parent = some q → q ∉ t)
    (hfuel : size t ≤ fuel) :
    ∃ h' newRoot, Heap.detach selector fuel h x = some (h', newRoot) ∧
      Detached key h parent t (t.remove (coord key) (select selector) x) x h' newRoot := by
  induction t generalizing fuel h x parent with
  | nil => cases hx
  | node v i l r ihl ihr =>
    obtain ⟨hnl, hnr, hvl, hvr, hlr⟩ := nodup_node hnodup
    obtain ⟨-, -, hol, hor⟩ := id hordered
    obtain ⟨hindex, hup, hleft, hright, hl, hr⟩ := id ht
    cases fuel with
    | zero => cases hfuel
    | succ fuel =>
      have hboth : size l + size r ≤ fuel := Nat.le_of_succ_le_succ hfuel
      have hfl : size l ≤ fuel := by omega
      have hfr : size r ≤ fuel := by omega
      rw [SplitTree.remove]
      by_cases hvx : v = x
      · subst hvx
        rw [if_pos rfl, Heap.detach]
        cases hg : l.greatest (coord key) i with
        | none =>
          obtain rfl := SplitTree.greatest_eq_none.1 hg
          obtain ⟨h', newRoot, hlight, hdetached⟩ := lightDetach_spec hkeys (.inl ⟨hleft, hright⟩) hr hnr hvr
            (fun q hq => not_mem_node (hparent q (hup ▸ hq)) |>.imp_right And.right) (root_node v i .nil r)
            fun y hy => SplitTree.mem_node.2 (.inr (.inr hy))
          rw [hlight, ← hup]
          exact ⟨h', newRoot, rfl, hdetached⟩
        | some g =>
          cases hm : r.least (coord key) i with
          | none =>
            obtain rfl := SplitTree.least_eq_none.1 hm
            obtain ⟨h', newRoot, hlight, hdetached⟩ := lightDetach_spec hkeys (.inr ⟨hleft, hright⟩) hl hnl hvl
              (fun q hq => not_mem_node (hparent q (hup ▸ hq)) |>.imp_right And.left) (root_node v i l .nil)
              fun y hy => SplitTree.mem_node.2 (.inr (.inl hy))
            rw [hlight, ← hup]
            exact ⟨h', newRoot, rfl, hdetached⟩
          | some m =>
            have hlne : root l ≠ none := fun hnone => by simp [root_eq_none hnone, SplitTree.greatest] at hg
            have hrne : root r ≠ none := fun hnone => by simp [root_eq_none hnone, SplitTree.least] at hm
            obtain ⟨lp, hlp⟩ := Option.ne_none_iff_exists'.1 hlne
            obtain ⟨rp, hrp⟩ := Option.ne_none_iff_exists'.1 hrne
            have hlight : h.lightDetach v = none := by
              simp [Heap.lightDetach, hleft, hright, hlp, hrp]
            have hgl : g ∈ l := (SplitTree.greatest_spec hol hg).1
            have hmr : m ∈ r := (SplitTree.least_spec hor hm).1
            have hremove : ∀ w, v ≠ w → (SplitTree.node v i l r).remove (coord key) (select selector) w =
                .node v i (l.remove (coord key) (select selector) w) (r.remove (coord key) (select selector) w) :=
              fun w hw => by rw [SplitTree.remove, if_neg hw]
            simp only [hlight, hleft, hright, hlp, hrp, hindex, Option.bind_eq_bind, Option.bind_some,
              select_eq hlp hrp]
            cases hsel : selector lp rp with
            | true =>
              have hvm : v ≠ m := fun heq => hvr (heq ▸ hmr)
              have hremove := (hremove m hvm).trans (by rw [SplitTree.remove_of_notMem fun hml => hlr m hml hmr])
              obtain ⟨h1, newRoot1, hcascade, hd⟩ := ihr hkeys hor hr hnr hmr (fun q hq => Option.some.inj hq ▸ hvr) hfr
              obtain ⟨h', newRoot, hreplaced, hdetached⟩ := (hd.inRight ht hnodup hmr hparent).replaces hordered hnodup
                (SplitTree.mem_node.2 (.inr (.inr hmr))) hremove hparent
              rw [if_pos rfl, findMinimal_eq hkeys hr hrp hfr, hm, Option.bind_some, hcascade, Option.bind_some]
              exact ⟨h', newRoot, hreplaced, hdetached⟩
            | false =>
              have hvg : v ≠ g := fun heq => hvl (heq ▸ hgl)
              have hremove := (hremove g hvg).trans (by rw [SplitTree.remove_of_notMem fun hgr => hlr g hgl hgr])
              obtain ⟨h1, newRoot1, hcascade, hd⟩ := ihl hkeys hol hl hnl hgl (fun q hq => Option.some.inj hq ▸ hvl) hfl
              obtain ⟨h', newRoot, hreplaced, hdetached⟩ := (hd.inLeft ht hnodup hgl hparent).replaces hordered hnodup
                (SplitTree.mem_node.2 (.inr (.inl hgl))) hremove hparent
              rw [if_neg Bool.false_ne_true, findMaximal_eq hkeys hl hlp hfl, hg, Option.bind_some, hcascade,
                Option.bind_some]
              exact ⟨h', newRoot, hreplaced, hdetached⟩
      · have hxlr : x ∈ l ∨ x ∈ r := (SplitTree.mem_node.1 hx).resolve_left (Ne.symm hvx)
        rw [if_neg hvx]
        rcases hxlr with hxl | hxr
        · obtain ⟨h', newRoot, hdetach, hdetached⟩ := ihl hkeys hol hl hnl hxl
            (fun q hq => Option.some.inj hq ▸ hvl) (hfl.trans (Nat.le_succ fuel))
          rw [SplitTree.remove_of_notMem (hlr x hxl)]
          exact ⟨h', newRoot, hdetach, hdetached.inLeft ht hnodup hxl hparent⟩
        · obtain ⟨h', newRoot, hdetach, hdetached⟩ := ihr hkeys hor hr hnr hxr
            (fun q hq => Option.some.inj hq ▸ hvr) (hfr.trans (Nat.le_succ fuel))
          rw [SplitTree.remove_of_notMem fun hxl => hlr x hxl hxr]
          exact ⟨h', newRoot, hdetach, hdetached.inRight ht hnodup hxr hparent⟩

end Detach

end NgxLuaCpp.IrisTree
