import NgxLuaCpp.Lib.Monitor
import NgxLuaCpp.Lib.Trace
import Mathlib.Logic.Relation
/-!
# Routines in order

`iris_dispatcher_t` runs routines on the workers and on warps, each after those
ordered before it. A routine counts in `lock_count` the handles that name it and
the routines it comes after, and is executed when that reaches 0. We show that
none begins before those ordered before it have finished.

A step is one operation on `lock_count`, or what lies between two of them; an
execution that `dispatch` enters at once is a call of its own. `lock_count` is an
integer, its value `~0` the number -1.
-/
open Monitor Trace

namespace NgxLuaCpp.IrisDispatcher

/-- `routine_t`, and who has handles of it. -/
structure Routine where
  /-- whether `routine` is a function -/
  func : Bool
  lock : Int
  /-- `next_tasks`, as far as they are filled -/
  next : List Nat
  /-- how many `routine_handle_t`s name it -/
  handles : Nat
  freed : Bool
  /-- whose successors it holds: its own, or those of the routine it is a junction of -/
  root : Nat
  deriving DecidableEq

/-- Where a call of `execute` is: at its start, in the function, at the load of
`lock_count`, at the store to it, or in the loop over `next_tasks`. -/
inductive Pc where
  | execute
  | running
  | check
  | store
  | finish
  | ended
  deriving DecidableEq

/-- A call of `execute`, with its routine. -/
structure Call where
  routine : Nat
  pc : Pc
  deriving DecidableEq

/-- The routines ever allocated, the calls of `execute` under way, and what was asked for. -/
structure Dispatcher where
  routines : List Routine
  calls : List Call
  pending : Int
  /-- the orders asked for -/
  orders : List (Nat × Nat)
  /-- the routines whose functions have been entered -/
  begun : List Nat

/-- What can happen next: a routine is allocated, ordered before another, deferred or
dispatched, or a call of `execute` goes on. -/
inductive Action where
  /-- A routine is allocated, with a function or without. -/
  | allocate (func : Bool)
  /-- `order`, by who has handles of both -/
  | order (source target : Nat)
  /-- `defer`, by who has a handle or by the function itself -/
  | defer (routine : Nat)
  | dispatch (routine : Nat)
  /-- Call `i` of `execute` goes on. -/
  | step (i : Nat)

namespace Dispatcher

/-- A dispatcher without routines. -/
def new : Dispatcher := ⟨[], [], 0, [], []⟩

def setRoutine (s : Dispatcher) (v : Nat) (r : Routine) : Dispatcher := { s with routines := s.routines.set v r }

def goto (s : Dispatcher) (i : Nat) (c : Call) (pc : Pc) : Dispatcher :=
  { s with calls := s.calls.set i { c with pc := pc } }

/-- A new one, with one handle or as a junction. -/
def allocate (s : Dispatcher) (r : Routine) : Dispatcher :=
  { s with routines := s.routines ++ [r], pending := s.pending + 1 }

/-- `lock_count` of a routine goes up by one. -/
def lockMore (s : Dispatcher) (v : Nat) : Option Dispatcher := do
  let r ← s.routines[v]?
  return s.setRoutine v { r with lock := r.lock + 1 }

/-- `order_internal`; a recursion deeper than `fuel` does not end. -/
def orderInternal (target : Nat) : Nat → Dispatcher → Nat → Option Dispatcher
  | 0, _, _ => none
  | fuel + 1, s, source => do
    let r ← s.routines[source]?
    match r.next with
    | [first, _, _, _] =>
      let f ← s.routines[first]?
      -- is junction node?
      if f.func then
        let s ← s.lockMore target
        let r ← s.routines[source]?
        let p := s.routines.length
        return (s.allocate ⟨false, 1, [first, target], 0, false, r.root⟩).setRoutine source
          { r with next := p :: r.next.tail }
      else orderInternal target fuel s first
    | _ =>
      let s ← s.lockMore target
      let r ← s.routines[source]?
      return s.setRoutine source { r with next := r.next ++ [target] }

/-- The decrement of `dispatch`; at 0 the routine is executed. -/
def unlock (s : Dispatcher) (v : Nat) : Option Dispatcher := do
  let r ← s.routines[v]?
  let s := s.setRoutine v { r with lock := r.lock - 1 }
  return if r.lock = 1 then { s with calls := s.calls ++ [⟨v, .execute⟩] } else s

/-- The next step of a call of `execute`. -/
def stepCall (s : Dispatcher) (i : Nat) (c : Call) : Option Dispatcher := do
  let r ← s.routines[c.routine]?
  match c.pc with
  | .execute =>
    if r.func then
      let s := s.setRoutine c.routine { r with func := false }
      return { s.goto i c .running with begun := s.begun ++ [c.routine] }
    else return s.goto i c .check
  | .running => return s.goto i c .check
  | .check =>
    -- deferred by routine
    return s.goto i c (if r.lock ≠ 0 then .ended else .store)
  | .store => return (s.setRoutine c.routine { r with lock := -1 }).goto i c .finish
  | .finish =>
    match r.next with
    | p :: rest => (s.setRoutine c.routine { r with next := rest }).unlock p
    | [] => return { (s.setRoutine c.routine { r with freed := true }).goto i c .ended with pending := s.pending - 1 }
  | .ended => none

/-- A call is running this routine's function. -/
def runs (s : Dispatcher) (v : Nat) : Bool := s.calls.any fun c => c.routine == v && c.pc == .running

/-- An action, if it can be taken. -/
def act (s : Dispatcher) : Action → Option Dispatcher
  | .allocate func => some (s.allocate ⟨func, 1, [], 1, false, s.routines.length⟩)
  | .order source target => do
    let u ← s.routines[source]?
    let v ← s.routines[target]?
    if u.handles = 0 ∨ v.handles = 0 ∨ source = target then none
    else
      let s' ← orderInternal target (s.routines.length + 1) s source
      return { s' with orders := s.orders ++ [(source, target)] }
  | .defer v => do
    let r ← s.routines[v]?
    if r.handles ≠ 0 ∨ s.runs v then some (s.setRoutine v { r with lock := r.lock + 1, handles := r.handles + 1 })
    else none
  | .dispatch v => do
    let r ← s.routines[v]?
    if r.handles = 0 then none else (s.setRoutine v { r with handles := r.handles - 1 }).unlock v
  | .step i => do s.stepCall i (← s.calls[i]?)

/-- An action, or nothing if it cannot be taken. -/
def step (s : Dispatcher) (a : Action) : Dispatcher := (s.act a).getD s

/-- The dispatcher after these actions. -/
def run (acts : List Action) : Dispatcher := acts.foldl step new

/-! ## What the locks count -/

variable {s s' : Dispatcher} {u v w i : Nat} {r q : Routine} {c : Call} {owed : Option Nat}

/-- The routine `v` comes after `u`. -/
def Edge (s : Dispatcher) (u v : Nat) : Prop := ∃ r, s.routines[u]? = some r ∧ v ∈ r.next

/-- How often a routine stands in `next_tasks`. -/
def edges (s : Dispatcher) (v : Nat) : Nat := weight (fun r => r.next.count v) s.routines

/-- A lock counts the handles and the edges, and one more of the routine that is
about to be unlocked, until the routine finishes. -/
def Counted (s : Dispatcher) (owed : Option Nat) (v : Nat) (r : Routine) : Prop :=
  r.lock = -1 ∧ r.handles = 0 ∧ s.edges v = 0 ∧ owed ≠ some v ∨
    r.lock = r.handles + s.edges v + if owed = some v then 1 else 0

/-- The locks count what comes before a routine, and what was ordered is kept until it is done.
-/
structure Graph (s : Dispatcher) (owed : Option Nat) : Prop where
  counted : ∀ v r, s.routines[v]? = some r → Counted s owed v r
  inside : ∀ v, s.routines.length ≤ v → s.edges v = 0
  /-- Who is ordered after a routine that has not finished is still after it. -/
  path : ∀ u v, (u, v) ∈ s.orders →
    ∃ r, s.routines[u]? = some r ∧ (r.lock = -1 ∨ Relation.TransGen s.Edge u v)

theorem edges_of_edge (h : s.Edge u v) : 0 < s.edges v := by
  obtain ⟨r, hu, hv⟩ := h
  apply (List.count_pos_iff.2 hv).trans_le
  exact le_weight (f := fun r : Routine => r.next.count v) hu

theorem exists_edge (h : 0 < s.edges v) : ∃ u, s.Edge u v := by
  by_contra hnone
  refine h.ne' (weight_eq_zero fun r hr => ?_)
  obtain ⟨u, hu⟩ := List.mem_iff_getElem?.1 hr
  exact List.count_eq_zero.2 fun hv => hnone ⟨u, r, hu, hv⟩

theorem Counted.of_edge (h : Counted s owed v r) (he : s.Edge u v) : 0 < r.lock := by
  have hpos := edges_of_edge he
  rcases h with ⟨-, -, hzero, -⟩ | heq
  · omega
  · split at heq <;> omega

theorem edges_set (hu : s.routines[u]? = some r) : (s.setRoutine u q).edges v + r.next.count v = s.edges v + q.next.count v :=
  weight_moved hu

theorem edges_set_same (hu : s.routines[u]? = some r) (hnext : q.next = r.next) : (s.setRoutine u q).edges v = s.edges v := by
  have hset := edges_set (v := v) (q := q) hu
  rw [hnext] at hset
  exact Nat.add_right_cancel hset

theorem edge_set (hu : s.routines[u]? = some r) :
    (s.setRoutine u q).Edge v w ↔ v = u ∧ w ∈ q.next ∨ v ≠ u ∧ s.Edge v w := by
  simp only [Edge, setRoutine, getElem?_moved hu]
  constructor
  · rintro ⟨d, ⟨rfl, rfl⟩ | ⟨hne, hd⟩, hw⟩
    · exact .inl ⟨rfl, hw⟩
    · exact .inr ⟨hne, d, hd, hw⟩
  · rintro (⟨rfl, hw⟩ | ⟨hne, d, hd, hw⟩)
    · exact ⟨q, .inl ⟨rfl, rfl⟩, hw⟩
    · exact ⟨d, .inr ⟨hne, hd⟩, hw⟩

theorem edge_set_same (hu : s.routines[u]? = some r) (hnext : q.next = r.next) : (s.setRoutine u q).Edge = s.Edge := by
  funext v w
  rw [edge_set hu, hnext]
  apply propext
  by_cases hv : v = u
  · subst hv
    simp [Edge, hu]
  · simp [hv]

/-- What may change without the edges. -/
theorem Graph.set {owed' : Option Nat} (h : Graph s owed) (hv : s.routines[v]? = some r) (hnext : q.next = r.next)
    (hcounted : Counted s owed' v q) (howed : ∀ w ≠ v, owed' = some w ↔ owed = some w)
    (hlock : r.lock = -1 → q.lock = -1) : Graph (s.setRoutine v q) owed' where
  counted w d hd := by
    rw [Counted, edges_set_same hv hnext]
    rcases (getElem?_moved hv).1 hd with ⟨rfl, rfl⟩ | ⟨hne, hd⟩
    · exact hcounted
    · simpa only [Counted, ne_eq, howed w hne] using h.counted w d hd
  inside w hw := by
    rw [edges_set_same hv hnext]
    exact h.inside w (by simpa [setRoutine] using hw)
  path a b hab := by
    rw [edge_set_same hv hnext]
    obtain ⟨d, hd, hor⟩ := h.path a b hab
    rcases eq_or_ne a v with rfl | hne
    · obtain rfl := Option.some.inj (hv.symm.trans hd)
      exact ⟨q, (getElem?_moved hv).2 (.inl ⟨rfl, rfl⟩), hor.imp_left hlock⟩
    · exact ⟨d, (getElem?_moved hv).2 (.inr ⟨hne, hd⟩), hor⟩

theorem Graph.calls {calls : List Call} (h : Graph s owed) : Graph { s with calls := calls } owed :=
  ⟨h.counted, h.inside, h.path⟩

theorem Graph.lockMore (h : Graph s none) (hv : s.routines[v]? = some r) (hlock : 0 ≤ r.lock) :
    Graph (s.setRoutine v { r with lock := r.lock + 1 }) (some v) := by
  apply h.set (q := { r with lock := r.lock + 1 }) hv rfl
  · rcases h.counted v r hv with ⟨hneg, -⟩ | heq
    · omega
    · refine .inr ?_
      simp only [heq, if_true]
      simp
  · intro w hw
    simp [Ne.symm hw]
  · omega

theorem edge_addEdge {a b : Nat} (hu : s.routines[u]? = some r) (hab : s.Edge a b) :
    (s.setRoutine u { r with next := r.next ++ [v] }).Edge a b := by
  rw [edge_set hu]
  by_cases ha : a = u
  · subst ha
    obtain ⟨e, he, hb⟩ := hab
    obtain rfl := Option.some.inj (hu.symm.trans he)
    exact .inl ⟨rfl, List.mem_append_left _ hb⟩
  · exact .inr ⟨ha, hab⟩

/-- The routine about to be unlocked gets an edge instead. -/
theorem Graph.addEdge (h : Graph s (some v)) (hu : s.routines[u]? = some r) (hv : v < s.routines.length) :
    Graph (s.setRoutine u { r with next := r.next ++ [v] }) none where
  counted w d hd := by
    have hset := edges_set (v := w) (q := { r with next := r.next ++ [v] }) hu
    have hedges : (s.setRoutine u { r with next := r.next ++ [v] }).edges w = s.edges w + if v = w then 1 else 0 := by
      rw [List.count_append, List.count_singleton] at hset
      simp only [beq_iff_eq] at hset
      omega
    have hcounted : Counted s (some v) w d ∨ Counted s (some v) w { d with next := r.next } := by
      rcases (getElem?_moved hu).1 hd with ⟨rfl, rfl⟩ | ⟨hne, hd⟩
      · exact .inr (h.counted w r hu)
      · exact .inl (h.counted w d hd)
    have hcounted : Counted s (some v) w d := by
      rcases hcounted with hc | hc <;> exact hc
    rw [Counted, hedges]
    rcases hcounted with ⟨hneg, hhandles, hzero, hne⟩ | heq
    · have hvw : v ≠ w := fun heq => hne (heq ▸ rfl)
      exact .inl ⟨hneg, hhandles, by simp [hzero, hvw], nofun⟩
    · refine .inr ?_
      rw [heq]
      by_cases hvw : v = w
      · simp [hvw, add_assoc]
      · simp [hvw]
  inside w hw := by
    have hset := edges_set (v := w) (q := { r with next := r.next ++ [v] }) hu
    have hw : s.routines.length ≤ w := by simpa [setRoutine] using hw
    have hvw : v ≠ w := by omega
    have hzero := h.inside w hw
    simp [List.count_append, hvw] at hset
    omega
  path a b hab := by
    obtain ⟨d, hd, hor⟩ := h.path a b hab
    have hmono := Relation.TransGen.mono (fun x y (hxy : s.Edge x y) => edge_addEdge (v := v) hu hxy) a b
    rcases eq_or_ne a u with rfl | hne
    · obtain rfl := Option.some.inj (hu.symm.trans hd)
      exact ⟨_, (getElem?_moved hu).2 (.inl ⟨rfl, rfl⟩), hor.imp_right hmono⟩
    · exact ⟨d, (getElem?_moved hu).2 (.inr ⟨hne, hd⟩), hor.imp_right hmono⟩

/-- The lock that was owed is given back. -/
theorem Graph.unlock (h : Graph s (some v)) (hv : s.routines[v]? = some r) :
    Graph (s.setRoutine v { r with lock := r.lock - 1 }) none := by
  have hcounted := h.counted v r hv
  apply h.set (q := { r with lock := r.lock - 1 }) hv rfl
  · rcases hcounted with ⟨-, -, -, hne⟩ | heq
    · exact absurd rfl hne
    · refine .inr ?_
      simp only [heq, if_true]
      simp
  · intro w hw
    simp [Ne.symm hw]
  · intro hlock
    rcases hcounted with ⟨-, -, -, hne⟩ | heq
    · exact absurd rfl hne
    · rw [if_pos rfl] at heq
      omega

/-- A new routine that comes neither before nor after another. -/
theorem Graph.allocate (h : Graph s none) (hnext : r.next = []) (hlock : r.lock = r.handles) : Graph (s.allocate r) none := by
  have hedges : ∀ w, (s.allocate r).edges w = s.edges w := by
    intro w
    simp [edges, Dispatcher.allocate, weight_made, hnext]
  have hedge : ∀ a b, s.Edge a b → (s.allocate r).Edge a b := by
    rintro a b ⟨d, ha, hb⟩
    exact ⟨d, getElem?_made.2 (.inr ha), hb⟩
  refine ⟨fun w d hd => ?_, fun w hw => ?_, fun a b hab => ?_⟩
  · rw [Counted, hedges]
    rcases getElem?_made.1 hd with ⟨rfl, rfl⟩ | hd
    · refine .inr ?_
      rw [h.inside _ le_rfl, hlock]
      simp
    · exact h.counted w d hd
  · rw [hedges]
    apply h.inside
    simp only [Dispatcher.allocate, List.length_append] at hw
    omega
  · obtain ⟨d, hd, hor⟩ := h.path a b hab
    exact ⟨d, getElem?_made.2 (.inr hd), hor.imp_right (Relation.TransGen.mono hedge a b)⟩

/-- With a junction put in between, the old edges are still paths. -/
theorem edge_split {first a b : Nat} {rest : List Nat} (root : Nat) (hu : s.routines[u]? = some r) (hnext : r.next = first :: rest)
    (hab : s.Edge a b) :
    Relation.TransGen ((s.allocate ⟨false, 1, [first, v], 0, false, root⟩).setRoutine u
      { r with next := s.routines.length :: rest }).Edge a b := by
  have hlt : u < s.routines.length := (List.getElem?_eq_some_iff.1 hu).1
  have hu' : (s.allocate ⟨false, 1, [first, v], 0, false, root⟩).routines[u]? = some r := getElem?_made.2 (.inr hu)
  obtain ⟨e, he, hb⟩ := hab
  by_cases ha : a = u
  · subst ha
    obtain rfl := Option.some.inj (hu.symm.trans he)
    rw [hnext] at hb
    rcases List.mem_cons.1 hb with rfl | hb
    · apply Relation.TransGen.tail (b := s.routines.length)
      · exact .single ((edge_set hu').2 (.inl ⟨rfl, List.mem_cons_self⟩))
      · exact (edge_set hu').2 (.inr ⟨hlt.ne', _, getElem?_made.2 (.inl ⟨rfl, rfl⟩), List.mem_cons_self⟩)
    · exact .single ((edge_set hu').2 (.inl ⟨rfl, List.mem_cons_of_mem _ hb⟩))
  · exact .single ((edge_set hu').2 (.inr ⟨ha, e, getElem?_made.2 (.inr he), hb⟩))

theorem path_split {first root : Nat} {rest : List Nat} (hu : s.routines[u]? = some r) :
    Relation.TransGen ((s.allocate ⟨false, 1, [first, v], 0, false, root⟩).setRoutine u
      { r with next := s.routines.length :: rest }).Edge u v := by
  have hlt : u < s.routines.length := (List.getElem?_eq_some_iff.1 hu).1
  have hu' : (s.allocate ⟨false, 1, [first, v], 0, false, root⟩).routines[u]? = some r := getElem?_made.2 (.inr hu)
  apply Relation.TransGen.tail (b := s.routines.length)
  · exact .single ((edge_set hu').2 (.inl ⟨rfl, List.mem_cons_self⟩))
  · refine (edge_set hu').2 (.inr ⟨hlt.ne', _, getElem?_made.2 (.inl ⟨rfl, rfl⟩), ?_⟩)
    exact List.mem_cons_of_mem _ (List.mem_singleton_self v)

/-- A junction takes the place of the first successor, which comes after it. -/
theorem Graph.split {first : Nat} {rest : List Nat} (root : Nat) (h : Graph s (some v)) (hu : s.routines[u]? = some r)
    (hnext : r.next = first :: rest) (hv : v < s.routines.length) :
    Graph ((s.allocate ⟨false, 1, [first, v], 0, false, root⟩).setRoutine u
      { r with next := s.routines.length :: rest }) none := by
  have hlt : u < s.routines.length := (List.getElem?_eq_some_iff.1 hu).1
  have hu' : (s.allocate ⟨false, 1, [first, v], 0, false, root⟩).routines[u]? = some r := getElem?_made.2 (.inr hu)
  have hedges : ∀ w, ((s.allocate ⟨false, 1, [first, v], 0, false, root⟩).setRoutine u
      { r with next := s.routines.length :: rest }).edges w =
        s.edges w + (if v = w then 1 else 0) + if s.routines.length = w then 1 else 0 := by
    intro w
    have hset := edges_set (v := w) (q := { r with next := s.routines.length :: rest }) hu'
    have hmade : (s.allocate ⟨false, 1, [first, v], 0, false, root⟩).edges w = s.edges w + [first, v].count w :=
      weight_made
    rw [hmade, hnext] at hset
    simp only [List.count_cons, List.count_nil, beq_iff_eq] at hset
    omega
  refine ⟨fun w d hd => ?_, fun w hw => ?_, fun a b hab => ?_⟩
  · rw [Counted, hedges]
    have hold : w ≠ s.routines.length → Counted s (some v) w d := by
      intro hne
      rcases (getElem?_moved hu').1 hd with ⟨rfl, rfl⟩ | ⟨-, hd⟩
      · exact h.counted w r hu
      · rcases getElem?_made.1 hd with ⟨heq, -⟩ | hd
        · exact absurd heq hne
        · exact h.counted w d hd
    by_cases hw : w = s.routines.length
    · refine .inr ?_
      rcases (getElem?_moved hu').1 hd with ⟨rfl, -⟩ | ⟨-, hd⟩
      · omega
      · rcases getElem?_made.1 hd with ⟨-, rfl⟩ | hd
        · rw [h.inside w hw.ge]
          simp [hw, hv.ne]
        · exact absurd (List.getElem?_eq_some_iff.1 hd).1 hw.not_lt
    · rcases hold hw with ⟨hneg, hhandles, hzero, hne⟩ | heq
      · have hvw : v ≠ w := fun heq => hne (heq ▸ rfl)
        exact .inl ⟨hneg, hhandles, by simp [hzero, hvw, Ne.symm hw], nofun⟩
      · refine .inr ?_
        rw [heq]
        by_cases hvw : v = w
        · simp [hvw, Ne.symm hw, add_assoc]
        · simp [hvw, Ne.symm hw]
  · rw [hedges]
    have hw : s.routines.length + 1 ≤ w := by simpa [Dispatcher.allocate, setRoutine] using hw
    rw [h.inside w (by omega), if_neg (by omega), if_neg (by omega)]
  · obtain ⟨d, hd, hor⟩ := h.path a b hab
    have hmono := Relation.TransGen.closed (fun x y (hxy : s.Edge x y) => edge_split (v := v) root hu hnext hxy) a b
    rcases eq_or_ne a u with rfl | hne
    · obtain rfl := Option.some.inj (hu.symm.trans hd)
      exact ⟨_, (getElem?_moved hu').2 (.inl ⟨rfl, rfl⟩), hor.imp_right hmono⟩
    · exact ⟨d, (getElem?_moved hu').2 (.inr ⟨hne, getElem?_made.2 (.inr hd)⟩), hor.imp_right hmono⟩

/-- A routine that finishes gives up an edge for an unlock. -/
theorem Graph.pop {p : Nat} {rest : List Nat} (h : Graph s none) (hu : s.routines[u]? = some r) (hlock : r.lock = -1)
    (hnext : r.next = p :: rest) : Graph (s.setRoutine u { r with next := rest }) (some p) := by
  have hedges : ∀ w, (s.setRoutine u { r with next := rest }).edges w + (if p = w then 1 else 0) = s.edges w := by
    intro w
    have hset := edges_set (v := w) (q := { r with next := rest }) hu
    rw [hnext] at hset
    simp only [List.count_cons, beq_iff_eq] at hset
    omega
  have hp : 0 < s.edges p := edges_of_edge ⟨r, hu, by rw [hnext]; exact List.mem_cons_self⟩
  refine ⟨fun w d hd => ?_, fun w hw => ?_, fun a b hab => ?_⟩
  · have hold : Counted s none w d := by
      rcases (getElem?_moved hu).1 hd with ⟨rfl, rfl⟩ | ⟨-, hd⟩
      · exact h.counted w r hu
      · exact h.counted w d hd
    have hw := hedges w
    rcases hold with ⟨hneg, hhandles, hzero, -⟩ | heq
    · have hpw : p ≠ w := by
        rintro rfl
        omega
      exact .inl ⟨hneg, hhandles, by omega, by simpa using hpw⟩
    · refine .inr ?_
      rw [heq, ← hw]
      by_cases hpw : p = w <;> simp [hpw, add_assoc]
  · have hzero := h.inside w (by simpa [setRoutine] using hw)
    have hw := hedges w
    omega
  · obtain ⟨d, hd, hor⟩ := h.path a b hab
    -- along a path from a routine that has not finished none has
    have hkeep : ∀ x y, Relation.TransGen s.Edge x y → (∀ e, s.routines[x]? = some e → e.lock ≠ -1) →
        Relation.TransGen (s.setRoutine u { r with next := rest }).Edge x y := by
      intro x y hxy
      have hstep : ∀ x y, s.Edge x y → (∀ e, s.routines[x]? = some e → e.lock ≠ -1) →
          (s.setRoutine u { r with next := rest }).Edge x y := by
        intro x y hxy hx
        refine (edge_set hu).2 (.inr ⟨?_, hxy⟩)
        rintro rfl
        exact hx r hu hlock
      induction hxy using Relation.TransGen.head_induction_on with
      | single hxy => exact fun hx => .single (hstep _ _ hxy hx)
      | head hxz _ ih =>
        intro hx
        refine .head (hstep _ _ hxz hx) (ih fun e he heq => ?_)
        have hpos := (h.counted _ e he).of_edge hxz
        omega
    rcases eq_or_ne a u with rfl | hne
    · obtain rfl := Option.some.inj (hu.symm.trans hd)
      exact ⟨_, (getElem?_moved hu).2 (.inl ⟨rfl, rfl⟩), .inl hlock⟩
    · refine ⟨d, (getElem?_moved hu).2 (.inr ⟨hne, hd⟩), ?_⟩
      by_cases hd1 : d.lock = -1
      · exact .inl hd1
      · refine .inr (hkeep a b (hor.resolve_left hd1) fun e he => ?_)
        rwa [← Option.some.inj (hd.symm.trans he)]

/-! ## Who executes -/

/-- What a routine is like while a call of `execute` is under way on it. -/
def Fits : Pc → Routine → Prop
  | .execute, r => r.lock = 0
  | .running, r | .check, r => r.lock ≠ -1 ∧ r.func = false
  | .store, r => r.lock = 0 ∧ r.func = false
  | .finish, r => r.lock = -1 ∧ r.freed = false
  | .ended, _ => True

/-- A routine is executed by one call at a time, at a place that fits its lock, and no routine
waits for nothing. -/
structure Calls (s : Dispatcher) : Prop where
  fits : ∀ c ∈ s.calls, c.pc ≠ .ended → ∃ r, s.routines[c.routine]? = some r ∧ Fits c.pc r
  alone : ∀ (i j : Nat) (c d : Call), s.calls[i]? = some c → s.calls[j]? = some d → c.pc ≠ .ended → d.pc ≠ .ended →
    c.routine = d.routine → i = j
  /-- Where nobody executes, the routine is gone or locked. -/
  idle : ∀ (v : Nat) (r : Routine), s.routines[v]? = some r →
    (∀ c ∈ s.calls, c.routine = v → c.pc = .ended) → r.freed = true ∨ 0 < r.lock
  freed : ∀ (v : Nat) (r : Routine), s.routines[v]? = some r → r.freed = true → r.lock = -1 ∧ r.next = []

theorem Calls.fits_at (h : Calls s) (hc : c ∈ s.calls) (hpc : c.pc ≠ .ended) (hr : s.routines[c.routine]? = some r) :
    Fits c.pc r := by
  obtain ⟨d, hd, hfits⟩ := h.fits c hc hpc
  rwa [Option.some.inj (hr.symm.trans hd)]

theorem not_freed_of_lock (h : Calls s) (hv : s.routines[v]? = some r) (hlock : r.lock ≠ -1) : r.freed = false := by
  by_contra hfreed
  exact hlock (h.freed v r hv (by simpa using hfreed)).1

/-- A routine may change as long as it suits the calls at it. -/
theorem Calls.set (h : Calls s) (hv : s.routines[v]? = some r)
    (hfits : ∀ c ∈ s.calls, c.routine = v → c.pc ≠ .ended → Fits c.pc r → Fits c.pc q)
    (hidle : r.freed = true ∨ 0 < r.lock → q.freed = true ∨ 0 < q.lock)
    (hfreed : q.freed = true → q.lock = -1 ∧ q.next = []) : Calls (s.setRoutine v q) where
  fits c hc hpc := by
    obtain ⟨d, hd, hold⟩ := h.fits c hc hpc
    by_cases hcv : c.routine = v
    · rw [hcv] at hd ⊢
      obtain rfl := Option.some.inj (hv.symm.trans hd)
      exact ⟨q, (getElem?_moved hv).2 (.inl ⟨rfl, rfl⟩), hfits c hc hcv hpc hold⟩
    · exact ⟨d, (getElem?_moved hv).2 (.inr ⟨hcv, hd⟩), hold⟩
  alone := h.alone
  idle w d hd hw := by
    rcases (getElem?_moved hv).1 hd with ⟨rfl, rfl⟩ | ⟨-, hd⟩
    · exact hidle (h.idle w r hv hw)
    · exact h.idle w d hd hw
  freed w d hd hf := by
    rcases (getElem?_moved hv).1 hd with ⟨rfl, rfl⟩ | ⟨-, hd⟩
    · exact hfreed hf
    · exact h.freed w d hd hf

theorem Calls.allocate (h : Calls s) (hlock : 0 < r.lock) (hfreed : r.freed = false) : Calls (s.allocate r) where
  fits c hc hpc := by
    obtain ⟨d, hd, hold⟩ := h.fits c hc hpc
    exact ⟨d, getElem?_made.2 (.inr hd), hold⟩
  alone := h.alone
  idle w d hd hw := by
    rcases getElem?_made.1 hd with ⟨-, rfl⟩ | hd
    · exact .inr hlock
    · exact h.idle w d hd hw
  freed w d hd hf := by
    rcases getElem?_made.1 hd with ⟨-, rfl⟩ | hd
    · rw [hfreed] at hf
      cases hf
    · exact h.freed w d hd hf

/-- A call moves on, and may change its routine. -/
theorem Calls.move {pc : Pc} (h : Calls s) (hi : s.calls[i]? = some c) (hpc : c.pc ≠ .ended)
    (hr : s.routines[c.routine]? = some r) (hfits : pc ≠ .ended → Fits pc q)
    (hidle : pc = .ended → q.freed = true ∨ 0 < q.lock) (hfreed : q.freed = true → q.lock = -1 ∧ q.next = []) :
    Calls ((s.setRoutine c.routine q).goto i c pc) where
  fits d hd hdpc := by
    obtain ⟨j, hj⟩ := List.mem_iff_getElem?.1 hd
    rcases (getElem?_moved hi).1 hj with ⟨rfl, rfl⟩ | ⟨hne, hj⟩
    · exact ⟨q, (getElem?_moved hr).2 (.inl ⟨rfl, rfl⟩), hfits hdpc⟩
    · obtain ⟨e, he, hold⟩ := h.fits d (List.mem_of_getElem? hj) hdpc
      have hother : d.routine ≠ c.routine := fun heq => hne (h.alone j i d c hj hi hdpc hpc heq)
      exact ⟨e, (getElem?_moved hr).2 (.inr ⟨hother, he⟩), hold⟩
  alone j k d e hj hk hd he heq := by
    rcases (getElem?_moved hi).1 hj with ⟨rfl, rfl⟩ | ⟨hnej, hj'⟩
    · rcases (getElem?_moved hi).1 hk with ⟨rfl, -⟩ | ⟨hnek, hk'⟩
      · rfl
      · exact absurd (h.alone k j e c hk' hi he hpc heq.symm) hnek
    · rcases (getElem?_moved hi).1 hk with ⟨rfl, rfl⟩ | ⟨hnek, hk'⟩
      · exact absurd (h.alone j k d c hj' hi hd hpc heq) hnej
      · exact h.alone j k d e hj' hk' hd he heq
  idle w d hd hw := by
    rcases (getElem?_moved hr).1 hd with ⟨rfl, rfl⟩ | ⟨hne, hd⟩
    · exact hidle (hw _ (mem_moved hi) rfl)
    · refine h.idle w d hd fun e he hew => ?_
      obtain ⟨j, hj⟩ := List.mem_iff_getElem?.1 he
      have hji : j ≠ i := by
        rintro rfl
        rw [hi] at hj
        obtain rfl := Option.some.inj hj
        exact hne hew.symm
      exact hw e (List.mem_of_getElem? ((getElem?_moved hi).2 (.inr ⟨hji, hj⟩))) hew
  freed w d hd hf := by
    rcases (getElem?_moved hr).1 hd with ⟨rfl, rfl⟩ | ⟨-, hd⟩
    · exact hfreed hf
    · exact h.freed w d hd hf

/-- A routine that is unlocked for the last time is executed. -/
theorem Calls.unlock (h : Calls s) (hv : s.routines[v]? = some r) (hlock : 0 < r.lock)
    (hsoon : r.lock = 1 → ∀ c ∈ s.calls, c.routine = v → c.pc ≠ .running ∧ c.pc ≠ .check)
    (hunlock : s.unlock v = some s') : Calls s' := by
  simp only [Dispatcher.unlock, hv, Option.bind_eq_bind, Option.bind_some] at hunlock
  obtain rfl := Option.some.inj hunlock
  have hfreed := not_freed_of_lock h hv (by omega)
  have hfits : ∀ c ∈ s.calls, c.routine = v → c.pc ≠ .ended → Fits c.pc r → Fits c.pc { r with lock := r.lock - 1 } := by
    rintro ⟨w, pc⟩ hc - hpc hold
    cases pc with
    | execute =>
      have hzero : r.lock = 0 := hold
      omega
    | store =>
      have hzero := hold.1
      omega
    | running | check => exact ⟨fun hneg => by simp only at hneg; omega, hold.2⟩
    | finish =>
      have hneg := hold.1
      omega
    | ended => exact absurd rfl hpc
  by_cases hone : r.lock = 1
  · have hnone : ∀ c ∈ s.calls, c.routine = v → c.pc = .ended := by
      intro c hc hcv
      by_contra hpc
      have hold := h.fits_at hc hpc (hcv ▸ hv)
      obtain ⟨hrunning, hcheck⟩ := hsoon hone c hc hcv
      obtain ⟨w, pc⟩ := c
      cases pc with
      | execute =>
        have hzero : r.lock = 0 := hold
        omega
      | running => exact hrunning rfl
      | check => exact hcheck rfl
      | store =>
        have hzero := hold.1
        omega
      | finish =>
        have hneg := hold.1
        omega
      | ended => exact hpc rfl
    rw [if_pos hone]
    refine ⟨fun c hc hpc => ?_, fun j k c d hj hk hc hd heq => ?_, fun w d hd hw => ?_, fun w d hd hf => ?_⟩
    · rcases List.mem_append.1 hc with hc | hc
      · obtain ⟨d, hd, hold⟩ := h.fits c hc hpc
        have hcv : c.routine ≠ v := fun heq => hpc (hnone c hc heq)
        exact ⟨d, (getElem?_moved hv).2 (.inr ⟨hcv, hd⟩), hold⟩
      · rw [List.mem_singleton.1 hc]
        refine ⟨_, (getElem?_moved hv).2 (.inl ⟨rfl, rfl⟩), ?_⟩
        show r.lock - 1 = 0
        omega
    · rcases getElem?_made.1 hj with ⟨rfl, rfl⟩ | hj
      · rcases getElem?_made.1 hk with ⟨rfl, -⟩ | hk
        · rfl
        · exact absurd (hnone d (List.mem_of_getElem? hk) heq.symm) hd
      · rcases getElem?_made.1 hk with ⟨rfl, rfl⟩ | hk
        · exact absurd (hnone c (List.mem_of_getElem? hj) heq) hc
        · exact h.alone j k c d hj hk hc hd heq
    · rcases (getElem?_moved hv).1 hd with ⟨rfl, rfl⟩ | ⟨-, hd⟩
      · cases hw ⟨w, .execute⟩ (List.mem_append_right _ (List.mem_singleton_self _)) rfl
      · exact h.idle w d hd fun c hc => hw c (List.mem_append_left _ hc)
    · rcases (getElem?_moved hv).1 hd with ⟨rfl, rfl⟩ | ⟨-, hd⟩
      · rw [hfreed] at hf
        cases hf
      · exact h.freed w d hd hf
  · rw [if_neg hone]
    apply h.set hv hfits
    · exact fun _ => .inr (by simp only; omega)
    · intro hf
      rw [hfreed] at hf
      cases hf

/-! ## The invariant -/

/-- No function is entered twice, and `pending` counts the routines not freed. -/
structure History (s : Dispatcher) : Prop where
  nodup : s.begun.Nodup
  entered : ∀ v ∈ s.begun, ∃ r, s.routines[v]? = some r ∧ r.func = false
  pending : s.pending = weight (fun r : Routine => if r.freed then (0 : Int) else 1) s.routines

theorem History.set (h : History s) (hv : s.routines[v]? = some r) (hfunc : r.func = false → q.func = false)
    (hfreed : q.freed = r.freed) : History (s.setRoutine v q) where
  nodup := h.nodup
  entered w hw := by
    obtain ⟨d, hd, hf⟩ := h.entered w hw
    rcases eq_or_ne w v with rfl | hne
    · obtain rfl := Option.some.inj (hv.symm.trans hd)
      exact ⟨q, (getElem?_moved hv).2 (.inl ⟨rfl, rfl⟩), hfunc hf⟩
    · exact ⟨d, (getElem?_moved hv).2 (.inr ⟨hne, hd⟩), hf⟩
  pending := by
    have hmoved := weight_moved (f := fun r : Routine => if r.freed then (0 : Int) else 1) (q := q) hv
    simp only [hfreed, add_left_inj] at hmoved
    exact h.pending.trans hmoved.symm

theorem History.allocate (h : History s) (hfreed : r.freed = false) : History (s.allocate r) where
  nodup := h.nodup
  entered w hw := by
    obtain ⟨d, hd, hf⟩ := h.entered w hw
    exact ⟨d, getElem?_made.2 (.inr hd), hf⟩
  pending := by
    have hmade : weight (fun r : Routine => if r.freed then (0 : Int) else 1) (s.routines ++ [r]) = _ := weight_made
    simp only [hfreed, Bool.false_eq_true, if_false] at hmade
    simp only [Dispatcher.allocate, hmade, h.pending]

/-- The graph, the calls and the history together. -/
structure Inv (s : Dispatcher) : Prop where
  graph : Graph s none
  calls : Calls s
  history : History s

theorem Graph.lock_pos (h : Graph s none) (hv : s.routines[v]? = some r) (hor : r.handles ≠ 0 ∨ 0 < s.edges v) :
    0 < r.lock := by
  rcases h.counted v r hv with ⟨-, hhandles, hzero, -⟩ | heq
  · omega
  · simp only [reduceCtorEq, if_false] at heq
    omega

theorem lockMore_eq (hv : s.routines[v]? = some r) :
    s.lockMore v = some (s.setRoutine v { r with lock := r.lock + 1 }) := by
  simp [lockMore, hv]

/-- A routine that is locked may be locked more. -/
theorem Calls.lockMore (h : Calls s) (hv : s.routines[v]? = some r) (hlock : 0 < r.lock) :
    Calls (s.setRoutine v { r with lock := r.lock + 1 }) := by
  have hfreed := not_freed_of_lock h hv (by omega)
  refine h.set hv ?_ (fun _ => .inr (by simp only; omega)) (fun hf => ?_)
  · rintro ⟨w, pc⟩ - - hpc hold
    cases pc with
    | execute =>
      have hzero : r.lock = 0 := hold
      omega
    | store =>
      have hzero := hold.1
      omega
    | running | check => exact ⟨fun hneg => by simp only at hneg; omega, hold.2⟩
    | finish =>
      have hneg := hold.1
      omega
    | ended => exact absurd rfl hpc
  · rw [hfreed] at hf
    cases hf

/-- The successors of a routine that has not finished may change. -/
theorem Calls.setNext {next : List Nat} (h : Calls s) (hv : s.routines[v]? = some r) (hlock : 0 < r.lock) :
    Calls (s.setRoutine v { r with next := next }) := by
  have hfreed := not_freed_of_lock h hv (by omega)
  refine h.set hv (fun c _ _ _ hold => ?_) id (fun hf => ?_)
  · cases hpc : c.pc <;> rw [hpc] at hold <;> exact hold
  · rw [hfreed] at hf
    cases hf

/-- What `order_internal` does. -/
structure Ordered (s s' : Dispatcher) (source target : Nat) : Prop where
  inv : Inv s'
  after : Relation.TransGen s'.Edge source target
  mono : ∀ a b, s.Edge a b → Relation.TransGen s'.Edge a b
  orders : s'.orders = s.orders

/-- `order_internal` puts the target after the source. -/
theorem orderInternal_ordered {source target fuel : Nat} (h : Inv s)
    (hsource : ∀ r, s.routines[source]? = some r → 0 < r.lock)
    (htarget : ∃ r, s.routines[target]? = some r ∧ 0 < r.lock)
    (hs' : orderInternal target fuel s source = some s') : Ordered s s' source target := by
  induction fuel generalizing source with
  | zero => cases hs'
  | succ fuel ih =>
    obtain ⟨t, ht, htlock⟩ := htarget
    obtain ⟨r, hr, hs'⟩ := Option.bind_eq_some_iff.1 hs'
    have hrlock := hsource r hr
    -- the lock of the target, and the routine that gets the edge after that
    have hmore := lockMore_eq ht
    have hgraph := h.graph.lockMore ht htlock.le
    have hcalls := h.calls.lockMore ht htlock
    have hhistory : History (s.setRoutine target { t with lock := t.lock + 1 }) := h.history.set ht id rfl
    have hedges : (s.setRoutine target { t with lock := t.lock + 1 }).Edge = s.Edge := edge_set_same ht rfl
    have hlt : target < (s.setRoutine target { t with lock := t.lock + 1 }).routines.length := by
      simpa [setRoutine] using (List.getElem?_eq_some_iff.1 ht).1
    obtain ⟨d, hd, hdlock, hdnext, hdfreed⟩ : ∃ d,
        (s.setRoutine target { t with lock := t.lock + 1 }).routines[source]? = some d ∧ 0 < d.lock ∧
          d.next = r.next ∧ d.freed = r.freed := by
      rcases eq_or_ne source target with rfl | hne
      · obtain rfl := Option.some.inj (ht.symm.trans hr)
        exact ⟨_, (getElem?_moved ht).2 (.inl ⟨rfl, rfl⟩), by simp only; omega, rfl, rfl⟩
      · exact ⟨r, (getElem?_moved ht).2 (.inr ⟨hne, hr⟩), hrlock, rfl, rfl⟩
    generalize hmid : s.setRoutine target { t with lock := t.lock + 1 } = mid at *
    have horders : mid.orders = s.orders := by rw [← hmid]; rfl
    split at hs'
    · next first x y z hnext =>
      obtain ⟨f, hf, hs'⟩ := Option.bind_eq_some_iff.1 hs'
      have hfirst : s.Edge source first := ⟨r, hr, by rw [hnext]; exact List.mem_cons_self⟩
      by_cases hfunc : f.func = true
      · simp only [hfunc, if_true, hmore, Option.bind_eq_bind, Option.bind_some, hd] at hs'
        obtain rfl := Option.some.inj hs'
        rw [hnext] at hdnext
        have hsplit := Graph.split d.root hgraph hd hdnext hlt
        have hmade : (mid.allocate ⟨false, 1, [first, target], 0, false, d.root⟩).routines[source]? = some d :=
          getElem?_made.2 (.inr hd)
        have hp : (mid.allocate ⟨false, 1, [first, target], 0, false, d.root⟩).routines[mid.routines.length]? = _ :=
          getElem?_made.2 (.inl ⟨rfl, rfl⟩)
        rw [hdnext]
        refine ⟨⟨hsplit, ?_, ?_⟩, path_split hd, ?_, horders⟩
        · exact (hcalls.allocate (r := ⟨false, 1, [first, target], 0, false, d.root⟩) one_pos rfl).setNext hmade hdlock
        · exact (hhistory.allocate (r := ⟨false, 1, [first, target], 0, false, d.root⟩) rfl).set hmade id rfl
        · intro a b hab
          rw [← hedges] at hab
          exact edge_split _ hd hdnext hab
      · simp only [hfunc] at hs'
        have hfirstlock : ∀ d, s.routines[first]? = some d → 0 < d.lock := fun d hd =>
          (h.graph.counted first d hd).of_edge hfirst
        have hordered := ih hfirstlock hs'
        exact ⟨hordered.inv, (hordered.mono _ _ hfirst).trans hordered.after, hordered.mono, hordered.orders⟩
    · simp only [hmore, Option.bind_eq_bind, Option.bind_some, hd] at hs'
      obtain rfl := Option.some.inj hs'
      refine ⟨⟨hgraph.addEdge hd hlt, hcalls.setNext hd hdlock, hhistory.set hd id rfl⟩, ?_, ?_, horders⟩
      · exact .single ((edge_set hd).2 (.inl ⟨rfl, List.mem_append_right _ (List.mem_singleton_self _)⟩))
      · intro a b hab
        rw [← hedges] at hab
        exact .single (edge_addEdge hd hab)

/-! ## The steps -/

/-- The routine that a step unlocks. -/
def unlocks (s : Dispatcher) : Action → Option Nat
  | .dispatch v => some v
  | .step i =>
    match s.calls[i]? with
    | some ⟨u, .finish⟩ => (s.routines[u]?).bind fun r => r.next.head?
    | _ => none
  | _ => none

/-- The step takes the last lock off a routine whose call of `execute` has yet to
look whether it has been deferred. -/
def tooSoon (s : Dispatcher) (a : Action) : Bool :=
  (s.unlocks a).any fun v => (s.routines[v]?).any (fun r => r.lock == 1) &&
    s.calls.any fun c => c.routine == v && (c.pc == .running || c.pc == .check)

theorem not_soon (hv : s.routines[v]? = some r) (hsoon : ((s.routines[v]?).any (fun r => r.lock == 1) &&
    s.calls.any fun c => c.routine == v && (c.pc == .running || c.pc == .check)) = false) (hone : r.lock = 1) :
    ∀ c ∈ s.calls, c.routine = v → c.pc ≠ .running ∧ c.pc ≠ .check := by
  rintro c hc rfl
  have hno : c.pc ≠ .running ∧ c.pc ≠ .check := by
    have hall : ∀ d ∈ s.calls, d.routine = c.routine → ¬d.pc = .running ∧ ¬d.pc = .check := by
      simpa [hv, hone] using hsoon
    exact hall c hc rfl
  exact hno

/-- The decrement of `dispatch` keeps the invariant. -/
theorem Inv.unlock (hgraph : Graph s (some v)) (hcalls : Calls s) (hhistory : History s)
    (hsoon : ∀ r, s.routines[v]? = some r → r.lock = 1 → ∀ c ∈ s.calls, c.routine = v → c.pc ≠ .running ∧ c.pc ≠ .check)
    (hunlock : s.unlock v = some s') : Inv s' := by
  obtain ⟨r, hv, hs'⟩ := Option.bind_eq_some_iff.1 hunlock
  have hlock : 0 < r.lock := by
    rcases hgraph.counted v r hv with ⟨-, -, -, hne⟩ | heq
    · exact absurd rfl hne
    · rw [if_pos rfl] at heq
      omega
  have hunlocked := hgraph.unlock hv
  have hset : History (s.setRoutine v { r with lock := r.lock - 1 }) := hhistory.set hv id rfl
  refine ⟨?_, hcalls.unlock hv hlock (hsoon r hv) hunlock, ?_⟩
  · obtain rfl := Option.some.inj hs'
    by_cases hone : r.lock = 1
    · rw [if_pos hone]
      exact hunlocked.calls
    · rw [if_neg hone]
      exact hunlocked
  · obtain rfl := Option.some.inj hs'
    by_cases hone : r.lock = 1
    · rw [if_pos hone]
      exact ⟨hset.nodup, hset.entered, hset.pending⟩
    · rw [if_neg hone]
      exact hset

theorem Graph.ordered (h : Graph s owed) (huv : Relation.TransGen s.Edge u v) :
    Graph { s with orders := s.orders ++ [(u, v)] } owed := by
  refine ⟨h.counted, h.inside, fun a b hab => ?_⟩
  rcases List.mem_append.1 hab with hab | hab
  · exact h.path a b hab
  · obtain ⟨rfl, rfl⟩ := Prod.mk.inj (List.mem_singleton.1 hab)
    obtain ⟨x, ⟨r, hr, -⟩, -⟩ := Relation.TransGen.head'_iff.1 huv
    exact ⟨r, hr, .inr huv⟩

/-- Those ordered before a routine that is about to go on with nothing locking it
have finished. -/
def Finished (s : Dispatcher) (u : Nat) : Prop := ∃ r, s.routines[u]? = some r ∧ r.lock = -1

theorem Graph.finished (h : Graph s none) (hv : s.routines[v]? = some r) (hlock : r.lock = 0)
    (huv : (u, v) ∈ s.orders) : s.Finished u := by
  obtain ⟨d, hd, hor⟩ := h.path u v huv
  refine ⟨d, hd, hor.resolve_right fun hpath => ?_⟩
  obtain ⟨x, -, hxv⟩ := Relation.TransGen.tail'_iff.1 hpath
  have hpos := (h.counted v r hv).of_edge hxv
  omega

/-- A call goes on, its routine as it is. -/
theorem Inv.goto {pc : Pc} (h : Inv s) (hi : s.calls[i]? = some c) (hpc : c.pc ≠ .ended)
    (hr : s.routines[c.routine]? = some r) (hfits : pc ≠ .ended → Fits pc r) (hidle : pc = .ended → 0 < r.lock) :
    Inv (s.goto i c pc) := by
  have hself : s.setRoutine c.routine r = s := by
    obtain ⟨hlt, hget⟩ := List.getElem?_eq_some_iff.1 hr
    simp [setRoutine, ← hget]
  have hmove := h.calls.move hi hpc hr hfits (fun heq => .inr (hidle heq)) (h.calls.freed _ r hr)
  rw [hself] at hmove
  exact ⟨h.graph.calls, hmove, ⟨h.history.nodup, h.history.entered, h.history.pending⟩⟩

/-- A step of a call keeps the invariant, unless it finishes a routine too soon. -/
theorem stepCall_inv (h : Inv s) (hi : s.calls[i]? = some c) (hsoon : s.tooSoon (.step i) = false)
    (hstep : s.stepCall i c = some s') : Inv s' := by
  obtain ⟨r, hr, hstep⟩ := Option.bind_eq_some_iff.1 hstep
  have hmem := List.mem_of_getElem? hi
  obtain ⟨v, pc⟩ := c
  have hfits : pc ≠ .ended → Fits pc r := fun hpc => h.calls.fits_at hmem hpc hr
  cases pc with
  | ended => cases hstep
  | execute =>
    have hlock : r.lock = 0 := hfits nofun
    by_cases hfunc : r.func = true
    · simp only [hfunc, if_true] at hstep
      obtain rfl := Option.some.inj hstep
      have hnot : v ∉ s.begun := by
        intro hv
        obtain ⟨d, hd, hf⟩ := h.history.entered v hv
        rw [Option.some.inj (hr.symm.trans hd)] at hfunc
        rw [hf] at hfunc
        cases hfunc
      have hgraph : Graph (s.setRoutine v { r with func := false }) none := by
        refine h.graph.set hr rfl (h.graph.counted v r hr) (fun _ _ => Iff.rfl) id
      have hset : History (s.setRoutine v { r with func := false }) := h.history.set hr (fun _ => rfl) rfl
      have hmove : Calls ((s.setRoutine v { r with func := false }).goto i ⟨v, .execute⟩ .running) :=
        h.calls.move hi nofun hr (fun _ => ⟨by simp only; omega, rfl⟩) nofun (h.calls.freed v r hr)
      refine ⟨⟨hgraph.counted, hgraph.inside, hgraph.path⟩, ⟨hmove.fits, hmove.alone, hmove.idle, hmove.freed⟩, ?_⟩
      refine ⟨h.history.nodup.append (List.nodup_singleton v) (by simpa using hnot), fun w hw => ?_, hset.pending⟩
      rcases List.mem_append.1 hw with hw | hw
      · exact hset.entered w hw
      · obtain rfl := List.mem_singleton.1 hw
        exact ⟨_, (getElem?_moved hr).2 (.inl ⟨rfl, rfl⟩), rfl⟩
    · simp only [hfunc] at hstep
      obtain rfl := Option.some.inj hstep
      exact h.goto hi nofun hr (fun _ => ⟨by omega, by simpa using hfunc⟩) nofun
  | running =>
    obtain rfl := Option.some.inj hstep
    exact h.goto hi nofun hr (fun _ => hfits nofun) nofun
  | check =>
    obtain ⟨hneg, hfunc⟩ := hfits nofun
    have hcounted := h.graph.counted v r hr
    obtain rfl := Option.some.inj hstep
    by_cases hzero : r.lock = 0
    · rw [if_neg (not_not.2 hzero)]
      exact h.goto hi nofun hr (fun _ => ⟨hzero, hfunc⟩) nofun
    · rw [if_pos hzero]
      refine h.goto hi nofun hr (fun hne => absurd rfl hne) fun _ => ?_
      rcases hcounted with ⟨hone, -⟩ | heq
      · exact absurd hone hneg
      · simp only [reduceCtorEq, if_false] at heq
        omega
  | store =>
    obtain ⟨hzero, hfunc⟩ := hfits nofun
    obtain rfl := Option.some.inj hstep
    have hfreed := not_freed_of_lock h.calls hr (by omega)
    refine ⟨?_, h.calls.move hi nofun hr (fun _ => ⟨rfl, hfreed⟩) nofun ?_, ?_⟩
    · apply Graph.calls
      refine h.graph.set (q := { r with lock := -1 }) hr rfl (.inl ⟨rfl, ?_⟩) (fun _ _ => Iff.rfl) fun _ => rfl
      rcases h.graph.counted v r hr with ⟨hone, -⟩ | heq
      · omega
      · simp only [reduceCtorEq, if_false] at heq
        refine ⟨by simp only; omega, ?_, nofun⟩
        show s.edges v = 0
        omega
    · intro hf
      rw [hfreed] at hf
      cases hf
    · have hset : History (s.setRoutine v { r with lock := -1 }) := h.history.set hr id rfl
      exact ⟨hset.nodup, hset.entered, hset.pending⟩
  | finish =>
    obtain ⟨hlock, hfreed⟩ := hfits nofun
    simp only at hstep
    split at hstep
    · next p rest hnext =>
      have hgraph := h.graph.pop hr hlock hnext
      have hcalls : Calls (s.setRoutine v { r with next := rest }) := by
        refine h.calls.set hr (fun c _ _ _ hold => ?_) id (fun hf => ?_)
        · cases hpc : c.pc <;> rw [hpc] at hold <;> exact hold
        · rw [hfreed] at hf
          cases hf
      refine Inv.unlock hgraph hcalls (h.history.set hr id rfl) (fun d hd hone => ?_) hstep
      rcases (getElem?_moved hr).1 hd with ⟨-, rfl⟩ | ⟨-, hd⟩
      · exact absurd (hlock.symm.trans hone) (by decide)
      · have hsoon' := hsoon
        simp only [tooSoon, unlocks, hi, hr, Option.bind_some, hnext, List.head?_cons, Option.any_some] at hsoon'
        exact not_soon (s := s) hd hsoon' hone
    · next hnext =>
      obtain rfl := Option.some.inj hstep
      have hgraph : Graph (s.setRoutine v { r with freed := true }) none := by
        refine h.graph.set hr rfl (h.graph.counted v r hr) (fun _ _ => Iff.rfl) id
      have hmove : Calls ((s.setRoutine v { r with freed := true }).goto i ⟨v, .finish⟩ .ended) :=
        h.calls.move hi nofun hr (fun hne => absurd rfl hne) (fun _ => .inl rfl) fun _ => ⟨hlock, hnext⟩
      refine ⟨⟨hgraph.counted, hgraph.inside, hgraph.path⟩, ⟨hmove.fits, hmove.alone, hmove.idle, hmove.freed⟩, ?_⟩
      refine ⟨h.history.nodup, fun w hw => ?_, ?_⟩
      · obtain ⟨d, hd, hf⟩ := h.history.entered w hw
        rcases eq_or_ne w v with rfl | hne
        · obtain rfl := Option.some.inj (hr.symm.trans hd)
          exact ⟨_, (getElem?_moved hr).2 (.inl ⟨rfl, rfl⟩), hf⟩
        · exact ⟨d, (getElem?_moved hr).2 (.inr ⟨hne, hd⟩), hf⟩
      · have hmoved := weight_moved (f := fun r : Routine => if r.freed then (0 : Int) else 1)
          (q := { r with freed := true }) hr
        simp only [hfreed, Bool.false_eq_true, if_false, if_true, add_zero] at hmoved
        show s.pending - 1 = weight _ (s.routines.set v { r with freed := true })
        rw [h.history.pending, ← hmoved, add_sub_cancel_right]

/-- An action keeps the invariant, unless it finishes a routine too soon. -/
theorem Inv.step (h : Inv s) (a : Action) (hsoon : s.tooSoon a = false) : Inv (s.step a) := by
  rw [Dispatcher.step]
  cases hact : s.act a with
  | none => exact h
  | some s' =>
    rw [Option.getD_some]
    cases a with
    | allocate func =>
      obtain rfl := Option.some.inj hact
      exact ⟨h.graph.allocate rfl rfl, h.calls.allocate one_pos rfl, h.history.allocate rfl⟩
    | order source target =>
      obtain ⟨u, hu, hact⟩ := Option.bind_eq_some_iff.1 hact
      obtain ⟨v, hv, hact⟩ := Option.bind_eq_some_iff.1 hact
      split at hact
      · cases hact
      · next hhandles =>
        push Not at hhandles
        obtain ⟨t, ht, hact⟩ := Option.bind_eq_some_iff.1 hact
        obtain rfl := Option.some.inj hact
        have hsource : ∀ r, s.routines[source]? = some r → 0 < r.lock := by
          intro r hr
          obtain rfl := Option.some.inj (hu.symm.trans hr)
          exact h.graph.lock_pos hu (.inl hhandles.1)
        have hordered := orderInternal_ordered h hsource ⟨v, hv, h.graph.lock_pos hv (.inl hhandles.2.1)⟩ ht
        have hgraph := hordered.inv.graph.ordered hordered.after
        rw [hordered.orders] at hgraph
        have hcalls := hordered.inv.calls
        have hhistory := hordered.inv.history
        exact ⟨hgraph, ⟨hcalls.fits, hcalls.alone, hcalls.idle, hcalls.freed⟩,
          ⟨hhistory.nodup, hhistory.entered, hhistory.pending⟩⟩
    | defer v =>
      obtain ⟨r, hr, hact⟩ := Option.bind_eq_some_iff.1 hact
      split at hact
      · next hor =>
        obtain rfl := Option.some.inj hact
        have hcounted := h.graph.counted v r hr
        -- the routine has a handle, or runs; else it may be about to be executed
        have hopen : r.lock ≠ -1 ∧ ∀ c ∈ s.calls, c.routine = v → c.pc ≠ .execute ∧ c.pc ≠ .store := by
          rcases hor with hhandles | hruns
          · have hlock := h.graph.lock_pos hr (.inl hhandles)
            refine ⟨by omega, fun c hc hcv => ⟨fun hpc => ?_, fun hpc => ?_⟩⟩
            · have hfits := h.calls.fits_at hc (by rw [hpc]; exact nofun) (hcv ▸ hr)
              rw [hpc] at hfits
              have hzero : r.lock = 0 := hfits
              omega
            · have hfits := h.calls.fits_at hc (by rw [hpc]; exact nofun) (hcv ▸ hr)
              rw [hpc] at hfits
              have hzero := hfits.1
              omega
          · simp only [runs, List.any_eq_true, Bool.and_eq_true, beq_iff_eq] at hruns
            obtain ⟨d, hd, hdv, hdpc⟩ := hruns
            have hfits := h.calls.fits_at hd (by rw [hdpc]; exact nofun) (hdv ▸ hr)
            rw [hdpc] at hfits
            have hall : ∀ c ∈ s.calls, c.routine = v → c.pc ≠ .ended → c.pc = .running := by
              intro c hc hcv hpc
              obtain ⟨j, hj⟩ := List.mem_iff_getElem?.1 hd
              obtain ⟨k, hk⟩ := List.mem_iff_getElem?.1 hc
              have heq := h.calls.alone j k d c hj hk (by rw [hdpc]; exact nofun) hpc (hdv.trans hcv.symm)
              subst heq
              rw [hj] at hk
              rw [← Option.some.inj hk, hdpc]
            refine ⟨hfits.1, fun c hc hcv => ⟨fun hpc => ?_, fun hpc => ?_⟩⟩
            · have hrunning := hall c hc hcv (by rw [hpc]; exact nofun)
              rw [hpc] at hrunning
              cases hrunning
            · have hrunning := hall c hc hcv (by rw [hpc]; exact nofun)
              rw [hpc] at hrunning
              cases hrunning
        have hfreed := not_freed_of_lock h.calls hr hopen.1
        have hlock : r.lock = r.handles + s.edges v := by
          rcases hcounted with ⟨hneg, -⟩ | heq
          · exact absurd hneg hopen.1
          · simpa using heq
        refine ⟨h.graph.set hr rfl (.inr ?_) (fun _ _ => Iff.rfl) (fun hneg => absurd hneg hopen.1), ?_,
          h.history.set hr id rfl⟩
        · simp only [hlock]
          push_cast
          simp
          omega
        · refine h.calls.set hr ?_ (fun _ => .inr (by simp only; omega)) (fun hf => ?_)
          · rintro ⟨w, pc⟩ hc hcv hpc hold
            cases pc with
            | execute => exact absurd rfl (hopen.2 _ hc hcv).1
            | store => exact absurd rfl (hopen.2 _ hc hcv).2
            | running | check => exact ⟨fun hneg => by simp only at hneg; omega, hold.2⟩
            | finish => exact absurd hold.1 hopen.1
            | ended => exact absurd rfl hpc
          · rw [hfreed] at hf
            cases hf
      · cases hact
    | dispatch v =>
      obtain ⟨r, hr, hact⟩ := Option.bind_eq_some_iff.1 hact
      split at hact
      · cases hact
      · next hhandles =>
        have hlock := h.graph.lock_pos hr (.inl hhandles)
        have hfreed := not_freed_of_lock h.calls hr (by omega)
        refine Inv.unlock (s := s.setRoutine v { r with handles := r.handles - 1 })
          (h.graph.set hr rfl (.inr ?_) ?_ id) (h.calls.set hr ?_ id ?_) (h.history.set hr id rfl) ?_ hact
        · rcases h.graph.counted v r hr with ⟨hneg, -⟩ | heq
          · omega
          · simp only [reduceCtorEq, if_false] at heq
            simp only [if_true]
            omega
        · intro w hw
          simp [Ne.symm hw]
        · rintro ⟨w, pc⟩ - - - hold
          cases pc <;> exact hold
        · intro hf
          rw [hfreed] at hf
          cases hf
        · intro d hd hone
          rcases (getElem?_moved hr).1 hd with ⟨-, rfl⟩ | ⟨hne, -⟩
          · exact not_soon (s := s) hr hsoon hone
          · exact absurd rfl hne
    | step i =>
      obtain ⟨c, hi, hstep⟩ := Option.bind_eq_some_iff.1 hact
      exact stepCall_inv h hi hsoon hstep

theorem inv_run {acts : List Action} (h : Each (fun pre a => (run pre).tooSoon a = false) acts) : Inv (run acts) := by
  induction acts using List.reverseRecOn with
  | nil =>
    refine ⟨⟨nofun, fun _ _ => rfl, nofun⟩, ⟨nofun, nofun, nofun, nofun⟩, ⟨List.nodup_nil, nofun, rfl⟩⟩
  | append_singleton acts a ih =>
    obtain ⟨hacts, ha⟩ := each_concat.1 h
    rw [run, List.foldl_concat]
    exact (ih hacts).step a ha

/-! ## In order, once -/

/-- The routine whose function a step enters. -/
def enters (s : Dispatcher) : Action → Option Nat
  | .step i =>
    match s.calls[i]? with
    | some ⟨v, .execute⟩ => if (s.routines[v]?).any Routine.func then some v else none
    | _ => none
  | _ => none

/-- The routine that a step finds done, not deferred. -/
def finishes (s : Dispatcher) : Action → Option Nat
  | .step i =>
    match s.calls[i]? with
    | some ⟨v, .check⟩ => if (s.routines[v]?).any fun r => r.lock == 0 then some v else none
    | _ => none
  | _ => none

/-- What the dispatcher is for. -/
structure Orderly (acts : List Action) : Prop where
  /-- No function is entered twice. -/
  once : (run acts).begun.Nodup
  /-- A routine is entered, and finishes, after those ordered before it by then have finished. -/
  ordered : Each (fun pre a => ∀ v, (run pre).enters a = some v ∨ (run pre).finishes a = some v →
    ∀ u, (u, v) ∈ (run pre).orders → (run pre).Finished u) acts
  /-- What is freed nobody executes, names or comes before. -/
  whole : ∀ v r, (run acts).routines[v]? = some r → r.freed = true →
    r.handles = 0 ∧ (∀ u, ¬ (run acts).Edge u v) ∧ ∀ c ∈ (run acts).calls, c.routine = v → c.pc = .ended
  /-- `pending_count` is the number of the others. -/
  counted : (run acts).pending = weight (fun r : Routine => if r.freed then (0 : Int) else 1) (run acts).routines

/-- A routine goes on only when those it was ordered after have finished. -/
theorem finished_of_goes (h : Inv s) {a : Action} (hv : s.enters a = some v ∨ s.finishes a = some v)
    (huv : (u, v) ∈ s.orders) : s.Finished u := by
  have hzero : ∃ r, s.routines[v]? = some r ∧ r.lock = 0 := by
    cases a with
    | step i =>
      simp only [enters, finishes] at hv
      cases hi : s.calls[i]? with
      | none => simp [hi] at hv
      | some c =>
        obtain ⟨w, pc⟩ := c
        cases pc with
        | execute =>
          simp only [hi, reduceCtorEq, or_false, Option.ite_none_right_eq_some, Option.some.injEq] at hv
          obtain ⟨-, rfl⟩ := hv
          exact h.calls.fits _ (List.mem_of_getElem? hi) nofun
        | check =>
          simp only [hi, reduceCtorEq, false_or, Option.ite_none_right_eq_some, Option.some.injEq] at hv
          obtain ⟨hany, rfl⟩ := hv
          simpa [Option.any_eq_true] using hany
        | _ => simp [hi] at hv
    | _ => simp [enters, finishes] at hv
  obtain ⟨r, hr, hlock⟩ := hzero
  exact h.graph.finished hr hlock huv

theorem routines_in_order (acts : List Action) (h : Each (fun pre a => (run pre).tooSoon a = false) acts) :
    Orderly acts := by
  have hinv := inv_run h
  refine ⟨hinv.history.nodup, ?_, ?_, hinv.history.pending⟩
  · rintro pre a post rfl v hv u huv
    have hpre : Each (fun pre a => (run pre).tooSoon a = false) pre := by
      intro before b after heq
      apply h before b (after ++ a :: post)
      rw [heq, List.append_assoc, List.cons_append]
    exact finished_of_goes (inv_run hpre) hv huv
  · intro v r hr hfreed
    obtain ⟨hlock, -⟩ := hinv.calls.freed v r hr hfreed
    have hnone : r.handles = 0 ∧ (run acts).edges v = 0 := by
      rcases hinv.graph.counted v r hr with ⟨-, hhandles, hzero, -⟩ | heq
      · exact ⟨hhandles, hzero⟩
      · simp only [reduceCtorEq, if_false] at heq
        omega
    refine ⟨hnone.1, fun u huv => (edges_of_edge huv).ne' hnone.2, fun c hc hcv => ?_⟩
    by_contra hpc
    have hfits := hinv.calls.fits_at hc hpc (hcv ▸ hr)
    obtain ⟨w, pc⟩ := c
    cases pc with
    | execute =>
      have hzero : r.lock = 0 := hfits
      omega
    | running | check => exact hfits.1 hlock
    | store =>
      have hzero := hfits.1
      omega
    | finish =>
      rw [hfits.2] at hfreed
      cases hfreed
    | ended => exact hpc rfl

/-- Two routines in order, the first of them deferred once by its function. -/
def deferredOnce : List Action :=
  [.allocate true, .allocate true, .order 0 1, .dispatch 1, .dispatch 0, .step 0, .defer 0, .step 0, .step 0,
    .dispatch 0] ++ List.replicate 6 (.step 1) ++ List.replicate 5 (.step 2)

theorem deferred_in_order : Orderly deferredOnce := routines_in_order deferredOnce (by decide +kernel)

/-- The handle of a deferral is dispatched before the routine returns. -/
def dispatchedTooSoon : List Action :=
  [.allocate true, .dispatch 0, .step 0, .defer 0, .dispatch 0, .step 1, .step 0, .step 0, .step 1, .step 0, .step 1]

/-- The routine finishes twice. -/
example : (run dispatchedTooSoon).calls = [⟨0, .finish⟩, ⟨0, .finish⟩] := by decide +kernel

end Dispatcher
end NgxLuaCpp.IrisDispatcher
