import NgxLuaCpp.IrisDispatcher
import Mathlib.Order.WellFoundedSet
/-!
# No routine is left

Where a routine has more than four successors, `order_internal` puts junctions
between it and them. We show that these bring no order of their own: when every
routine has been dispatched and every call has ended, none is left, unless the
orders asked for form a cycle.
-/
open Monitor Trace

namespace NgxLuaCpp.IrisDispatcher
namespace Dispatcher

/-! ## Junctions -/

/-- Routines are allocated with a function, and ordered after another before it is entered. -/
def plain (s : Dispatcher) : Action → Bool
  | .allocate func => func
  | .order _ target => (s.routines[target]?).any Routine.func
  | _ => true

variable {s s' : Dispatcher} {u v w i root : Nat} {r q : Routine} {c : Call} {orders : List (Nat × Nat)}

/-- `w` may come after `u`, which stands for `root`: it has been ordered after that,
or is a junction of it. -/
def After (s : Dispatcher) (orders : List (Nat × Nat)) (root u w : Nat) : Prop :=
  ∃ d, s.routines[w]? = some d ∧ (d.root = w → d.func = true ∧ (root, w) ∈ orders) ∧
    (d.root ≠ w → d.root = root ∧ (root = u ∨ u < w))

/-- A junction stands for the routine it is a junction of. -/
structure Rooted (s : Dispatcher) (orders : List (Nat × Nat)) : Prop where
  root : ∀ (v : Nat) (r : Routine), s.routines[v]? = some r → ∃ d, s.routines[r.root]? = some d ∧ d.root = r.root
  junction : ∀ (v : Nat) (r : Routine), s.routines[v]? = some r → r.root ≠ v → r.handles = 0 ∧ r.func = false
  after : ∀ (u : Nat) (d : Routine), s.routines[u]? = some d → ∀ w ∈ d.next, After s orders d.root u w
  runs : ∀ c ∈ s.calls, c.pc = .running → ∃ r, s.routines[c.routine]? = some r ∧ r.root = c.routine
  entered : ∀ (v : Nat) (r : Routine), s.routines[v]? = some r → r.root = v → r.func = false → v ∈ s.begun
  done : ∀ (v : Nat) (r : Routine), s.routines[v]? = some r → r.lock = -1 → r.func = false

theorem After.keep (h : After s orders root u w)
    (hkeep : ∀ d, s.routines[w]? = some d → ∃ e, s'.routines[w]? = some e ∧ e.root = d.root ∧ e.func = d.func) :
    After s' orders root u w := by
  obtain ⟨d, hd, hself, hjunction⟩ := h
  obtain ⟨e, he, hroot, hfunc⟩ := hkeep d hd
  rw [← hfunc] at hself
  rw [← hroot] at hself hjunction
  exact ⟨e, he, hself, hjunction⟩

/-- A routine may change as long as what comes after it may. -/
theorem Rooted.set (h : Rooted s orders) (hv : s.routines[v]? = some r) (hroot : q.root = r.root)
    (hjunction : r.root ≠ v → q.handles = 0) (hfunc : q.func = r.func) (hdone : q.lock = -1 → r.func = false)
    (hnext : ∀ w ∈ q.next, w ∈ r.next ∨ After s orders r.root v w) : Rooted (s.setRoutine v q) orders := by
  have hkeep : ∀ (w : Nat) (d : Routine), s.routines[w]? = some d →
      ∃ e : Routine, (s.setRoutine v q).routines[w]? = some e ∧ e.root = d.root ∧ e.func = d.func := by
    intro w d hd
    rcases eq_or_ne w v with rfl | hne
    · obtain rfl := Option.some.inj (hv.symm.trans hd)
      exact ⟨q, (getElem?_moved hv).2 (.inl ⟨rfl, rfl⟩), hroot, hfunc⟩
    · exact ⟨d, (getElem?_moved hv).2 (.inr ⟨hne, hd⟩), rfl, rfl⟩
  have hroots : ∀ (w : Nat) (d : Routine), s.routines[w]? = some d →
      ∃ e : Routine, (s.setRoutine v q).routines[d.root]? = some e ∧ e.root = d.root := by
    intro w d hd
    obtain ⟨x, hx, hxroot⟩ := h.root w d hd
    obtain ⟨e, he, heroot, -⟩ := hkeep _ x hx
    exact ⟨e, he, heroot.trans hxroot⟩
  refine ⟨fun w d hd => ?_, fun w d hd hne => ?_, fun w d hd x hx => ?_, fun c hc hpc => ?_, fun w d hd hw hf => ?_,
    fun w d hd hl => ?_⟩ <;> try rcases (getElem?_moved hv).1 hd with ⟨rfl, rfl⟩ | ⟨-, hd⟩
  · exact hroot ▸ hroots w r hv
  · exact hroots w d hd
  · exact ⟨hjunction (hroot ▸ hne), hfunc.trans (h.junction w r hv (hroot ▸ hne)).2⟩
  · exact h.junction w d hd hne
  · rw [hroot]
    apply ((hnext x hx).elim (h.after w r hv x) id).keep
    exact hkeep x
  · exact (h.after w d hd x hx).keep (hkeep x)
  · obtain ⟨d, hd, hdroot⟩ := h.runs c hc hpc
    obtain ⟨e, he, heroot, -⟩ := hkeep _ d hd
    exact ⟨e, he, heroot.trans hdroot⟩
  · exact h.entered w r hv (hroot ▸ hw) (hfunc ▸ hf)
  · exact h.entered w d hd hw hf
  · exact hfunc.trans (hdone hl)
  · exact h.done w d hd hl

theorem Rooted.calls {calls : List Call} (h : Rooted s orders)
    (hcalls : ∀ c ∈ calls, c.pc = .running → ∃ r, s.routines[c.routine]? = some r ∧ r.root = c.routine) :
    Rooted { s with calls := calls } orders :=
  ⟨h.root, h.junction, h.after, hcalls, h.entered, h.done⟩

theorem Rooted.goto {pc : Pc} (h : Rooted s orders) (hi : s.calls[i]? = some c)
    (hpc : pc = .running → ∃ r, s.routines[c.routine]? = some r ∧ r.root = c.routine) : Rooted (s.goto i c pc) orders := by
  apply h.calls
  intro d hd hrunning
  obtain ⟨j, hj⟩ := List.mem_iff_getElem?.1 hd
  rcases (getElem?_moved hi).1 hj with ⟨-, rfl⟩ | ⟨-, hj⟩
  · exact hpc hrunning
  · exact h.runs d (List.mem_of_getElem? hj) hrunning

/-- The function of a routine is entered, which nothing comes before any more. -/
theorem Rooted.enter (h : Rooted s orders) (hv : s.routines[v]? = some r) (hroot : r.root = v)
    (hedge : ∀ u, ¬ s.Edge u v) :
    Rooted { s.setRoutine v { r with func := false } with begun := s.begun ++ [v] } orders := by
  have hself : (s.setRoutine v { r with func := false }).routines[v]? = some { r with func := false } :=
    (getElem?_moved hv).2 (.inl ⟨rfl, rfl⟩)
  have hkeep : ∀ (w : Nat) (d : Routine), s.routines[w]? = some d →
      ∃ e : Routine, (s.setRoutine v { r with func := false }).routines[w]? = some e ∧ e.root = d.root ∧
        (w ≠ v → e.func = d.func) := by
    intro w d hd
    rcases eq_or_ne w v with rfl | hne
    · obtain rfl := Option.some.inj (hv.symm.trans hd)
      exact ⟨_, hself, rfl, fun hne => absurd rfl hne⟩
    · exact ⟨d, (getElem?_moved hv).2 (.inr ⟨hne, hd⟩), rfl, fun _ => rfl⟩
  have hafter : ∀ (u : Nat) (d : Routine), s.routines[u]? = some d → ∀ w ∈ d.next,
      After { s.setRoutine v { r with func := false } with begun := s.begun ++ [v] } orders d.root u w := by
    intro u d hd w hw
    refine (h.after u d hd w hw).keep fun x hx => ?_
    obtain ⟨e, he, heroot, hfunc⟩ := hkeep w x hx
    have hne : w ≠ v := by
      rintro rfl
      exact hedge u ⟨d, hd, hw⟩
    exact ⟨e, he, heroot, hfunc hne⟩
  refine ⟨fun w d hd => ?_, fun w d hd hne => ?_, fun w d hd x hx => ?_, fun c hc hpc => ?_, fun w d hd hw hf => ?_,
    fun w d hd hl => ?_⟩ <;> try rcases (getElem?_moved hv).1 hd with ⟨rfl, rfl⟩ | ⟨-, hd⟩
  · exact ⟨_, hroot.symm ▸ hself, rfl⟩
  · obtain ⟨x, hx, hxroot⟩ := h.root w d hd
    obtain ⟨e, he, heroot, -⟩ := hkeep _ x hx
    exact ⟨e, he, heroot.trans hxroot⟩
  · exact absurd hroot hne
  · exact h.junction w d hd hne
  · exact hafter w r hv x hx
  · exact hafter w d hd x hx
  · obtain ⟨d, hd, hdroot⟩ := h.runs c hc hpc
    obtain ⟨e, he, heroot, -⟩ := hkeep _ d hd
    exact ⟨e, he, heroot.trans hdroot⟩
  · exact List.mem_append_right _ (List.mem_singleton_self w)
  · exact List.mem_append_left _ (h.entered w d hd hw hf)
  · rfl
  · exact h.done w d hd hl

/-- A new routine, or a new junction. -/
theorem Rooted.allocate (h : Rooted s orders)
    (hroot : r.root = s.routines.length ∧ r.func = true ∨
      r.handles = 0 ∧ r.func = false ∧ ∃ d, s.routines[r.root]? = some d ∧ d.root = r.root)
    (hlock : r.lock ≠ -1) (hnext : ∀ w ∈ r.next, After s orders r.root s.routines.length w) :
    Rooted (s.allocate r) orders := by
  have hself : (s.allocate r).routines[s.routines.length]? = some r := getElem?_made.2 (.inl ⟨rfl, rfl⟩)
  have hold : ∀ (w : Nat) (d : Routine), s.routines[w]? = some d →
      ∃ e : Routine, (s.allocate r).routines[w]? = some e ∧ e.root = d.root ∧ e.func = d.func :=
    fun w d hd => ⟨d, getElem?_made.2 (.inr hd), rfl, rfl⟩
  refine ⟨fun w d hd => ?_, fun w d hd hne => ?_, fun w d hd x hx => ?_, fun c hc hpc => ?_, fun w d hd hw hf => ?_,
    fun w d hd hl => ?_⟩ <;> try rcases getElem?_made.1 hd with ⟨rfl, rfl⟩ | hd
  · rcases hroot with ⟨heq, -⟩ | ⟨-, -, x, hx, hxroot⟩
    · exact ⟨d, heq ▸ hself, rfl⟩
    · exact ⟨x, getElem?_made.2 (.inr hx), hxroot⟩
  · obtain ⟨x, hx, hxroot⟩ := h.root w d hd
    exact ⟨x, getElem?_made.2 (.inr hx), hxroot⟩
  · rcases hroot with ⟨heq, -⟩ | ⟨hhandles, hfunc, -⟩
    · exact absurd heq hne
    · exact ⟨hhandles, hfunc⟩
  · exact h.junction w d hd hne
  · exact (hnext x hx).keep (hold x)
  · exact (h.after w d hd x hx).keep (hold x)
  · obtain ⟨d, hd, hdroot⟩ := h.runs c hc hpc
    exact ⟨d, getElem?_made.2 (.inr hd), hdroot⟩
  · rcases hroot with ⟨-, hfunc⟩ | ⟨-, -, x, hx, -⟩
    · rw [hfunc] at hf
      cases hf
    · rw [hw] at hx
      exact absurd (List.getElem?_eq_some_iff.1 hx).1 (lt_irrefl _)
  · exact h.entered w d hd hw hf
  · exact absurd hl hlock
  · exact h.done w d hd hl

/-- A junction is put before the first successor and the new one. -/
theorem Rooted.split {t first : Nat} {rest : List Nat} {f : Routine} (h : Rooted s orders)
    (hu : s.routines[u]? = some r) (hnext : r.next = first :: rest) (hf : s.routines[first]? = some f)
    (hfroot : f.root = first) (ht : ∀ u, After s orders r.root u t) :
    Rooted ((s.allocate ⟨false, 1, [first, t], 0, false, r.root⟩).setRoutine u
      { r with next := s.routines.length :: rest }) orders := by
  have hmem : first ∈ r.next := by
    rw [hnext]
    exact List.mem_cons_self
  have hmade : Rooted (s.allocate ⟨false, 1, [first, t], 0, false, r.root⟩) orders := by
    refine h.allocate (.inr ⟨rfl, rfl, h.root u r hu⟩) nofun fun w hw => ?_
    rcases List.mem_cons.1 hw with rfl | hw
    · obtain ⟨d, hd, hself, -⟩ := h.after u r hu w hmem
      obtain rfl := Option.some.inj (hf.symm.trans hd)
      exact ⟨f, hf, hself, fun hne => absurd hfroot hne⟩
    · rw [List.mem_singleton.1 hw]
      exact ht _
  have hlt : u < s.routines.length := (List.getElem?_eq_some_iff.1 hu).1
  refine hmade.set (q := { r with next := s.routines.length :: rest }) (getElem?_made.2 (.inr hu)) rfl
    (fun hne => (h.junction u r hu hne).1) rfl (h.done u r hu) fun w hw => ?_
  rcases List.mem_cons.1 hw with rfl | hw
  · refine .inr ⟨_, getElem?_made.2 (.inl ⟨rfl, rfl⟩), fun heq => ?_, fun _ => ⟨rfl, .inr hlt⟩⟩
    obtain ⟨x, hx, -⟩ := h.root u r hu
    exact absurd heq (List.getElem?_eq_some_iff.1 hx).1.ne
  · exact .inl (by rw [hnext]; exact List.mem_cons_of_mem _ hw)

/-- `order_internal` puts after a routine, or its junctions, what was ordered after it. -/
theorem orderInternal_rooted {source target fuel : Nat} {r t : Routine} (h : Inv s) (hr : Rooted s orders)
    (hsource : s.routines[source]? = some r) (hlock : 0 < r.lock) (ht : s.routines[target]? = some t)
    (htlock : 0 < t.lock) (hroot : t.root = target) (hfunc : t.func = true) (horder : (r.root, target) ∈ orders)
    (hs' : orderInternal target fuel s source = some s') : Rooted s' orders := by
  induction fuel generalizing source r with
  | zero => cases hs'
  | succ fuel ih =>
    simp only [orderInternal, hsource, Option.bind_eq_bind, Option.bind_some] at hs'
    have hmore := lockMore_eq ht
    have hgraph := h.graph.lockMore ht htlock.le
    have hrooted : Rooted (s.setRoutine target { t with lock := t.lock + 1 }) orders :=
      hr.set ht rfl (fun hne => absurd hroot hne) rfl (fun heq => by simp only at heq; omega) fun _ => .inl
    have htarget : (s.setRoutine target { t with lock := t.lock + 1 }).routines[target]? = some { t with lock := t.lock + 1 } :=
      (getElem?_moved ht).2 (.inl ⟨rfl, rfl⟩)
    obtain ⟨d, hd, hdroot, hdnext⟩ : ∃ d : Routine,
        (s.setRoutine target { t with lock := t.lock + 1 }).routines[source]? = some d ∧ d.root = r.root ∧
          d.next = r.next := by
      rcases eq_or_ne source target with rfl | hne
      · obtain rfl := Option.some.inj (ht.symm.trans hsource)
        exact ⟨_, htarget, rfl, rfl⟩
      · exact ⟨r, (getElem?_moved ht).2 (.inr ⟨hne, hsource⟩), rfl, rfl⟩
    have hafter : ∀ root u, (root, target) ∈ orders →
        After (s.setRoutine target { t with lock := t.lock + 1 }) orders root u target :=
      fun root u horder => ⟨_, htarget, fun _ => ⟨hfunc, horder⟩, fun hne => absurd hroot hne⟩
    split at hs'
    · next first x y z hnext =>
      obtain ⟨f, hf, hs'⟩ := Option.bind_eq_some_iff.1 hs'
      have hmem : first ∈ r.next := by
        rw [hnext]
        exact List.mem_cons_self
      by_cases hffunc : f.func = true
      · simp only [hffunc, if_true, hmore, Option.bind_some, hd] at hs'
        obtain rfl := Option.some.inj hs'
        have hfroot : f.root = first := by
          by_contra hne
          rw [(hr.junction first f hf hne).2] at hffunc
          cases hffunc
        obtain ⟨e, he, heroot⟩ : ∃ e : Routine,
            (s.setRoutine target { t with lock := t.lock + 1 }).routines[first]? = some e ∧ e.root = first := by
          rcases eq_or_ne first target with rfl | hne
          · exact ⟨_, htarget, hroot⟩
          · exact ⟨f, (getElem?_moved ht).2 (.inr ⟨hne, hf⟩), hfroot⟩
        rw [hnext] at hdnext
        have hsplit := hrooted.split hd hdnext he heroot fun u => hafter d.root u (hdroot ▸ horder)
        rw [hdnext]
        exact hsplit
      · simp only [hffunc] at hs'
        obtain ⟨e, he, hself, hbelow⟩ := hr.after source r hsource first hmem
        obtain rfl := Option.some.inj (hf.symm.trans he)
        have hne : f.root ≠ first := fun heq => hffunc (hself heq).1
        exact ih hf ((h.graph.counted first f hf).of_edge ⟨r, hsource, hmem⟩) ((hbelow hne).1 ▸ horder) hs'
    · simp only [hmore, Option.bind_some, hd] at hs'
      obtain rfl := Option.some.inj hs'
      refine hrooted.set hd rfl (fun hne => (hrooted.junction source d hd hne).1) rfl (hrooted.done source d hd) ?_
      intro w hw
      refine (List.mem_append.1 hw).imp_right fun hw => ?_
      rw [List.mem_singleton.1 hw]
      exact hafter d.root source (hdroot ▸ horder)

theorem Rooted.more {more : List (Nat × Nat)} (h : Rooted s orders) : Rooted s (orders ++ more) := by
  refine ⟨h.root, h.junction, fun u d hd w hw => ?_, h.runs, h.entered, h.done⟩
  obtain ⟨e, he, hself, hjunction⟩ := h.after u d hd w hw
  exact ⟨e, he, fun heq => (hself heq).imp_right (List.mem_append_left _), hjunction⟩

/-- The decrement of `dispatch` leaves what comes after what. -/
theorem Rooted.unlock (h : Rooted s orders) (hlock : ∀ r, s.routines[v]? = some r → 0 < r.lock)
    (hunlock : s.unlock v = some s') : Rooted s' orders := by
  obtain ⟨r, hv, hs'⟩ := Option.bind_eq_some_iff.1 hunlock
  obtain rfl := Option.some.inj hs'
  have hpos := hlock r hv
  have hset : Rooted (s.setRoutine v { r with lock := r.lock - 1 }) orders :=
    h.set hv rfl (fun hne => (h.junction v r hv hne).1) rfl (fun heq => by simp only at heq; omega) fun _ => .inl
  by_cases hone : r.lock = 1
  · rw [if_pos hone]
    apply hset.calls
    intro c hc hpc
    rcases List.mem_append.1 hc with hc | hc
    · exact hset.runs c hc hpc
    · rw [List.mem_singleton.1 hc] at hpc
      cases hpc
  · rw [if_neg hone]
    exact hset

theorem Graph.owed_pos (h : Graph s (some v)) (hv : s.routines[v]? = some r) : 0 < r.lock := by
  rcases h.counted v r hv with ⟨-, -, -, hne⟩ | heq
  · exact absurd rfl hne
  · rw [if_pos rfl] at heq
    omega

/-- A step of a call leaves what comes after what. -/
theorem stepCall_rooted (h : Inv s) (hr : Rooted s orders) (hi : s.calls[i]? = some c)
    (hstep : s.stepCall i c = some s') : Rooted s' orders := by
  obtain ⟨r, hv, hstep⟩ := Option.bind_eq_some_iff.1 hstep
  have hmem := List.mem_of_getElem? hi
  obtain ⟨v, pc⟩ := c
  have hfits : pc ≠ .ended → Fits pc r := fun hpc => h.calls.fits_at hmem hpc hv
  cases pc with
  | ended => cases hstep
  | execute =>
    have hlock : r.lock = 0 := hfits nofun
    by_cases hfunc : r.func = true
    · simp only [hfunc, if_true] at hstep
      obtain rfl := Option.some.inj hstep
      have hroot : r.root = v := by
        by_contra hne
        rw [(hr.junction v r hv hne).2] at hfunc
        cases hfunc
      have hedge : ∀ u, ¬ s.Edge u v := by
        intro u huv
        have hpos := (h.graph.counted v r hv).of_edge huv
        omega
      have hrun : ∃ d : Routine, (s.setRoutine v { r with func := false }).routines[v]? = some d ∧ d.root = v :=
        ⟨_, (getElem?_moved hv).2 (.inl ⟨rfl, rfl⟩), hroot⟩
      exact (hr.enter hv hroot hedge).goto hi fun _ => hrun
    · simp only [hfunc] at hstep
      obtain rfl := Option.some.inj hstep
      exact hr.goto hi nofun
  | running =>
    obtain rfl := Option.some.inj hstep
    exact hr.goto hi nofun
  | check =>
    obtain rfl := Option.some.inj hstep
    apply hr.goto hi
    by_cases hzero : r.lock = 0
    · rw [if_neg (not_not.2 hzero)]
      exact nofun
    · rw [if_pos hzero]
      exact nofun
  | store =>
    obtain ⟨hzero, hfunc⟩ := hfits nofun
    obtain rfl := Option.some.inj hstep
    have hset : Rooted (s.setRoutine v { r with lock := -1 }) orders :=
      hr.set hv rfl (fun hne => (hr.junction v r hv hne).1) rfl (fun _ => hfunc) fun _ => .inl
    exact hset.goto hi nofun
  | finish =>
    obtain ⟨hlock, -⟩ := hfits nofun
    simp only at hstep
    split at hstep
    · next p rest hnext =>
      have hset : Rooted (s.setRoutine v { r with next := rest }) orders := by
        refine hr.set hv rfl (fun hne => (hr.junction v r hv hne).1) rfl (hr.done v r hv) fun w hw => .inl ?_
        rw [hnext]
        exact List.mem_cons_of_mem _ hw
      exact hset.unlock (fun d hd => (h.graph.pop hv hlock hnext).owed_pos hd) hstep
    · obtain rfl := Option.some.inj hstep
      have hset : Rooted (s.setRoutine v { r with freed := true }) orders :=
        hr.set hv rfl (fun hne => (hr.junction v r hv hne).1) rfl (hr.done v r hv) fun _ => .inl
      have hgoto : Rooted ((s.setRoutine v { r with freed := true }).goto i ⟨v, .finish⟩ .ended) orders := hset.goto hi nofun
      exact ⟨hgoto.root, hgoto.junction, hgoto.after, hgoto.runs, hgoto.entered, hgoto.done⟩

theorem unlock_orders (h : s.unlock v = some s') : s'.orders = s.orders := by
  obtain ⟨r, -, hs'⟩ := Option.bind_eq_some_iff.1 h
  obtain rfl := Option.some.inj hs'
  by_cases hone : r.lock = 1
  · rw [if_pos hone]
    rfl
  · rw [if_neg hone]
    rfl

/-- A call asks for no order. -/
theorem stepCall_orders (h : s.stepCall i c = some s') : s'.orders = s.orders := by
  obtain ⟨r, -, h⟩ := Option.bind_eq_some_iff.1 h
  obtain ⟨v, pc⟩ := c
  cases pc with
  | execute =>
    simp only at h
    split at h <;> obtain rfl := Option.some.inj h <;> rfl
  | running | check | store =>
    obtain rfl := Option.some.inj h
    rfl
  | finish =>
    simp only at h
    split at h
    · have horders := unlock_orders h
      exact horders
    · obtain rfl := Option.some.inj h
      rfl
  | ended => cases h

/-- Every action keeps junctions to their routines, and edges to the orders. -/
theorem Rooted.step (h : Inv s) (hr : Rooted s s.orders) (a : Action) (hplain : s.plain a = true) :
    Rooted (s.step a) (s.step a).orders := by
  rw [Dispatcher.step]
  cases hact : s.act a with
  | none => exact hr
  | some s' =>
    rw [Option.getD_some]
    have hself : ∀ (v : Nat) (r : Routine), s.routines[v]? = some r → r.handles ≠ 0 → r.root = v := by
      intro v r hv hhandles
      by_contra hne
      exact hhandles (hr.junction v r hv hne).1
    cases a with
    | allocate func =>
      obtain rfl := Option.some.inj hact
      refine hr.allocate (.inl ⟨rfl, hplain⟩) (fun hlock => ?_) fun w hw => ?_
      · cases hlock
      · cases hw
    | order source target =>
      obtain ⟨u, hu, hact⟩ := Option.bind_eq_some_iff.1 hact
      obtain ⟨v, hv, hact⟩ := Option.bind_eq_some_iff.1 hact
      split at hact
      · cases hact
      · next hhandles =>
        push Not at hhandles
        obtain ⟨t, ht, hact⟩ := Option.bind_eq_some_iff.1 hact
        obtain rfl := Option.some.inj hact
        have hfunc : v.func = true := by simpa [plain, hv] using hplain
        have horder : (u.root, target) ∈ s.orders ++ [(source, target)] := by
          rw [hself source u hu hhandles.1]
          exact List.mem_append_right _ (List.mem_singleton_self _)
        have hrooted := orderInternal_rooted h hr.more hu (h.graph.lock_pos hu (.inl hhandles.1)) hv
          (h.graph.lock_pos hv (.inl hhandles.2.1)) (hself target v hv hhandles.2.1) hfunc horder ht
        exact ⟨hrooted.root, hrooted.junction, hrooted.after, hrooted.runs, hrooted.entered, hrooted.done⟩
    | defer v =>
      obtain ⟨r, hv, hact⟩ := Option.bind_eq_some_iff.1 hact
      split at hact
      · next hor =>
        obtain rfl := Option.some.inj hact
        have hroot : r.root = v := by
          rcases hor with hhandles | hruns
          · exact hself v r hv hhandles
          · simp only [Dispatcher.runs, List.any_eq_true, Bool.and_eq_true, beq_iff_eq] at hruns
            obtain ⟨c, hc, rfl, hpc⟩ := hruns
            obtain ⟨d, hd, hroot⟩ := hr.runs c hc hpc
            rwa [Option.some.inj (hv.symm.trans hd)]
        refine hr.set hv rfl (fun hne => absurd hroot hne) rfl (fun hlock => ?_) fun _ => .inl
        rcases h.graph.counted v r hv with ⟨hneg, -⟩ | heq
        · simp only [hneg] at hlock
          omega
        · simp only [reduceCtorEq, if_false] at heq hlock
          omega
      · cases hact
    | dispatch v =>
      obtain ⟨r, hv, hact⟩ := Option.bind_eq_some_iff.1 hact
      split at hact
      · cases hact
      · next hhandles =>
        have hset : Rooted (s.setRoutine v { r with handles := r.handles - 1 }) s.orders :=
          hr.set hv rfl (fun hne => absurd (hself v r hv hhandles) hne) rfl (hr.done v r hv) fun _ => .inl
        have hlock : ∀ d, (s.setRoutine v { r with handles := r.handles - 1 }).routines[v]? = some d → 0 < d.lock := by
          intro d hd
          rcases (getElem?_moved hv).1 hd with ⟨-, rfl⟩ | ⟨hne, -⟩
          · have hpos := h.graph.lock_pos hv (.inl hhandles)
            exact hpos
          · exact absurd rfl hne
        rw [unlock_orders hact]
        exact hset.unlock hlock hact
    | step i =>
      obtain ⟨c, hi, hstep⟩ := Option.bind_eq_some_iff.1 hact
      rw [stepCall_orders hstep]
      exact stepCall_rooted h hr hi hstep

theorem rooted_run {acts : List Action} (h : Each (fun pre a => (run pre).tooSoon a = false) acts)
    (hplain : Each (fun pre a => (run pre).plain a = true) acts) : Rooted (run acts) (run acts).orders := by
  induction acts using List.reverseRecOn with
  | nil => exact ⟨nofun, nofun, nofun, nofun, nofun, nofun⟩
  | append_singleton acts a ih =>
    obtain ⟨hacts, -⟩ := each_concat.1 h
    obtain ⟨hplains, ha⟩ := each_concat.1 hplain
    rw [run, List.foldl_concat]
    exact (ih hacts hplains).step (inv_run hacts) a ha

/-! ## In which order routines finish -/

theorem finished_set (hv : s.routines[v]? = some r) (hlock : q.lock = -1 ↔ r.lock = -1) :
    (s.setRoutine v q).Finished w ↔ s.Finished w := by
  constructor
  · rintro ⟨d, hd, hneg⟩
    rcases (getElem?_moved hv).1 hd with ⟨rfl, rfl⟩ | ⟨-, hd⟩
    · exact ⟨r, hv, hlock.1 hneg⟩
    · exact ⟨d, hd, hneg⟩
  · rintro ⟨d, hd, hneg⟩
    rcases eq_or_ne w v with rfl | hne
    · obtain rfl := Option.some.inj (hv.symm.trans hd)
      exact ⟨q, (getElem?_moved hv).2 (.inl ⟨rfl, rfl⟩), hlock.2 hneg⟩
    · exact ⟨d, (getElem?_moved hv).2 (.inr ⟨hne, hd⟩), hneg⟩

theorem finished_allocate (hlock : r.lock ≠ -1) : (s.allocate r).Finished w ↔ s.Finished w := by
  constructor
  · rintro ⟨d, hd, hneg⟩
    rcases getElem?_made.1 hd with ⟨-, rfl⟩ | hd
    · exact absurd hneg hlock
    · exact ⟨d, hd, hneg⟩
  · rintro ⟨d, hd, hneg⟩
    exact ⟨d, getElem?_made.2 (.inr hd), hneg⟩

/-- `order_internal` finishes nothing. -/
theorem orderInternal_finished {source target fuel : Nat} {t : Routine} (ht : s.routines[target]? = some t)
    (htlock : 0 < t.lock) (hs' : orderInternal target fuel s source = some s') : s'.Finished w ↔ s.Finished w := by
  induction fuel generalizing source with
  | zero => cases hs'
  | succ fuel ih =>
    obtain ⟨r, hr, hs'⟩ := Option.bind_eq_some_iff.1 hs'
    have hmore := lockMore_eq ht
    have hlocked : (s.setRoutine target { t with lock := t.lock + 1 }).Finished w ↔ s.Finished w :=
      finished_set ht (by simp only; omega)
    split at hs'
    · next first x y z hnext =>
      obtain ⟨f, hf, hs'⟩ := Option.bind_eq_some_iff.1 hs'
      by_cases hfunc : f.func = true
      · simp only [hfunc, if_true, hmore, Option.bind_eq_bind, Option.bind_some] at hs'
        obtain ⟨d, hd, hs'⟩ := Option.bind_eq_some_iff.1 hs'
        obtain rfl := Option.some.inj hs'
        have hmade : ((s.setRoutine target { t with lock := t.lock + 1 }).allocate
            ⟨false, 1, [first, target], 0, false, d.root⟩).routines[source]? = some d := getElem?_made.2 (.inr hd)
        refine (finished_set hmade ?_).trans ((finished_allocate ?_).trans hlocked)
        · exact Iff.rfl
        · exact nofun
      · simp only [hfunc] at hs'
        exact ih hs'
    · simp only [hmore, Option.bind_eq_bind, Option.bind_some] at hs'
      obtain ⟨d, hd, hs'⟩ := Option.bind_eq_some_iff.1 hs'
      obtain rfl := Option.some.inj hs'
      refine (finished_set hd ?_).trans hlocked
      exact Iff.rfl

theorem unlock_finished (hlock : ∀ r, s.routines[v]? = some r → 0 < r.lock) (h : s.unlock v = some s') :
    s'.Finished w ↔ s.Finished w := by
  obtain ⟨r, hv, hs'⟩ := Option.bind_eq_some_iff.1 h
  have hpos := hlock r hv
  have hset : (s.setRoutine v { r with lock := r.lock - 1 }).Finished w ↔ s.Finished w :=
    finished_set hv (by simp only; omega)
  obtain rfl := Option.some.inj hs'
  rw [← hset]
  by_cases hone : r.lock = 1
  · rw [if_pos hone]
    rfl
  · rw [if_neg hone]

/-- Of each two routines ordered the first has finished where the second has, and
has the lower rank. -/
def Ranked (s : Dispatcher) (rank : Nat → Nat) : Prop :=
  ∀ u v, (u, v) ∈ s.orders → s.Finished v → s.Finished u ∧ rank u < rank v

theorem Ranked.of_finished {rank : Nat → Nat} (h : Ranked s rank) (hfinished : ∀ w, s'.Finished w ↔ s.Finished w)
    (horders : s'.orders = s.orders) : Ranked s' rank := by
  intro u v huv hv
  rw [horders] at huv
  rw [hfinished] at hv ⊢
  exact h u v huv hv

/-- A step of a call leaves the finished routines ranked. -/
theorem stepCall_ranked {rank : Nat → Nat} (h : Inv s) (hr : Ranked s rank) (hi : s.calls[i]? = some c)
    (hstep : s.stepCall i c = some s') : ∃ rank, Ranked s' rank := by
  have horders := stepCall_orders hstep
  obtain ⟨r, hv, hstep⟩ := Option.bind_eq_some_iff.1 hstep
  have hmem := List.mem_of_getElem? hi
  obtain ⟨v, pc⟩ := c
  have hfits : pc ≠ .ended → Fits pc r := fun hpc => h.calls.fits_at hmem hpc hv
  cases pc with
  | ended => cases hstep
  | execute =>
    refine ⟨rank, hr.of_finished (fun w => ?_) horders⟩
    by_cases hfunc : r.func = true
    · simp only [hfunc, if_true] at hstep
      obtain rfl := Option.some.inj hstep
      have hset : (s.setRoutine v { r with func := false }).Finished w ↔ s.Finished w := finished_set hv Iff.rfl
      exact hset
    · simp only [hfunc] at hstep
      obtain rfl := Option.some.inj hstep
      exact Iff.rfl
  | running | check =>
    obtain rfl := Option.some.inj hstep
    exact ⟨rank, hr.of_finished (fun w => Iff.rfl) horders⟩
  | store =>
    obtain ⟨hzero, -⟩ := hfits nofun
    obtain rfl := Option.some.inj hstep
    -- the routine gets a rank above those before it
    refine ⟨Function.update rank v ((s.orders.map fun e => rank e.1).sum + 1), fun a b hab hb => ?_⟩
    have hnot : ¬ s.Finished v := by
      rintro ⟨d, hd, hneg⟩
      rw [← Option.some.inj (hv.symm.trans hd)] at hneg
      omega
    have hset : ∀ w, s.Finished w → ((s.setRoutine v { r with lock := -1 }).goto i ⟨v, .store⟩ .finish).Finished w := by
      rintro w ⟨d, hd, hneg⟩
      have hne : w ≠ v := by
        rintro rfl
        exact hnot ⟨d, hd, hneg⟩
      exact ⟨d, (getElem?_moved hv).2 (.inr ⟨hne, hd⟩), hneg⟩
    obtain ⟨d, hd, hneg⟩ := hb
    rcases (getElem?_moved hv).1 hd with ⟨rfl, -⟩ | ⟨hne, hd⟩
    · have ha := h.graph.finished hv hzero hab
      have hne : a ≠ b := fun heq => hnot (heq ▸ ha)
      have hle : rank a ≤ (s.orders.map fun e => rank e.1).sum :=
        List.single_le_sum (fun _ _ => Nat.zero_le _) _ (List.mem_map_of_mem (f := fun e => rank e.1) hab)
      refine ⟨hset a ha, ?_⟩
      rw [Function.update_of_ne hne, Function.update_self]
      omega
    · obtain ⟨ha, hlt⟩ := hr a b hab ⟨d, hd, hneg⟩
      have hav : a ≠ v := fun heq => hnot (heq ▸ ha)
      refine ⟨hset a ha, ?_⟩
      rwa [Function.update_of_ne hav, Function.update_of_ne hne]
  | finish =>
    obtain ⟨hlock, -⟩ := hfits nofun
    refine ⟨rank, hr.of_finished (fun w => ?_) horders⟩
    simp only at hstep
    split at hstep
    · next p rest hnext =>
      have hset : (s.setRoutine v { r with next := rest }).Finished w ↔ s.Finished w := finished_set hv Iff.rfl
      rw [← hset]
      exact unlock_finished (fun d hd => (h.graph.pop hv hlock hnext).owed_pos hd) hstep
    · obtain rfl := Option.some.inj hstep
      have hset : (s.setRoutine v { r with freed := true }).Finished w ↔ s.Finished w := finished_set hv Iff.rfl
      exact hset

/-- Every action leaves the finished routines ranked. -/
theorem step_ranked {rank : Nat → Nat} (h : Inv s) (hr : Ranked s rank) (a : Action) :
    ∃ rank, Ranked (s.step a) rank := by
  rw [Dispatcher.step]
  cases hact : s.act a with
  | none => exact ⟨rank, hr⟩
  | some s' =>
    rw [Option.getD_some]
    cases a with
    | allocate func =>
      obtain rfl := Option.some.inj hact
      refine ⟨rank, hr.of_finished (fun w => finished_allocate fun hlock => ?_) rfl⟩
      cases hlock
    | order source target =>
      obtain ⟨u, hu, hact⟩ := Option.bind_eq_some_iff.1 hact
      obtain ⟨t, ht, hact⟩ := Option.bind_eq_some_iff.1 hact
      split at hact
      · cases hact
      · next hhandles =>
        push Not at hhandles
        obtain ⟨mid, hmid, hact⟩ := Option.bind_eq_some_iff.1 hact
        obtain rfl := Option.some.inj hact
        have htlock := h.graph.lock_pos ht (.inl hhandles.2.1)
        have hfinished : ∀ w, mid.Finished w ↔ s.Finished w := fun w => orderInternal_finished ht htlock hmid
        refine ⟨rank, fun a b hab hb => ?_⟩
        have hbefore : s.Finished b := (hfinished b).1 hb
        rcases List.mem_append.1 hab with hab | hab
        · obtain ⟨ha, hlt⟩ := hr a b hab hbefore
          exact ⟨(hfinished a).2 ha, hlt⟩
        · obtain ⟨rfl, rfl⟩ := Prod.mk.inj (List.mem_singleton.1 hab)
          obtain ⟨d, hd, hneg⟩ := hbefore
          rw [← Option.some.inj (ht.symm.trans hd)] at hneg
          omega
    | defer v =>
      obtain ⟨r, hv, hact⟩ := Option.bind_eq_some_iff.1 hact
      split at hact
      · next hor =>
        obtain rfl := Option.some.inj hact
        have hopen : r.lock ≠ -1 := by
          rcases hor with hhandles | hruns
          · have hpos := h.graph.lock_pos hv (.inl hhandles)
            omega
          · simp only [Dispatcher.runs, List.any_eq_true, Bool.and_eq_true, beq_iff_eq] at hruns
            obtain ⟨c, hc, rfl, hpc⟩ := hruns
            have hfits := h.calls.fits_at hc (by simp [hpc]) hv
            rw [hpc] at hfits
            exact hfits.1
        have hlock : 0 ≤ r.lock := by
          rcases h.graph.counted v r hv with ⟨hneg, -⟩ | heq
          · exact absurd hneg hopen
          · simp only [reduceCtorEq, if_false] at heq
            omega
        refine ⟨rank, hr.of_finished (fun w => finished_set hv ?_) rfl⟩
        simp only
        omega
      · cases hact
    | dispatch v =>
      obtain ⟨r, hv, hact⟩ := Option.bind_eq_some_iff.1 hact
      split at hact
      · cases hact
      · next hhandles =>
        have horders := unlock_orders hact
        refine ⟨rank, hr.of_finished (fun w => ?_) horders⟩
        have hset : (s.setRoutine v { r with handles := r.handles - 1 }).Finished w ↔ s.Finished w :=
          finished_set hv Iff.rfl
        rw [← hset]
        refine unlock_finished (fun d hd => ?_) hact
        rcases (getElem?_moved hv).1 hd with ⟨-, rfl⟩ | ⟨hne, -⟩
        · have hpos := h.graph.lock_pos hv (.inl hhandles)
          exact hpos
        · exact absurd rfl hne
    | step i =>
      obtain ⟨c, hi, hstep⟩ := Option.bind_eq_some_iff.1 hact
      exact stepCall_ranked h hr hi hstep

theorem ranked_run {acts : List Action} (h : Each (fun pre a => (run pre).tooSoon a = false) acts) :
    ∃ rank, Ranked (run acts) rank := by
  induction acts using List.reverseRecOn with
  | nil => exact ⟨id, nofun⟩
  | append_singleton acts a ih =>
    obtain ⟨hacts, -⟩ := each_concat.1 h
    obtain ⟨rank, hrank⟩ := ih hacts
    rw [run, List.foldl_concat]
    exact step_ranked (inv_run hacts) hrank a

/-! ## When nothing is under way -/

/-- Every call has ended, and nobody has a handle. -/
structure Quiet (s : Dispatcher) : Prop where
  calls : ∀ c ∈ s.calls, c.pc = .ended
  handles : ∀ r ∈ s.routines, r.handles = 0

/-- Then what is left comes after something that is left. -/
theorem exists_before (h : Inv s) (hq : Quiet s) (hv : s.routines[v]? = some r) (hfreed : r.freed = false) :
    ∃ (u : Nat) (d : Routine), s.routines[u]? = some d ∧ d.freed = false ∧ v ∈ d.next := by
  have hlock : 0 < r.lock := by
    rcases h.calls.idle v r hv (fun c hc _ => hq.calls c hc) with hf | hpos
    · rw [hfreed] at hf
      cases hf
    · exact hpos
  have hedges : 0 < s.edges v := by
    rcases h.graph.counted v r hv with ⟨hneg, -⟩ | heq
    · omega
    · have hhandles := hq.handles r (List.mem_of_getElem? hv)
      simp only [reduceCtorEq, if_false] at heq
      omega
  obtain ⟨u, d, hu, hmem⟩ := exists_edge hedges
  refine ⟨u, d, hu, ?_, hmem⟩
  by_contra hfreed
  rw [(h.calls.freed u d hu (by simpa using hfreed)).2] at hmem
  cases hmem

/-- What a junction that is left stands for is left. -/
theorem root_left (h : Inv s) (hr : Rooted s orders) (hq : Quiet s) (hv : s.routines[v]? = some r)
    (hfreed : r.freed = false) : ∃ d, s.routines[r.root]? = some d ∧ d.freed = false ∧ d.root = r.root := by
  induction v using Nat.strongRecOn generalizing r with
  | ind v ih =>
    by_cases hself : r.root = v
    · exact ⟨r, hself ▸ hv, hfreed, rfl⟩
    · obtain ⟨u, d, hu, hdfreed, hmem⟩ := exists_before h hq hv hfreed
      obtain ⟨e, he, -, hbelow⟩ := hr.after u d hu v hmem
      obtain rfl := Option.some.inj (hv.symm.trans he)
      obtain ⟨hroot, hor⟩ := hbelow hself
      rw [hroot]
      rcases hor with heq | hlt
      · exact ⟨d, heq ▸ hu, hdfreed, rfl⟩
      · exact ih u hlt hu hdfreed

/-- Of finitely many none is left if each comes after another, in no cycle. -/
theorem none_of_acyclic {α : Type*} {R : α → α → Prop} {P : α → Prop} (hacyclic : ∀ a, ¬ Relation.TransGen R a a)
    (hfinite : ({a | P a} : Set α).Finite) (hpred : ∀ b, P b → ∃ a, P a ∧ R a b) (a : α) : ¬ P a := by
  intro ha
  have : IsStrictOrder α (Relation.TransGen R) := { irrefl := hacyclic, trans := fun _ _ _ => Relation.TransGen.trans }
  have hwf : ({a | P a} : Set α).WellFoundedOn (Relation.TransGen R) := hfinite.wellFoundedOn
  refine hwf.induction (P := fun _ => False) ha fun b hb ih => ?_
  obtain ⟨c, hc, hcb⟩ := hpred b hb
  exact ih c hc (.single hcb)

/-- Once all is quiet nothing is left, with every function entered, or the orders
asked for have a cycle. -/
theorem none_left_iff (acts : List Action) (h : Each (fun pre a => (run pre).tooSoon a = false) acts)
    (hplain : Each (fun pre a => (run pre).plain a = true) acts) (hq : Quiet (run acts)) :
    ((∀ r ∈ (run acts).routines, r.freed = true) ∧ (run acts).pending = 0 ∧
      ∀ v r, (run acts).routines[v]? = some r → r.root = v → v ∈ (run acts).begun) ↔
      ∀ v, ¬ Relation.TransGen (fun a b => (a, b) ∈ (run acts).orders) v v := by
  have hinv := inv_run h
  have hrooted := rooted_run h hplain
  constructor
  · rintro ⟨hall, -⟩ v hcycle
    obtain ⟨rank, hrank⟩ := ranked_run h
    have hfinished : ∀ b c, (b, c) ∈ (run acts).orders → (run acts).Finished b := by
      intro b c hbc
      obtain ⟨r, hr, -⟩ := hinv.graph.path b c hbc
      exact ⟨r, hr, (hinv.calls.freed b r hr (hall r (List.mem_of_getElem? hr))).1⟩
    have hsource : ∀ b c, Relation.TransGen (fun a b => (a, b) ∈ (run acts).orders) b c → (run acts).Finished b := by
      intro b c hbc
      obtain ⟨d, hbd, -⟩ := Relation.TransGen.head'_iff.1 hbc
      exact hfinished b d hbd
    have hlt : ∀ a, Relation.TransGen (fun a b => (a, b) ∈ (run acts).orders) a v → rank a < rank v := by
      intro a hav
      induction hav using Relation.TransGen.head_induction_on with
      | single hab => exact (hrank _ v hab (hsource v v hcycle)).2
      | head hab hbv ih => exact (hrank _ _ hab (hsource _ v hbv)).2.trans ih
    exact lt_irrefl _ (hlt v hcycle)
  · intro hacyclic
    have hleft : ∀ v, ¬ ∃ r : Routine, (run acts).routines[v]? = some r ∧ r.freed = false ∧ r.root = v := by
      refine none_of_acyclic hacyclic ?_ ?_
      · refine (Set.finite_Iio (run acts).routines.length).subset ?_
        rintro v ⟨r, hv, -⟩
        exact (List.getElem?_eq_some_iff.1 hv).1
      · rintro v ⟨r, hv, hfreed, hroot⟩
        obtain ⟨u, d, hu, hdfreed, hmem⟩ := exists_before hinv hq hv hfreed
        obtain ⟨e, he, hefreed, heroot⟩ := root_left hinv hrooted hq hu hdfreed
        obtain ⟨x, hx, hself, -⟩ := hrooted.after u d hu v hmem
        obtain rfl := Option.some.inj (hv.symm.trans hx)
        exact ⟨d.root, ⟨e, he, hefreed, heroot⟩, (hself hroot).2⟩
    have hall : ∀ r ∈ (run acts).routines, r.freed = true := by
      intro r hr
      obtain ⟨v, hv⟩ := List.mem_iff_getElem?.1 hr
      by_contra hfreed
      obtain ⟨d, hd, hdfreed, hdroot⟩ := root_left hinv hrooted hq hv (by simpa using hfreed)
      exact hleft r.root ⟨d, hd, hdfreed, hdroot⟩
    refine ⟨hall, ?_, fun v r hv hroot => ?_⟩
    · rw [hinv.history.pending]
      exact weight_eq_zero fun r hr => if_pos (hall r hr)
    · have hlock := (hinv.calls.freed v r hv (hall r (List.mem_of_getElem? hv))).1
      exact hrooted.entered v r hv hroot (hrooted.done v r hv hlock)

/-- A routine with five successors, and so with a junction. -/
def fiveAfter : List Action :=
  List.replicate 6 (.allocate true) ++ (List.range' 1 5).map (.order 0) ++ (List.range 6).map .dispatch ++
    List.replicate 10 (.step 0) ++ (List.range 7).flatMap fun i => List.replicate 10 (.step i)

theorem five_freed : (∀ r ∈ (run fiveAfter).routines, r.freed = true) ∧ (run fiveAfter).pending = 0 ∧
    ∀ v r, (run fiveAfter).routines[v]? = some r → r.root = v → v ∈ (run fiveAfter).begun := by
  refine (none_left_iff fiveAfter (by decide +kernel) (by decide +kernel) ⟨by decide +kernel, by decide +kernel⟩).2 ?_
  intro v hcycle
  have hlt : ∀ e ∈ (run fiveAfter).orders, e.1 < e.2 := by decide +kernel
  have hless := Relation.TransGen.mono (p := (· < ·)) (fun a b hab => hlt (a, b) hab) v v hcycle
  rw [Relation.transGen_eq_self] at hless
  exact lt_irrefl v hless

/-- A routine that is allocated without a function is taken for a junction: the
fifth successor is put after it, which is to come before it. -/
def notPlain : List Action :=
  [.allocate true, .allocate false] ++ List.replicate 4 (.allocate true) ++ (List.range' 1 5).map (.order 0) ++
    [.order 5 1] ++ (List.range 6).map .dispatch ++ (List.range 6).flatMap fun i => List.replicate 10 (.step i)

/-- In no cycle, but two are left. -/
example : (run notPlain).orders = [(0, 1), (0, 2), (0, 3), (0, 4), (0, 5), (5, 1)] ∧ (run notPlain).pending = 2 := by
  decide +kernel

end Dispatcher
end NgxLuaCpp.IrisDispatcher
