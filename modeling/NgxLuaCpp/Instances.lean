import NgxLuaCpp.Lib.Monitor
import NgxLuaCpp.Lib.SortedVector
import NgxLuaCpp.Lib.Trace
import Mathlib.Data.List.Pairwise
import Mathlib.Logic.Function.Basic
/-!
# Instances on the nginx thread

The nginx thread holds the main warp of each instance from its construction to
its destruction, and polls the instances in `cpp_list` one after the other. The
warps it holds are linked by `stack_next_warp`, the current one first. We show
which instances `cpp_list` has, when the links lead to warps that are alive, and
whose tasks are run.

A warp has a number of its own, never used again. Its tasks leave the warps of
the thread as they found them. The tasks of the worker itself are left out.
-/
open SortedVector Trace

namespace NgxLuaCpp.Instances

/-- A main warp; `held` is whether `thread_warp` is that of the nginx thread. -/
structure Warp where
  held : Bool
  /-- `stack_next_warp` -/
  next : Option Nat
  /-- `queue_buffers` -/
  buffers : List (List Nat)
  deriving DecidableEq

/-- No buffer of the warp holds a task. -/
def Warp.empty (warp : Warp) : Bool := warp.buffers.all List.isEmpty

/-- An instance: where it is, whether its workers run, and its main warp. -/
structure Instance where
  address : Nat
  running : Bool
  mainWarp : Nat
  /-- `preempted` of `main_warp_guard` -/
  guarded : Bool
  deriving DecidableEq

/-- Who polls a warp: `process_events`, `stop`, or the destructor in `stop_impl`. -/
inductive Caller where
  | sweep (rest : List Nat)
  | stop
  | destroy
  deriving DecidableEq

/-- The instances `process_events` has yet to visit. -/
def Caller.rest : Caller → List Nat
  | .sweep rest => rest
  | _ => []

/-- The instance whose warp goes when `poll` has found it empty. -/
def Caller.releases (i : Instance) : Caller → Option Instance
  | .sweep _ => none
  | .stop | .destroy => some i

/-- Where the nginx thread is: in its handlers, in the loop over `cpp_list`, at
the head of the loop of `poll`, or at buffer `i` of `execute_internal`. -/
inductive Pc where
  | handlers
  | sweep (rest : List Nat)
  | poll (address : Nat) (caller : Caller)
  | execute (address : Nat) (preempted : Bool) (i count : Nat) (caller : Caller)
  deriving DecidableEq

/-- `cpp_list`, the instances with their main warps, and where the nginx thread is. -/
structure Hooker where
  cppList : List Nat
  /-- the instances alive, who took its warp last first -/
  instances : List Instance
  warps : Nat → Option Warp
  fresh : Nat
  /-- `get_current_internal()` -/
  current : Option Nat
  pc : Pc

/-- What can happen next: an instance is made, started, stopped or collected, a thread posts a
task, or the nginx thread goes on. -/
inductive Action where
  /-- the constructor, at an address -/
  | new (address : Nat)
  | start (address threadCount : Nat)
  | stop (address : Nat)
  | destroy (address : Nat)
  /-- A thread posts a task to one of the buffers of a warp. -/
  | post (warp buffer task : Nat)
  /-- nginx calls `process_events`. -/
  | sweep
  /-- The nginx thread goes on. -/
  | nginx

namespace Hooker

/-- The hooker before any instance. -/
def new : Hooker := ⟨[], [], fun _ => none, 0, none, .handlers⟩

/-- `preempt` by the nginx thread, which fails on a warp that is held. -/
def preempt (s : Hooker) (w : Nat) : Hooker × Bool :=
  match s.warps w with
  | some warp =>
    if warp.held then (s, false)
    else
      let warps := Function.update s.warps w (some { warp with held := true, next := s.current })
      ({ s with warps := warps, current := some w }, true)
  | none => (s, false)

/-- `yield` by the nginx thread, which goes back to the warp it held before. -/
def yield (s : Hooker) (w : Nat) : Hooker :=
  match s.warps w with
  | some warp =>
    if warp.held then
      let warps := Function.update s.warps w (some { warp with held := false, next := none })
      { s with warps := warps, current := warp.next }
    else s
  | none => s

/-- `preempt_guard_t`, with its `state` and `preempted`. -/
def guard (s : Hooker) (w : Nat) : Hooker × Bool × Bool :=
  if s.current = some w then (s, true, false)
  else
    let (s', preempted) := s.preempt w
    (s', preempted, preempted)

/-- The guard of the main warp is reset, and the warp destroyed. -/
def release (s : Hooker) (i : Instance) : Hooker :=
  let s := if i.guarded then s.yield i.mainWarp else s
  { s with warps := Function.update s.warps i.mainWarp none }

/-- The rest of `reset_main_warp`. -/
def makeWarp (s : Hooker) (address : Nat) (running : Bool) (threadCount : Nat) : Hooker :=
  let w := s.fresh
  let warps := Function.update s.warps w (some ⟨false, none, List.replicate threadCount []⟩)
  let (s, _, preempted) := ({ s with warps := warps, fresh := w + 1 } : Hooker).guard w
  { s with instances := ⟨address, running, w, preempted⟩ :: s.instances.filter fun i => i.address != address }

/-- `reset_main_warp`: the main warp goes, and there is a new one. -/
def resetMainWarp (s : Hooker) (i : Instance) (running : Bool) (threadCount : Nat) : Hooker :=
  (s.release i).makeWarp i.address running threadCount

/-- `ngx_hooker_t::remove`. -/
def remove (s : Hooker) (address : Nat) : Hooker :=
  match binaryFind id s.cppList address with
  | some it => { s with cppList := s.cppList.eraseIdx it }
  | none => s

/-- The end of the destructor. -/
def destroyed (s : Hooker) (i : Instance) : Hooker :=
  let s := (s.remove i.address).release i
  { s with instances := s.instances.filter fun j => j.address != i.address }

/-- The instance at an address, if one is there. -/
def instance? (s : Hooker) (address : Nat) : Option Instance := s.instances.find? fun i => i.address == address

/-- `poll` returns to its caller. -/
def polled (s : Hooker) (i : Instance) (result : Bool) : Caller → Hooker
  | .sweep rest => { s with pc := .sweep rest }
  | .stop =>
    if result then { s with pc := .poll i.address .stop }
    else { s.resetMainWarp i false 0 with pc := .handlers }
  | .destroy =>
    if result then { s with pc := .poll i.address .destroy }
    else
      let s := s.resetMainWarp i false 0
      { (s.instance? i.address).elim s s.destroyed with pc := .handlers }

/-- The task in front of a buffer is taken and run. -/
def take (s : Hooker) (w b : Nat) (warp : Warp) (rest : List Nat) : Hooker :=
  { s with warps := Function.update s.warps w (some { warp with buffers := warp.buffers.set b rest }) }

def stepPoll (s : Hooker) (i : Instance) (warp : Warp) (caller : Caller) : Hooker :=
  if warp.empty then s.polled i false caller
  else
    match s.guard i.mainWarp with
    | (s, true, preempted) => { s with pc := .execute i.address preempted 0 0 caller }
    | (s, false, _) => s.polled i true caller

def stepExecute (s : Hooker) (i : Instance) (warp : Warp) (preempted : Bool) (b count : Nat) (caller : Caller) :
    Hooker :=
  match warp.buffers[b]? with
  | some (_ :: rest) => { s.take i.mainWarp b warp rest with pc := .execute i.address preempted b (count + 1) caller }
  | some [] => { s with pc := .execute i.address preempted (b + 1) count caller }
  | none =>
    if count ≠ 0 then { s with pc := .execute i.address preempted 0 0 caller }
    else { if preempted then s.yield i.mainWarp else s with pc := .poll i.address caller }

/-- The next step of the nginx thread, if its instance is still there. -/
def stepNginx (s : Hooker) : Option Hooker :=
  match s.pc with
  | .handlers => none
  | .sweep [] => some { s with pc := .handlers }
  | .sweep (address :: rest) => some { s with pc := .poll address (.sweep rest) }
  | .poll address caller => do
    let i ← s.instance? address
    return s.stepPoll i (← s.warps i.mainWarp) caller
  | .execute address preempted b count caller => do
    let i ← s.instance? address
    return s.stepExecute i (← s.warps i.mainWarp) preempted b count caller

/-- `main_warp`s are released in `start`, in the destructor, and where `stop_impl` has polled. -/
def act (s : Hooker) : Action → Option Hooker
  | .new address =>
    if s.pc = .handlers ∧ s.instance? address = none then
      some ({ s with cppList := binaryInsert id s.cppList address }.makeWarp address false 0)
    else none
  | .start address threadCount =>
    if s.pc = .handlers then do
      let i ← s.instance? address
      -- one more for the polls of the nginx thread
      if i.running then none else some { s.resetMainWarp i true (threadCount + 1) with pc := .handlers }
    else none
  | .stop address =>
    if s.pc = .handlers then do
      let i ← s.instance? address
      if i.running then some { s with pc := .poll address .stop } else none
    else none
  | .destroy address =>
    if s.pc = .handlers then do
      let i ← s.instance? address
      if i.running then some { s with pc := .poll address .destroy }
      else some { s.destroyed i with pc := .handlers }
    else none
  | .post w b task => do
    let warp ← s.warps w
    let buffer ← warp.buffers[b]?
    return s.take w b warp (buffer ++ [task])
  | .sweep => if s.pc = .handlers then some { s with pc := .sweep s.cppList } else none
  | .nginx => s.stepNginx

/-- An action, or nothing if it cannot be taken. -/
def step (s : Hooker) (a : Action) : Hooker := (s.act a).getD s

/-- The hooker after these actions. -/
def run (acts : List Action) : Hooker := acts.foldl step new

/-! ## What the nginx thread holds -/

variable {s s' : Hooker} {i : Instance} {l : List Instance}

/-- What of a warp says who holds it. -/
def links (s : Hooker) (w : Nat) : Option (Bool × Option Nat) := (s.warps w).map fun warp => (warp.held, warp.next)

/-- Two instances share neither their address nor their main warp. -/
def Apart (i j : Instance) : Prop := i.address ≠ j.address ∧ i.mainWarp ≠ j.mainWarp

instance apartSymm : Std.Symm Apart := ⟨fun _ _ h => ⟨h.1.symm, h.2.symm⟩⟩

/-- The warps alive are those of the instances, all held. -/
structure Owned (s : Hooker) (l : List Instance) : Prop where
  distinct : l.Pairwise Apart
  guarded : ∀ i ∈ l, i.guarded = true
  held : ∀ i ∈ l, ∃ next, s.links i.mainWarp = some (true, next)
  owner : ∀ w, s.links w ≠ none → ∃ i ∈ l, i.mainWarp = w
  below : ∀ i ∈ l, i.mainWarp < s.fresh
  next_below : ∀ w held v, s.links w = some (held, some v) → v < s.fresh
  current_below : ∀ w, s.current = some w → w < s.fresh

theorem Owned.ext (h : Owned s l) (hlinks : s'.links = s.links) (hfresh : s'.fresh = s.fresh)
    (hcurrent : s'.current = s.current) : Owned s' l where
  distinct := h.distinct
  guarded := h.guarded
  held := hlinks ▸ h.held
  owner := hlinks ▸ h.owner
  below := hfresh ▸ h.below
  next_below := hlinks ▸ hfresh ▸ h.next_below
  current_below := hcurrent ▸ hfresh ▸ h.current_below

theorem Owned.eq_of_address (h : Owned s l) {j : Instance} (hi : i ∈ l) (hj : j ∈ l) (haddress : i.address = j.address) :
    i = j := by
  by_contra hne
  exact (h.distinct.forall hi hj hne).1 haddress

theorem Owned.eq_of_mainWarp (h : Owned s l) {j : Instance} (hi : i ∈ l) (hj : j ∈ l) (hwarp : i.mainWarp = j.mainWarp) :
    i = j := by
  by_contra hne
  exact (h.distinct.forall hi hj hne).2 hwarp

/-! ### A warp is destroyed -/

theorem release_eq (h : Owned s l) (hi : i ∈ l) :
    ∃ next, s.links i.mainWarp = some (true, next) ∧
      s.release i = { s with warps := Function.update s.warps i.mainWarp none, current := next } := by
  obtain ⟨next, hnext⟩ := h.held i hi
  refine ⟨next, hnext, ?_⟩
  obtain ⟨warp, hwarp, heq⟩ := Option.map_eq_some_iff.1 hnext
  obtain ⟨hheld, rfl⟩ := Prod.mk.inj heq
  simp [release, h.guarded i hi, yield, hwarp, hheld]

theorem links_release (h : Owned s l) (hi : i ∈ l) : (s.release i).links = Function.update s.links i.mainWarp none := by
  obtain ⟨next, -, heq⟩ := release_eq h hi
  funext w
  rw [heq]
  rcases eq_or_ne w i.mainWarp with rfl | hw
  · simp [links]
  · simp [links, Function.update_of_ne hw]

theorem mem_others {a : Nat} {j : Instance} : j ∈ l.filter (fun j => j.address != a) ↔ j ∈ l ∧ j.address ≠ a := by
  simp [List.mem_filter]

/-- A main warp given up leaves the others linked as they were. -/
theorem Owned.release (h : Owned s l) (hi : i ∈ l) :
    Owned (s.release i) (l.filter fun j => j.address != i.address) := by
  have hlinks := links_release h hi
  have hother : ∀ j ∈ l.filter (fun j => j.address != i.address), j ∈ l ∧ j.mainWarp ≠ i.mainWarp := by
    intro j hj
    obtain ⟨hj, hne⟩ := mem_others.1 hj
    refine ⟨hj, fun heq => hne ?_⟩
    rw [h.eq_of_mainWarp hj hi heq]
  obtain ⟨next, hnext, heq⟩ := release_eq h hi
  have hfresh : (s.release i).fresh = s.fresh := by rw [heq]
  refine ⟨h.distinct.filter _, fun j hj => h.guarded j (hother j hj).1, fun j hj => ?_, fun w hw => ?_, ?_, ?_, ?_⟩
  · rw [hlinks, Function.update_of_ne (hother j hj).2]
    exact h.held j (hother j hj).1
  · rw [hlinks] at hw
    have hne : w ≠ i.mainWarp := by
      rintro rfl
      exact hw (Function.update_self ..)
    rw [Function.update_of_ne hne] at hw
    obtain ⟨j, hj, rfl⟩ := h.owner w hw
    refine ⟨j, mem_others.2 ⟨hj, fun haddress => hne ?_⟩, rfl⟩
    rw [h.eq_of_address hj hi haddress]
  · intro j hj
    rw [hfresh]
    exact h.below j (hother j hj).1
  · intro w held v hw
    rw [hlinks] at hw
    rw [hfresh]
    rcases eq_or_ne w i.mainWarp with rfl | hne
    · rw [Function.update_self] at hw
      cases hw
    · rw [Function.update_of_ne hne] at hw
      exact h.next_below w held v hw
  · intro w hw
    rw [heq] at hw
    rw [hfresh]
    subst hw
    exact h.next_below _ _ _ hnext

/-! ### A warp is made -/

theorem makeWarp_eq (h : Owned s l) (a : Nat) (running : Bool) (n : Nat) :
    s.makeWarp a running n = { s with
      instances := ⟨a, running, s.fresh, true⟩ :: s.instances.filter fun i => i.address != a
      warps := Function.update s.warps s.fresh (some ⟨true, s.current, List.replicate n []⟩)
      fresh := s.fresh + 1
      current := some s.fresh } := by
  have hcurrent : s.current ≠ some s.fresh := fun heq => (h.current_below _ heq).false
  simp [makeWarp, guard, hcurrent, preempt]

theorem links_makeWarp (h : Owned s l) (a : Nat) (running : Bool) (n : Nat) :
    (s.makeWarp a running n).links = Function.update s.links s.fresh (some (true, s.current)) := by
  funext w
  rw [makeWarp_eq h]
  rcases eq_or_ne w s.fresh with rfl | hw
  · simp [links]
  · simp [links, Function.update_of_ne hw]

/-- A new main warp is held, and linked to the one that was current. -/
theorem Owned.makeWarp (h : Owned s l) {a : Nat} (running : Bool) (n : Nat) (ha : ∀ i ∈ l, i.address ≠ a) :
    Owned (s.makeWarp a running n) (⟨a, running, s.fresh, true⟩ :: l) := by
  have hlinks := links_makeWarp h a running n
  have hfresh : (s.makeWarp a running n).fresh = s.fresh + 1 := by rw [makeWarp_eq h]
  refine ⟨List.pairwise_cons.2 ⟨fun i hi => ⟨(ha i hi).symm, (h.below i hi).ne'⟩, h.distinct⟩, ?_, ?_, ?_, ?_, ?_, ?_⟩
  · simpa using h.guarded
  · intro i hi
    rw [hlinks]
    rcases List.mem_cons.1 hi with rfl | hi
    · exact ⟨s.current, Function.update_self ..⟩
    · rw [Function.update_of_ne (h.below i hi).ne]
      exact h.held i hi
  · intro w hw
    rw [hlinks] at hw
    rcases eq_or_ne w s.fresh with rfl | hne
    · exact ⟨_, List.mem_cons_self, rfl⟩
    · rw [Function.update_of_ne hne] at hw
      obtain ⟨i, hi, rfl⟩ := h.owner w hw
      exact ⟨i, List.mem_cons_of_mem _ hi, rfl⟩
  · intro i hi
    rw [hfresh]
    rcases List.mem_cons.1 hi with rfl | hi
    · exact Nat.lt_succ_self _
    · exact (h.below i hi).trans (Nat.lt_succ_self _)
  · intro w held v hw
    rw [hlinks] at hw
    rw [hfresh]
    rcases eq_or_ne w s.fresh with rfl | hne
    · rw [Function.update_self] at hw
      obtain ⟨-, hv⟩ := Prod.mk.inj (Option.some.inj hw)
      exact (h.current_below v hv).trans (Nat.lt_succ_self _)
    · rw [Function.update_of_ne hne] at hw
      exact (h.next_below w held v hw).trans (Nat.lt_succ_self _)
  · intro w hw
    rw [makeWarp_eq h] at hw
    rw [hfresh]
    obtain rfl := Option.some.inj hw
    exact Nat.lt_succ_self _

/-! ## The invariant -/

/-- An instance is at this address. -/
def Live (s : Hooker) (a : Nat) : Prop := ∃ i ∈ s.instances, i.address = a

def AtPc (s : Hooker) : Prop :=
  match s.pc with
  | .handlers => True
  | .sweep rest => ∀ a ∈ rest, s.Live a
  | .poll address caller => s.Live address ∧ ∀ a ∈ caller.rest, s.Live a
  | .execute address preempted _ _ caller =>
    preempted = false ∧ (∃ i ∈ s.instances, i.address = address ∧ s.current = some i.mainWarp) ∧
      ∀ a ∈ caller.rest, s.Live a

/-- `cpp_list` has the instances alive. -/
structure Core (s : Hooker) : Prop where
  owned : Owned s s.instances
  sorted : Sorted id s.cppList
  listed : ∀ a, a ∈ s.cppList ↔ s.Live a

/-- What the loop over the instances relies on, wherever the nginx thread is in it. -/
structure Inv (s : Hooker) : Prop extends Core s where
  at_pc : AtPc s

theorem instance?_eq_some (h : Owned s s.instances) {a : Nat} :
    s.instance? a = some i ↔ i ∈ s.instances ∧ i.address = a := by
  constructor
  · intro hi
    exact ⟨List.mem_of_find?_eq_some hi, by simpa using List.find?_some hi⟩
  · rintro ⟨hi, rfl⟩
    cases hfind : s.instance? i.address with
    | none => simpa using List.find?_eq_none.1 hfind i hi
    | some j =>
      have hj : j.address = i.address := by simpa using List.find?_some hfind
      rw [h.eq_of_address (List.mem_of_find?_eq_some hfind) hi hj]

theorem instance?_eq_none {a : Nat} : s.instance? a = none ↔ ¬ s.Live a := by
  simp [instance?, Live]

theorem instances_release : (s.release i).instances = s.instances ∧ (s.release i).cppList = s.cppList ∧
    (s.release i).fresh = s.fresh := by
  simp only [release, yield]
  split
  · split
    · split <;> exact ⟨rfl, rfl, rfl⟩
    · exact ⟨rfl, rfl, rfl⟩
  · exact ⟨rfl, rfl, rfl⟩

/-- What is left of the instances without the one at `a`, and what was there. -/
theorem live_others {a b : Nat} {l : List Instance} :
    (∃ i ∈ l.filter (fun j => j.address != a), i.address = b) ↔ b ≠ a ∧ ∃ i ∈ l, i.address = b := by
  simp only [mem_others]
  constructor
  · rintro ⟨i, ⟨hi, hne⟩, rfl⟩
    exact ⟨hne, i, hi, rfl⟩
  · rintro ⟨hne, i, hi, rfl⟩
    exact ⟨i, ⟨hi, hne⟩, rfl⟩

theorem live_cons {a : Nat} {j : Instance} {l : List Instance} :
    (∃ i ∈ j :: l, i.address = a) ↔ j.address = a ∨ ∃ i ∈ l, i.address = a := by
  simp

theorem others_address {a : Nat} {l : List Instance} : ∀ i ∈ l.filter (fun j => j.address != a), i.address ≠ a :=
  fun _ hi => (mem_others.1 hi).2

/-- An instance that is made is listed and has its warp. -/
theorem Core.made (h : Core s) {a : Nat} (ha : ¬ s.Live a) :
    Core ({ s with cppList := binaryInsert id s.cppList a }.makeWarp a false 0) := by
  have howned : Owned { s with cppList := binaryInsert id s.cppList a } s.instances := h.owned.ext rfl rfl rfl
  have hothers : s.instances.filter (fun i => i.address != a) = s.instances :=
    List.filter_eq_self.2 fun i hi => by simpa using fun heq => ha ⟨i, hi, heq⟩
  have hmade := howned.makeWarp false 0 fun i hi heq => ha ⟨i, hi, heq⟩
  have heq := makeWarp_eq howned a false 0
  simp only [hothers] at heq
  refine ⟨?_, ?_, fun b => ?_⟩
  · rw [show (makeWarp _ a false 0).instances = _ from congrArg instances heq]
    exact hmade
  · rw [heq]
    exact h.sorted.binaryInsert a
  · rw [heq]
    show b ∈ binaryInsert id s.cppList a ↔ ∃ i ∈ _ :: s.instances, i.address = b
    rw [mem_binaryInsert h.sorted, live_cons, h.listed b]
    by_cases hb : b = a
    · simp [hb]
    · simp [hb, Ne.symm hb, Live]

theorem resetMainWarp_eq (h : Owned s s.instances) (hi : i ∈ s.instances) (running : Bool) (n : Nat) :
    (s.resetMainWarp i running n).instances =
        ⟨i.address, running, s.fresh, true⟩ :: s.instances.filter (fun j => j.address != i.address) ∧
      (s.resetMainWarp i running n).cppList = s.cppList ∧ (s.resetMainWarp i running n).fresh = s.fresh + 1 ∧
      (s.resetMainWarp i running n).current = some s.fresh := by
  obtain ⟨hinstances, hcpp, hfresh⟩ := instances_release (s := s) (i := i)
  rw [resetMainWarp, makeWarp_eq (h.release hi), hfresh]
  exact ⟨by rw [hinstances], hcpp, rfl, rfl⟩

theorem Owned.reset (h : Owned s s.instances) (hi : i ∈ s.instances) (running : Bool) (n : Nat) :
    Owned (s.resetMainWarp i running n) (s.resetMainWarp i running n).instances := by
  rw [(resetMainWarp_eq h hi running n).1, ← (instances_release (s := s) (i := i)).2.2]
  exact (h.release hi).makeWarp running n others_address

theorem live_reset (h : Owned s s.instances) (hi : i ∈ s.instances) (running : Bool) (n : Nat) (a : Nat) :
    (s.resetMainWarp i running n).Live a ↔ s.Live a := by
  rw [Live, (resetMainWarp_eq h hi running n).1, live_cons, live_others]
  by_cases ha : a = i.address
  · subst ha
    simpa using ⟨i, hi, rfl⟩
  · simp [ha, Ne.symm ha, Live]

theorem Core.reset (h : Core s) (hi : i ∈ s.instances) (running : Bool) (n : Nat) :
    Core (s.resetMainWarp i running n) where
  owned := h.owned.reset hi running n
  sorted := by
    rw [(resetMainWarp_eq h.owned hi running n).2.1]
    exact h.sorted
  listed a := by
    rw [(resetMainWarp_eq h.owned hi running n).2.1, live_reset h.owned hi, h.listed]

/-- In a sorted list, `remove` takes out the address. -/
theorem remove_eq (h : Sorted id s.cppList) (a : Nat) :
    s.remove a = { s with cppList := s.cppList.filter fun b => b != a } := by
  have hspec := binaryFind_spec h a
  rw [remove]
  cases hfind : binaryFind id s.cppList a with
  | none =>
    rw [hfind] at hspec
    rw [List.filter_eq_self.2 fun b hb => by simpa using hspec b hb]
  | some it =>
    rw [hfind] at hspec
    obtain ⟨pre, b, post, heq, rfl, rfl⟩ := hspec
    rw [heq] at h
    obtain ⟨-, hpost, hpre⟩ := List.pairwise_append.1 h
    have hkeep : ∀ c ∈ pre ++ post, (c != b) = true := by
      intro c hc
      rcases List.mem_append.1 hc with hc | hc
      · simpa using (hpre c hc b List.mem_cons_self).ne
      · simpa using ((List.pairwise_cons.1 hpost).1 c hc).ne'
    have hfilter : (pre ++ b :: post).filter (fun c => c != b) = pre ++ post := by
      rw [← List.filter_eq_self.2 hkeep]
      simp
    simp [heq, List.eraseIdx_append_of_length_le] at hfilter ⊢
    exact hfilter.symm

theorem Owned.destroyed (h : Owned s s.instances) (hi : i ∈ s.instances) :
    Owned (s.destroyed i) (s.destroyed i).instances := by
  have hremove : (s.remove i.address).instances = s.instances ∧ Owned (s.remove i.address) s.instances := by
    rw [remove]
    split
    · exact ⟨rfl, h.ext rfl rfl rfl⟩
    · exact ⟨rfl, h⟩
  have hinstances : (s.destroyed i).instances = s.instances.filter fun j => j.address != i.address := by
    simp [Hooker.destroyed, instances_release.1, hremove.1]
  rw [hinstances]
  exact (hremove.2.release hi).ext rfl rfl rfl

theorem Core.destroyed (h : Core s) (hi : i ∈ s.instances) : Core (s.destroyed i) := by
  have hremove := remove_eq h.sorted i.address
  have hinstances : (s.destroyed i).instances = s.instances.filter fun j => j.address != i.address := by
    simp [Hooker.destroyed, instances_release.1, hremove]
  have hcpp : (s.destroyed i).cppList = s.cppList.filter fun b => b != i.address := by
    simp [Hooker.destroyed, instances_release.2.1, hremove]
  refine ⟨h.owned.destroyed hi, ?_, fun a => ?_⟩
  · rw [hcpp]
    exact h.sorted.filter _
  · rw [hcpp, Live, hinstances, live_others, List.mem_filter, h.listed, and_comm]
    simp [Live]

/-! ## The steps -/

/-- The instance whose warp a step releases. -/
def releases (s : Hooker) : Action → Option Instance
  | .start address _ | .destroy address =>
    if s.pc = .handlers then (s.instance? address).filter fun i => !i.running else none
  | .nginx =>
    match s.pc with
    | .poll address caller => do
      let i ← s.instance? address
      if (← s.warps i.mainWarp).empty then caller.releases i else none
    | _ => none
  | _ => none

/-- What a step may do, by the instance it releases. -/
inductive Effect (s : Hooker) : Option Instance → Hooker → Prop where
  | quiet (s' : Hooker) (hlinks : s'.links = s.links) (hinstances : s'.instances = s.instances)
    (hcpp : s'.cppList = s.cppList) (hfresh : s'.fresh = s.fresh) (hcurrent : s'.current = s.current)
    (hpc : AtPc s') : Effect s none s'
  | made (a : Nat) (hpc : s.pc = .handlers) (ha : ¬ s.Live a) :
    Effect s none ({ s with cppList := binaryInsert id s.cppList a }.makeWarp a false 0)
  | reset (i : Instance) (hi : i ∈ s.instances) (running : Bool) (n : Nat) :
    Effect s (some i) { s.resetMainWarp i running n with pc := .handlers }
  | destroyed (i : Instance) (hi : i ∈ s.instances) : Effect s (some i) { s.destroyed i with pc := .handlers }
  | stopped (i : Instance) (hi : i ∈ s.instances) :
    Effect s (some i)
      { (s.resetMainWarp i false 0).destroyed ⟨i.address, false, s.fresh, true⟩ with pc := .handlers }

/-- Where the nginx thread is does not matter to the rest. -/
theorem Core.goto (h : Core s) (p : Pc) : Core { s with pc := p } := ⟨h.owned.ext rfl rfl rfl, h.sorted, h.listed⟩

/-- Whatever an action does, the invariant stays. -/
theorem Effect.inv {r : Option Instance} (e : Effect s r s') (h : Inv s) : Inv s' := by
  cases e with
  | quiet _ hlinks hinstances hcpp hfresh hcurrent hpc =>
    refine ⟨⟨?_, hcpp ▸ h.sorted, fun a => ?_⟩, hpc⟩
    · rw [hinstances]
      exact h.owned.ext hlinks hfresh hcurrent
    · rw [hcpp, Live, hinstances]
      exact h.listed a
  | made a hpc ha =>
    refine ⟨h.toCore.made ha, ?_⟩
    have howned : Owned { s with cppList := binaryInsert id s.cppList a } s.instances := h.owned.ext rfl rfl rfl
    rw [makeWarp_eq howned]
    simp [AtPc, hpc]
  | reset i hi running n => exact ⟨(h.toCore.reset hi running n).goto _, trivial⟩
  | destroyed i hi => exact ⟨(h.toCore.destroyed hi).goto _, trivial⟩
  | stopped i hi =>
    have hmem : ⟨i.address, false, s.fresh, true⟩ ∈ (s.resetMainWarp i false 0).instances := by
      rw [(resetMainWarp_eq h.owned hi false 0).1]
      exact List.mem_cons_self
    exact ⟨((h.toCore.reset hi false 0).destroyed hmem).goto _, trivial⟩

theorem guard_eq (h : Owned s l) (hi : i ∈ l) :
    s.guard i.mainWarp = (s, decide (s.current = some i.mainWarp), false) := by
  obtain ⟨next, hnext⟩ := h.held i hi
  obtain ⟨warp, hwarp, heq⟩ := Option.map_eq_some_iff.1 hnext
  have hheld : warp.held = true := (Prod.mk.inj heq).1
  by_cases hcurrent : s.current = some i.mainWarp
  · simp [guard, hcurrent]
  · simp [guard, hcurrent, preempt, hwarp, hheld]

theorem links_take {w b : Nat} {warp : Warp} (hw : s.warps w = some warp) (rest : List Nat) :
    (s.take w b warp rest).links = s.links := by
  funext v
  rcases eq_or_ne v w with rfl | hv
  · simp [links, take, hw]
  · simp [links, take, Function.update_of_ne hv]

theorem polled_true (hi : i ∈ s.instances) {caller : Caller} (hrest : ∀ a ∈ caller.rest, s.Live a) :
    Effect s none (s.polled i true caller) := by
  cases caller with
  | sweep rest => exact .quiet _ rfl rfl rfl rfl rfl hrest
  | stop | destroy => exact .quiet _ rfl rfl rfl rfl rfl ⟨⟨i, hi, rfl⟩, nofun⟩

theorem polled_false (h : Inv s) (hi : i ∈ s.instances) {caller : Caller} (hrest : ∀ a ∈ caller.rest, s.Live a) :
    Effect s (caller.releases i) (s.polled i false caller) := by
  cases caller with
  | sweep rest => exact .quiet _ rfl rfl rfl rfl rfl hrest
  | stop => exact .reset i hi false 0
  | destroy =>
    have hinstance : (s.resetMainWarp i false 0).instance? i.address = some ⟨i.address, false, s.fresh, true⟩ := by
      rw [instance?_eq_some (h.owned.reset hi false 0), (resetMainWarp_eq h.owned hi false 0).1]
      exact ⟨List.mem_cons_self, rfl⟩
    simp only [polled, hinstance]
    exact .stopped i hi

theorem stepPoll_effect (h : Inv s) (hi : i ∈ s.instances) {warp : Warp} {caller : Caller}
    (hrest : ∀ a ∈ caller.rest, s.Live a) :
    Effect s (if warp.empty then caller.releases i else none) (s.stepPoll i warp caller) := by
  rw [stepPoll]
  by_cases hempty : warp.empty = true
  · simpa [hempty] using polled_false h hi hrest
  · rw [if_neg hempty, if_neg hempty, guard_eq h.owned hi]
    by_cases hcurrent : s.current = some i.mainWarp
    · rw [decide_eq_true hcurrent]
      exact .quiet _ rfl rfl rfl rfl rfl ⟨rfl, ⟨i, hi, rfl, hcurrent⟩, hrest⟩
    · rw [decide_eq_false hcurrent]
      exact polled_true hi hrest

theorem stepExecute_effect (hi : i ∈ s.instances) {warp : Warp} (hwarp : s.warps i.mainWarp = some warp)
    {b count : Nat} {caller : Caller} (hcurrent : s.current = some i.mainWarp) (hrest : ∀ a ∈ caller.rest, s.Live a) :
    Effect s none (s.stepExecute i warp false b count caller) := by
  simp only [stepExecute]
  split
  · next rest _ =>
    exact .quiet _ (links_take hwarp rest) rfl rfl rfl rfl ⟨rfl, ⟨i, hi, rfl, hcurrent⟩, hrest⟩
  · exact .quiet _ rfl rfl rfl rfl rfl ⟨rfl, ⟨i, hi, rfl, hcurrent⟩, hrest⟩
  · split
    · exact .quiet _ rfl rfl rfl rfl rfl ⟨rfl, ⟨i, hi, rfl, hcurrent⟩, hrest⟩
    · exact .quiet _ rfl rfl rfl rfl rfl ⟨⟨i, hi, rfl⟩, hrest⟩

/-- What a step of the nginx thread does. -/
theorem stepNginx_effect (h : Inv s) (hstep : s.stepNginx = some s') : Effect s (s.releases .nginx) s' := by
  have hat := h.at_pc
  simp only [stepNginx, releases, AtPc] at hstep hat ⊢
  cases hpc : s.pc with
  | handlers => simp [hpc] at hstep
  | sweep rest =>
    simp only [hpc] at hstep hat ⊢
    cases rest with
    | nil =>
      obtain rfl := Option.some.inj hstep
      exact .quiet _ rfl rfl rfl rfl rfl trivial
    | cons a rest =>
      obtain rfl := Option.some.inj hstep
      exact .quiet _ rfl rfl rfl rfl rfl ⟨hat a List.mem_cons_self, fun b hb => hat b (List.mem_cons_of_mem _ hb)⟩
  | poll a caller =>
    simp only [hpc] at hstep hat ⊢
    obtain ⟨i, hinstance, hstep⟩ := Option.bind_eq_some_iff.1 hstep
    obtain ⟨warp, hwarp, hstep⟩ := Option.bind_eq_some_iff.1 hstep
    obtain rfl := Option.some.inj hstep
    simp only [hinstance, Option.bind_eq_bind, Option.bind_some, hwarp]
    exact stepPoll_effect h ((instance?_eq_some h.owned).1 hinstance).1 hat.2
  | execute a preempted b count caller =>
    simp only [hpc] at hstep hat ⊢
    obtain ⟨i, hinstance, hstep⟩ := Option.bind_eq_some_iff.1 hstep
    obtain ⟨warp, hwarp, hstep⟩ := Option.bind_eq_some_iff.1 hstep
    obtain rfl := Option.some.inj hstep
    obtain ⟨rfl, ⟨j, hj, haddress, hcurrent⟩, hrest⟩ := hat
    obtain ⟨hi, rfl⟩ := (instance?_eq_some h.owned).1 hinstance
    obtain rfl := h.owned.eq_of_address hj hi haddress
    exact stepExecute_effect hi hwarp hcurrent hrest

/-- What an action does. -/
theorem act_effect (h : Inv s) {a : Action} (hact : s.act a = some s') : Effect s (s.releases a) s' := by
  cases a with
  | new address =>
    simp only [act] at hact
    split at hact
    · next hguard =>
      obtain rfl := Option.some.inj hact
      exact .made address hguard.1 (instance?_eq_none.1 hguard.2)
    · cases hact
  | start address threadCount =>
    simp only [act] at hact
    split at hact
    · next hpc =>
      obtain ⟨i, hi, hact⟩ := Option.bind_eq_some_iff.1 hact
      split at hact
      · cases hact
      · next hrunning =>
        obtain rfl := Option.some.inj hact
        have hreleases : s.releases (.start address threadCount) = some i := by
          simp [releases, hpc, hi, hrunning]
        rw [hreleases]
        exact .reset i ((instance?_eq_some h.owned).1 hi).1 true (threadCount + 1)
    · cases hact
  | stop address =>
    simp only [act] at hact
    split at hact
    · obtain ⟨i, hi, hact⟩ := Option.bind_eq_some_iff.1 hact
      obtain ⟨hmem, rfl⟩ := (instance?_eq_some h.owned).1 hi
      split at hact
      · obtain rfl := Option.some.inj hact
        exact .quiet _ rfl rfl rfl rfl rfl ⟨⟨i, hmem, rfl⟩, nofun⟩
      · cases hact
    · cases hact
  | destroy address =>
    simp only [act] at hact
    split at hact
    · next hpc =>
      obtain ⟨i, hi, hact⟩ := Option.bind_eq_some_iff.1 hact
      obtain ⟨hmem, rfl⟩ := (instance?_eq_some h.owned).1 hi
      split at hact
      · next hrunning =>
        obtain rfl := Option.some.inj hact
        have hreleases : s.releases (.destroy i.address) = none := by
          simp [releases, hpc, hi, hrunning]
        rw [hreleases]
        exact .quiet _ rfl rfl rfl rfl rfl ⟨⟨i, hmem, rfl⟩, nofun⟩
      · next hrunning =>
        obtain rfl := Option.some.inj hact
        have hreleases : s.releases (.destroy i.address) = some i := by
          simp [releases, hpc, hi, hrunning]
        rw [hreleases]
        exact .destroyed i hmem
    · cases hact
  | post w b task =>
    obtain ⟨warp, hwarp, hact⟩ := Option.bind_eq_some_iff.1 hact
    obtain ⟨buffer, -, hact⟩ := Option.bind_eq_some_iff.1 hact
    obtain rfl := Option.some.inj hact
    exact .quiet _ (links_take hwarp _) rfl rfl rfl rfl h.at_pc
  | sweep =>
    simp only [act] at hact
    split at hact
    · obtain rfl := Option.some.inj hact
      exact .quiet _ rfl rfl rfl rfl rfl fun a ha => (h.listed a).1 ha
    · cases hact
  | nginx => exact stepNginx_effect h hact

theorem releases_of_none {a : Action} (hact : s.act a = none) : s.releases a = none := by
  cases a with
  | start address threadCount | destroy address =>
    simp only [act, releases] at hact ⊢
    split
    · next hpc =>
      rw [if_pos hpc] at hact
      cases hi : s.instance? address with
      | none => rfl
      | some i => cases hrunning : i.running <;> simp [hi, hrunning] at hact ⊢
    · rfl
  | nginx =>
    simp only [act, stepNginx, releases] at hact ⊢
    split
    · next address caller hpc =>
      rw [hpc] at hact
      cases hi : s.instance? address with
      | none => rfl
      | some i =>
        cases hwarp : s.warps i.mainWarp with
        | none => simp [hwarp]
        | some warp => simp [hi, hwarp] at hact
    · rfl
  | _ => rfl

theorem Inv.step (h : Inv s) (a : Action) : Inv (s.step a) := by
  rw [Hooker.step]
  cases hact : s.act a with
  | none => exact h
  | some s' => exact (act_effect h hact).inv h

theorem inv_run (acts : List Action) : Inv (run acts) := by
  apply Trace.invariant fun _ s => Inv s
  · refine ⟨⟨⟨.nil, nofun, nofun, ?_, nofun, ?_, nofun⟩, .nil, ?_⟩, trivial⟩
    · exact fun w hw => absurd rfl hw
    · exact fun w held v hw => by cases hw
    · simp [Live, new]
  · exact fun _ s a h => h.step a

/-- `cpp_list` has every instance alive, each once, in the order of the addresses. -/
theorem cpp_list_live (acts : List Action) :
    (run acts).cppList.Pairwise (· < ·) ∧ ∀ a, a ∈ (run acts).cppList ↔ ∃ i ∈ (run acts).instances, i.address = a :=
  ⟨(inv_run acts).sorted, (inv_run acts).listed⟩

/-! ## The links -/

/-- The links lead from one instance to the next. -/
def Linked (links : Nat → Option (Bool × Option Nat)) : Option Nat → List Instance → Prop
  | top, [] => top = none
  | top, i :: l => top = some i.mainWarp ∧ ∃ next, links i.mainWarp = some (true, next) ∧ Linked links next l

/-- Neither the current warp nor one that a warp is linked to has been destroyed. -/
def LinksLive (s : Hooker) : Prop :=
  (∀ w, s.current = some w → s.links w ≠ none) ∧ ∀ v held w, s.links v = some (held, some w) → s.links w ≠ none

/-- If the step releases a warp, it is the current one. -/
def inOrder (s : Hooker) (a : Action) : Bool := (s.releases a).all fun i => s.current == some i.mainWarp

variable {top : Option Nat} {links links' : Nat → Option (Bool × Option Nat)}

theorem Linked.congr (h : Linked links top l) (heq : ∀ i ∈ l, links' i.mainWarp = links i.mainWarp) :
    Linked links' top l := by
  induction l generalizing top with
  | nil => exact h
  | cons i l ih =>
    obtain ⟨htop, next, hnext, hl⟩ := h
    refine ⟨htop, next, ?_, ih hl fun j hj => heq j (List.mem_cons_of_mem _ hj)⟩
    rw [heq i List.mem_cons_self, hnext]

theorem Linked.top_mem (h : Linked links top l) {w : Nat} (hw : top = some w) : ∃ i ∈ l, i.mainWarp = w := by
  cases l with
  | nil => cases hw.symm.trans h
  | cons i l =>
    obtain rfl := Option.some.inj (hw.symm.trans h.1)
    exact ⟨i, List.mem_cons_self, rfl⟩

theorem Linked.next_mem (h : Linked links top l) {w : Nat} {held : Bool} (hi : i ∈ l)
    (hw : links i.mainWarp = some (held, some w)) : ∃ j ∈ l, j.mainWarp = w := by
  induction l generalizing top with
  | nil => cases hi
  | cons k l ih =>
    obtain ⟨-, next, hnext, hl⟩ := h
    have htail : ∃ j ∈ l, j.mainWarp = w := by
      rcases List.mem_cons.1 hi with rfl | hi
      · obtain ⟨-, rfl⟩ := Prod.mk.inj (Option.some.inj (hnext.symm.trans hw))
        exact hl.top_mem rfl
      · exact ih hl hi
    obtain ⟨j, hj, heq⟩ := htail
    exact ⟨j, List.mem_cons_of_mem _ hj, heq⟩

theorem Linked.live (h : Linked s.links s.current s.instances) (ho : Owned s s.instances) : LinksLive s := by
  have hlive : ∀ i ∈ s.instances, s.links i.mainWarp ≠ none := by
    intro i hi
    obtain ⟨next, hnext⟩ := ho.held i hi
    rw [hnext]
    exact Option.some_ne_none _
  constructor
  · intro w hw
    obtain ⟨i, hi, rfl⟩ := h.top_mem hw
    exact hlive i hi
  · intro v held w hv
    obtain ⟨i, hi, rfl⟩ := ho.owner v (by rw [hv]; exact Option.some_ne_none _)
    obtain ⟨j, hj, rfl⟩ := h.next_mem hi hv
    exact hlive j hj

/-- Some warp is linked to one that is not the current one. -/
theorem Linked.exists_linked (h : Linked links top l) (hd : l.Pairwise Apart) (hi : i ∈ l)
    (htop : top ≠ some i.mainWarp) :
    ∃ j ∈ l, j.mainWarp ≠ i.mainWarp ∧ links j.mainWarp = some (true, some i.mainWarp) := by
  induction l generalizing top with
  | nil => cases hi
  | cons k l ih =>
    obtain ⟨rfl, next, hnext, hl⟩ := h
    obtain ⟨hk, hd⟩ := List.pairwise_cons.1 hd
    have hi : i ∈ l := by
      rcases List.mem_cons.1 hi with rfl | hi
      · exact absurd rfl htop
      · exact hi
    by_cases hnexti : next = some i.mainWarp
    · exact ⟨k, List.mem_cons_self, (hk i hi).2, hnexti ▸ hnext⟩
    · obtain ⟨j, hj, hlink⟩ := ih hl hd hi hnexti
      exact ⟨j, List.mem_cons_of_mem _ hj, hlink⟩

/-- In order, the first of the instances goes. -/
theorem Linked.head (h : Linked s.links s.current s.instances) (ho : Owned s s.instances) (hi : i ∈ s.instances)
    (hcurrent : s.current = some i.mainWarp) :
    ∃ l next, s.instances = i :: l ∧ s.instances.filter (fun j => j.address != i.address) = l ∧
      s.links i.mainWarp = some (true, next) ∧ Linked s.links next l ∧ ∀ j ∈ l, j.mainWarp ≠ i.mainWarp := by
  have hd := ho.distinct
  cases hinstances : s.instances with
  | nil =>
    rw [hinstances] at hi
    cases hi
  | cons k l =>
    rw [hinstances] at h hd
    obtain ⟨hk, next, hnext, hl⟩ := h
    have hki : k = i := by
      apply ho.eq_of_mainWarp (hinstances ▸ List.mem_cons_self) hi
      exact Option.some.inj (hk.symm.trans hcurrent)
    subst hki
    have hapart := (List.pairwise_cons.1 hd).1
    refine ⟨l, next, rfl, ?_, hnext, hl, fun j hj => (hapart j hj).2.symm⟩
    rw [List.filter_cons_of_neg (by simp)]
    exact List.filter_eq_self.2 fun j hj => by simpa using (hapart j hj).1.symm

theorem Linked.release (h : Linked s.links s.current s.instances) (ho : Owned s s.instances) (hi : i ∈ s.instances)
    (hcurrent : s.current = some i.mainWarp) :
    Linked (s.release i).links (s.release i).current (s.instances.filter fun j => j.address != i.address) := by
  obtain ⟨l, next, -, hfilter, hnext, hl, hne⟩ := h.head ho hi hcurrent
  obtain ⟨next', hnext', heq⟩ := release_eq ho hi
  obtain ⟨-, rfl⟩ := Prod.mk.inj (Option.some.inj (hnext.symm.trans hnext'))
  rw [hfilter, links_release ho hi]
  have htop : (s.release i).current = next := by rw [heq]
  rw [htop]
  exact hl.congr fun j hj => Function.update_of_ne (hne j hj) ..

theorem Linked.makeWarp (h : Linked s.links s.current l) (ho : Owned s l) (a : Nat) (running : Bool) (n : Nat) :
    Linked (s.makeWarp a running n).links (s.makeWarp a running n).current (⟨a, running, s.fresh, true⟩ :: l) := by
  rw [links_makeWarp ho]
  refine ⟨?_, s.current, Function.update_self .., h.congr fun i hi => Function.update_of_ne (ho.below i hi).ne ..⟩
  rw [makeWarp_eq ho]

theorem Linked.reset (h : Linked s.links s.current s.instances) (ho : Owned s s.instances) (hi : i ∈ s.instances)
    (hcurrent : s.current = some i.mainWarp) (running : Bool) (n : Nat) :
    Linked (s.resetMainWarp i running n).links (s.resetMainWarp i running n).current
      (s.resetMainWarp i running n).instances := by
  rw [(resetMainWarp_eq ho hi running n).1, ← (instances_release (s := s) (i := i)).2.2]
  exact (h.release ho hi hcurrent).makeWarp (ho.release hi) ..

theorem remove_same (s : Hooker) (a : Nat) : (s.remove a).instances = s.instances ∧ (s.remove a).links = s.links ∧
    (s.remove a).current = s.current ∧ (s.remove a).fresh = s.fresh := by
  rw [remove]
  split <;> exact ⟨rfl, rfl, rfl, rfl⟩

theorem Linked.destroyed (h : Linked s.links s.current s.instances) (ho : Owned s s.instances) (hi : i ∈ s.instances)
    (hcurrent : s.current = some i.mainWarp) :
    Linked (s.destroyed i).links (s.destroyed i).current (s.destroyed i).instances := by
  obtain ⟨hinstances, hlinks, htop, hfresh⟩ := remove_same s i.address
  have hdestroyed : (s.destroyed i).instances = s.instances.filter fun j => j.address != i.address := by
    simp [Hooker.destroyed, instances_release.1, hinstances]
  rw [hdestroyed]
  have ho' : Owned (s.remove i.address) s.instances := ho.ext hlinks hfresh htop
  rw [← hinstances] at h hi ho' ⊢
  rw [← hlinks, ← htop] at h
  exact h.release ho' hi (htop ▸ hcurrent)

/-- The instances stay linked, if the warp released is the current one. -/
theorem Effect.linked {r : Option Instance} (e : Effect s r s') (h : Inv s)
    (hl : Linked s.links s.current s.instances) (horder : ∀ i, r = some i → s.current = some i.mainWarp) :
    Linked s'.links s'.current s'.instances := by
  cases e with
  | quiet _ hlinks hinstances hcpp hfresh hcurrent hpc =>
    rw [hlinks, hinstances, hcurrent]
    exact hl
  | made a hpc ha =>
    have howned : Owned { s with cppList := binaryInsert id s.cppList a } s.instances := h.owned.ext rfl rfl rfl
    have hothers : s.instances.filter (fun i => i.address != a) = s.instances :=
      List.filter_eq_self.2 fun i hi => by simpa using fun heq => ha ⟨i, hi, heq⟩
    have hinstances : (makeWarp { s with cppList := binaryInsert id s.cppList a } a false 0).instances =
        ⟨a, false, s.fresh, true⟩ :: s.instances := by
      rw [makeWarp_eq howned]
      simp only [hothers]
    rw [hinstances]
    exact Linked.makeWarp (s := { s with cppList := binaryInsert id s.cppList a }) hl howned a false 0
  | reset i hi running n => exact hl.reset h.owned hi (horder i rfl) running n
  | destroyed i hi => exact hl.destroyed h.owned hi (horder i rfl)
  | stopped i hi =>
    have heq := resetMainWarp_eq h.owned hi false 0
    apply (hl.reset h.owned hi (horder i rfl) false 0).destroyed (h.owned.reset hi false 0)
    · rw [heq.1]
      exact List.mem_cons_self
    · exact heq.2.2.2

/-- What a release leaves of the warps made so far. -/
theorem Effect.released {r : Instance} (e : Effect s (some r) s') (h : Inv s) :
    r ∈ s.instances ∧ s'.links r.mainWarp = none ∧
      ∀ i ∈ s.instances, i.mainWarp ≠ r.mainWarp → s'.links i.mainWarp = s.links i.mainWarp := by
  have hreset : ∀ i ∈ s.instances, ∀ running n, (s.resetMainWarp i running n).links =
      Function.update (Function.update s.links i.mainWarp none) s.fresh (some (true, (s.release i).current)) := by
    intro i hi running n
    rw [resetMainWarp, links_makeWarp (h.owned.release hi), links_release h.owned hi, instances_release.2.2]
  cases e with
  | reset _ hi running n =>
    refine ⟨hi, ?_, fun i hmem hne => ?_⟩
    · show (s.resetMainWarp r running n).links r.mainWarp = none
      rw [hreset r hi, Function.update_of_ne (h.owned.below r hi).ne, Function.update_self]
    · show (s.resetMainWarp r running n).links i.mainWarp = _
      rw [hreset r hi, Function.update_of_ne (h.owned.below i hmem).ne, Function.update_of_ne hne]
  | destroyed _ hi =>
    obtain ⟨hinstances, hlinks, htop, hfresh⟩ := remove_same s r.address
    have hremoved : (s.destroyed r).links = Function.update s.links r.mainWarp none := by
      rw [← hlinks]
      exact links_release (h.owned.ext hlinks hfresh htop) hi
    refine ⟨hi, ?_, fun i hmem hne => ?_⟩
    · show (s.destroyed r).links r.mainWarp = none
      rw [hremoved, Function.update_self]
    · show (s.destroyed r).links i.mainWarp = _
      rw [hremoved, Function.update_of_ne hne]
  | stopped _ hi =>
    obtain ⟨hinstances, hlinks, htop, hfresh⟩ := remove_same (s.resetMainWarp r false 0) r.address
    have hmem : ⟨r.address, false, s.fresh, true⟩ ∈ (s.resetMainWarp r false 0).instances := by
      rw [(resetMainWarp_eq h.owned hi false 0).1]
      exact List.mem_cons_self
    have hremoved : ((s.resetMainWarp r false 0).destroyed ⟨r.address, false, s.fresh, true⟩).links =
        Function.update (s.resetMainWarp r false 0).links s.fresh none := by
      rw [← hlinks]
      exact links_release ((h.owned.reset hi false 0).ext hlinks hfresh htop) hmem
    refine ⟨hi, ?_, fun i hi' hne => ?_⟩
    · show Hooker.links (Hooker.destroyed _ _) r.mainWarp = none
      rw [hremoved, Function.update_of_ne (h.owned.below r hi).ne, hreset r hi,
        Function.update_of_ne (h.owned.below r hi).ne, Function.update_self]
    · show Hooker.links (Hooker.destroyed _ _) i.mainWarp = _
      rw [hremoved, Function.update_of_ne (h.owned.below i hi').ne, hreset r hi,
        Function.update_of_ne (h.owned.below i hi').ne, Function.update_of_ne hne]

/-- The warp that the released one was linked from is now linked to nothing alive. -/
theorem Effect.dangles {r : Instance} (e : Effect s (some r) s') (h : Inv s)
    (hl : Linked s.links s.current s.instances) (hcurrent : s.current ≠ some r.mainWarp) : ¬ LinksLive s' := by
  obtain ⟨hr, hgone, hkept⟩ := e.released h
  obtain ⟨j, hj, hne, hlink⟩ := hl.exists_linked h.owned.distinct hr hcurrent
  intro hlive
  apply hlive.2 j.mainWarp true r.mainWarp
  · rw [hkept j hj hne, hlink]
  · exact hgone

theorem linked_run {acts : List Action} (h : Each (fun pre a => (run pre).inOrder a = true) acts) :
    Linked (run acts).links (run acts).current (run acts).instances := by
  induction acts using List.reverseRecOn with
  | nil => exact rfl
  | append_singleton acts a ih =>
    obtain ⟨hacts, ha⟩ := each_concat.1 h
    have hl := ih hacts
    rw [run, List.foldl_concat, ← run, Hooker.step]
    cases hact : (run acts).act a with
    | none => exact hl
    | some s' =>
      apply (act_effect (inv_run acts) hact).linked (inv_run acts) hl
      intro i hi
      simpa [inOrder, hi] using ha

/-- Through a whole run the links lead to warps alive if and only if every warp
released is the current one. -/
theorem links_live_iff (acts : List Action) :
    Throughout (fun pre => LinksLive (run pre)) acts ↔ Each (fun pre a => (run pre).inOrder a = true) acts := by
  induction acts using List.reverseRecOn with
  | nil =>
    refine iff_of_true (throughout_nil.2 ⟨nofun, fun v held w hv => ?_⟩) (each_nil _)
    cases hv
  | append_singleton acts a ih =>
    rw [throughout_concat, each_concat, ih]
    refine and_congr_right fun horder => ?_
    have hl := linked_run horder
    have h := inv_run acts
    rw [run, List.foldl_concat, ← run, Hooker.step]
    cases hact : (run acts).act a with
    | none =>
      refine iff_of_true (hl.live h.owned) ?_
      simp [inOrder, releases_of_none hact]
    | some s' =>
      have heffect := act_effect h hact
      constructor
      · intro hlive
        cases hr : (run acts).releases a with
        | none => simp [inOrder, hr]
        | some r =>
          rw [hr] at heffect
          by_contra hne
          exact heffect.dangles h hl (fun heq => hne (by simp [inOrder, hr, heq])) hlive
      · intro ha
        exact (heffect.linked h hl fun i hi => by simpa [inOrder, hi] using ha).live (heffect.inv h).owned

/-! ## Whose tasks are run -/

/-- The nginx thread comes from one state to the other with nobody else in between. -/
def Reaches (s s' : Hooker) : Prop := ∃ k, (List.replicate k Action.nginx).foldl step s = s'

theorem Reaches.refl (s : Hooker) : Reaches s s := ⟨0, rfl⟩

theorem Reaches.trans {t : Hooker} (h : Reaches s t) (h' : Reaches t s') : Reaches s s' := by
  obtain ⟨k, rfl⟩ := h
  obtain ⟨k', rfl⟩ := h'
  exact ⟨k + k', by rw [List.replicate_add, List.foldl_append]⟩

theorem Reaches.head {t : Hooker} (hstep : s.stepNginx = some t) (h : Reaches t s') : Reaches s s' := by
  apply Reaches.trans _ h
  exact ⟨1, by simp [step, act, hstep]⟩

def drained (warp : Warp) : Warp := { warp with buffers := warp.buffers.map fun _ => [] }

/-- All the tasks of the current warp have been run. -/
def ran (s : Hooker) : Hooker :=
  { s with warps := fun w => (s.warps w).map fun warp => if s.current = some w then drained warp else warp }

theorem drained_of_empty {warp : Warp} (h : ∀ buffer ∈ warp.buffers, buffer = []) : drained warp = warp := by
  obtain ⟨held, next, buffers⟩ := warp
  have hmap : buffers.map (fun _ => ([] : List Nat)) = buffers.map id :=
    List.map_congr_left fun buffer hbuffer => (h buffer hbuffer).symm
  simp [drained, hmap]

theorem drained_set (warp : Warp) (b : Nat) (rest : List Nat) :
    drained { warp with buffers := warp.buffers.set b rest } = drained warp := by
  simp only [drained, List.map_set, Instances.Warp.mk.injEq, true_and]
  apply List.ext_getElem
  · simp
  · intro j hj hj'
    simp

theorem ran_eq {w : Nat} {warp : Warp} (hcurrent : s.current = some w) (hw : s.warps w = some warp) :
    s.ran = { s with warps := Function.update s.warps w (some (drained warp)) } := by
  have hwarps : s.ran.warps = Function.update s.warps w (some (drained warp)) := by
    funext v
    rcases eq_or_ne v w with rfl | hv
    · simp [ran, hw, hcurrent]
    · simp [ran, hcurrent, Function.update_of_ne hv, Ne.symm hv]
  rw [← hwarps]
  rfl

theorem ran_of_dangling (h : ∀ w, s.current = some w → s.warps w = none) : s.ran = s := by
  have hwarps : s.ran.warps = s.warps := by
    funext w
    cases hw : s.warps w with
    | none => simp [ran, hw]
    | some warp =>
      have hne : s.current ≠ some w := fun heq => by cases (h w heq).symm.trans hw
      simp [ran, hw, hne]
  rw [ran] at hwarps ⊢
  exact congrArg (fun warps => { s with warps := warps }) hwarps

theorem weight_take {buffers : List (List Nat)} {b task : Nat} {rest : List Nat} (hb : buffers[b]? = some (task :: rest)) :
    Monitor.weight List.length (buffers.set b rest) < Monitor.weight List.length buffers := by
  have hmoved := Monitor.weight_moved (f := List.length) (q := rest) hb
  rw [List.length_cons] at hmoved
  omega

/-- The loop of `execute_internal` runs all there is, if nothing is posted meanwhile. -/
theorem execute_drains {s : Hooker} (hinstance : s.instance? i.address = some i) {warp : Warp} (hwarp : s.warps i.mainWarp = some warp)
    (hcurrent : s.current = some i.mainWarp) {b n : Nat} {caller : Caller}
    (hpc : s.pc = .execute i.address false b n caller) (hbefore : ∀ j < b, ∀ buffer ∈ warp.buffers[j]?, buffer = []) :
    Reaches s { s.ran with pc := .poll i.address caller } := by
  have hstep : s.stepNginx = some (s.stepExecute i warp false b n caller) := by
    simp [stepNginx, hpc, hinstance, hwarp]
  apply Reaches.head hstep
  rw [stepExecute]
  cases hb : warp.buffers[b]? with
  | none =>
    have hempty : ∀ buffer ∈ warp.buffers, buffer = [] := by
      intro buffer hbuffer
      obtain ⟨j, hj⟩ := List.mem_iff_getElem?.1 hbuffer
      have hlt : j < b := (List.getElem?_eq_some_iff.1 hj).1.trans_le (List.getElem?_eq_none_iff.1 hb)
      exact hbefore j hlt buffer hj
    by_cases hn : n = 0
    · have hself : s.ran = s := by
        rw [ran_eq hcurrent hwarp, drained_of_empty hempty, ← hwarp, Function.update_eq_self]
      rw [hself]
      simp only [hn, ne_eq, not_true_eq_false, if_false]
      exact Reaches.refl _
    · simp only [hn, ne_eq, not_false_eq_true, if_true]
      exact execute_drains (s := { s with pc := .execute i.address false 0 0 caller }) hinstance hwarp hcurrent rfl
        fun j hj => absurd hj (Nat.not_lt_zero j)
  | some buffer =>
    cases buffer with
    | nil =>
      apply execute_drains (s := { s with pc := .execute i.address false (b + 1) n caller }) hinstance hwarp hcurrent rfl
      intro j hj buffer hbuffer
      rcases Nat.lt_succ_iff_lt_or_eq.1 hj with hlt | rfl
      · exact hbefore j hlt buffer hbuffer
      · exact Option.some.inj (hbuffer.symm.trans hb)
    | cons task rest =>
      have hran : (s.take i.mainWarp b warp rest).ran = s.ran := by
        rw [ran_eq hcurrent hwarp,
          ran_eq (s := s.take i.mainWarp b warp rest) hcurrent (Function.update_self ..), drained_set]
        simp [take]
      rw [← hran]
      apply execute_drains (s := { s.take i.mainWarp b warp rest with pc := .execute i.address false b (n + 1) caller })
        hinstance (Function.update_self ..) hcurrent rfl
      intro j hj buffer hbuffer
      rw [List.getElem?_set_ne hj.ne'] at hbuffer
      exact hbefore j hj buffer hbuffer
termination_by (Monitor.weight List.length warp.buffers, if n = 0 then 0 else 1, warp.buffers.length - b)
decreasing_by
  · simp [Prod.lex_def, hn]
  · have hlt := (List.getElem?_eq_some_iff.1 hb).1
    simp only [Prod.lex_def, lt_irrefl, true_and, false_or]
    omega
  · exact Prod.Lex.left _ _ (weight_take hb)

theorem links_ran (s : Hooker) : s.ran.links = s.links := by
  funext w
  simp only [links, ran, Option.map_map]
  congr 1
  funext warp
  by_cases hcurrent : s.current = some w <;> simp [hcurrent, drained]

theorem ran_ran (s : Hooker) : s.ran.ran = s.ran := by
  have hwarps : s.ran.ran.warps = s.ran.warps := by
    funext w
    simp only [ran, Option.map_map]
    congr 1
    funext warp
    by_cases hcurrent : s.current = some w <;> simp [hcurrent, drained]
  rw [ran] at hwarps ⊢
  exact congrArg (fun warps => { s.ran with warps := warps }) hwarps

theorem empty_drained (warp : Warp) : (drained warp).empty = true := by
  simp [drained, Warp.empty]

theorem stepNginx_poll (hinstance : s.instance? i.address = some i) {warp : Warp}
    (hwarp : s.warps i.mainWarp = some warp) {caller : Caller} (hpc : s.pc = .poll i.address caller) :
    s.stepNginx = some (s.stepPoll i warp caller) := by
  simp [stepNginx, hpc, hinstance, hwarp]

/-- A poll on a warp that is not the current one runs nothing. -/
theorem stepPoll_other (h : Owned s s.instances) (hi : i ∈ s.instances) (hcurrent : s.current ≠ some i.mainWarp)
    (warp : Warp) (caller : Caller) : s.stepPoll i warp caller = s.polled i (!warp.empty) caller := by
  rw [stepPoll, guard_eq h hi, decide_eq_false hcurrent]
  cases warp.empty <;> rfl

/-- A poll on the current warp comes back when it has run all. -/
theorem poll_drains (h : Owned s s.instances) (hi : i ∈ s.instances) (hcurrent : s.current = some i.mainWarp)
    {caller : Caller} (hpc : s.pc = .poll i.address caller) :
    Reaches s ({ s.ran with pc := s.pc }.polled i false caller) := by
  have hinstance : s.instance? i.address = some i := (instance?_eq_some h).2 ⟨hi, rfl⟩
  obtain ⟨next, hnext⟩ := h.held i hi
  obtain ⟨warp, hwarp, -⟩ := Option.map_eq_some_iff.1 hnext
  have hran := ran_eq hcurrent hwarp
  have hlast : Reaches { s.ran with pc := s.pc } ({ s.ran with pc := s.pc }.polled i false caller) := by
    apply Reaches.head _ (Reaches.refl _)
    have hwarp' : s.ran.warps i.mainWarp = some (drained warp) := by
      rw [hran]
      exact Function.update_self ..
    rw [stepNginx_poll (s := { s.ran with pc := s.pc }) hinstance hwarp' hpc, stepPoll, if_pos (empty_drained warp)]
  by_cases hempty : warp.empty = true
  · have hself : ({ s.ran with pc := s.pc } : Hooker) = s := by
      have hbuffers : ∀ buffer ∈ warp.buffers, buffer = [] := by simpa [Warp.empty] using hempty
      rw [hran, drained_of_empty hbuffers, ← hwarp, Function.update_eq_self]
    rw [hself] at hlast ⊢
    exact hlast
  · have hstep : s.stepNginx = some { s with pc := .execute i.address false 0 0 caller } := by
      rw [stepNginx_poll hinstance hwarp hpc, stepPoll, if_neg hempty, guard_eq h hi, decide_eq_true hcurrent]
    apply Reaches.head hstep
    apply Reaches.trans _ hlast
    have hdrains := execute_drains (s := { s with pc := .execute i.address false 0 0 caller }) hinstance hwarp hcurrent rfl
      fun j hj => absurd hj (Nat.not_lt_zero j)
    rw [hpc]
    exact hdrains

/-- What the rest of a pass leaves. -/
theorem sweep_drains {rest : List Nat} (h : Owned s s.instances) (hrest : ∀ a ∈ rest, s.Live a)
    (hpc : s.pc = .sweep rest) :
    Reaches s { s with pc := .handlers } ∧ (∀ i ∈ s.instances, i.address ∈ rest → s.current ≠ some i.mainWarp) ∨
      Reaches s { s.ran with pc := .handlers } ∧ ∃ i ∈ s.instances, i.address ∈ rest ∧ s.current = some i.mainWarp := by
  induction rest generalizing s with
  | nil =>
    refine .inl ⟨Reaches.head ?_ (Reaches.refl _), nofun⟩
    simp [stepNginx, hpc]
  | cons a rest ih =>
    obtain ⟨i, hi, rfl⟩ := hrest a List.mem_cons_self
    have hinstance : s.instance? i.address = some i := (instance?_eq_some h).2 ⟨hi, rfl⟩
    have hlive : ∀ b ∈ rest, s.Live b := fun b hb => hrest b (List.mem_cons_of_mem _ hb)
    have hfirst : s.stepNginx = some { s with pc := .poll i.address (.sweep rest) } := by simp [stepNginx, hpc]
    by_cases hcurrent : s.current = some i.mainWarp
    · right
      refine ⟨?_, i, hi, List.mem_cons_self, hcurrent⟩
      apply Reaches.head hfirst
      apply Reaches.trans (poll_drains (s := { s with pc := .poll i.address (.sweep rest) }) (h.ext rfl rfl rfl) hi
        hcurrent rfl)
      have hnext := ih (s := { s.ran with pc := .sweep rest }) (h.ext (links_ran s) rfl rfl) hlive rfl
      rcases hnext with ⟨hreach, -⟩ | ⟨hreach, -⟩
      · exact hreach
      · have hran : Hooker.ran { s.ran with pc := .sweep rest } = { s.ran with pc := .sweep rest } :=
          congrArg (fun t : Hooker => { t with pc := .sweep rest }) (ran_ran s)
        rw [hran] at hreach
        exact hreach
    · obtain ⟨next, hlinks⟩ := h.held i hi
      obtain ⟨warp, hwarp, -⟩ := Option.map_eq_some_iff.1 hlinks
      have hsecond : Reaches s { s with pc := .sweep rest } := by
        apply Reaches.head hfirst
        apply Reaches.head _ (Reaches.refl _)
        rw [stepNginx_poll (s := { s with pc := .poll i.address (.sweep rest) }) hinstance hwarp rfl,
          stepPoll_other (s := { s with pc := .poll i.address (.sweep rest) }) (h.ext rfl rfl rfl) hi hcurrent]
        rfl
      rcases ih (s := { s with pc := .sweep rest }) (h.ext rfl rfl rfl) hlive rfl with ⟨hreach, hnone⟩ | ⟨hreach, j, hj, hjr, hjc⟩
      · refine .inl ⟨hsecond.trans hreach, fun j hj hmem => ?_⟩
        rcases List.mem_cons.1 hmem with heq | hmem
        · rwa [h.eq_of_address hj hi heq]
        · exact hnone j hj hmem
      · exact .inr ⟨hsecond.trans hreach, j, hj, List.mem_cons_of_mem _ hjr, hjc⟩

/-- A pass over `cpp_list`, with nothing posted meanwhile, runs every task of the
current warp and none of the others. -/
theorem pass_runs_current (acts : List Action) (h : (run acts).pc = .handlers) :
    ∃ k, run (acts ++ .sweep :: List.replicate k .nginx) = (run acts).ran := by
  have hinv := inv_run acts
  generalize hs : run acts = s at h hinv ⊢
  have hsweep : s.step .sweep = { s with pc := .sweep s.cppList } := by simp [step, act, h]
  have hpass := sweep_drains (s := { s with pc := .sweep s.cppList }) (hinv.owned.ext rfl rfl rfl)
    (fun a ha => (hinv.listed a).1 ha) rfl
  have hself : ({ s with pc := .handlers } : Hooker) = s := by rw [← h]
  have hreach : Reaches (s.step .sweep) s.ran := by
    rw [hsweep]
    rcases hpass with ⟨hreach, hnone⟩ | ⟨hreach, -⟩
    · have hran : s.ran = s := by
        apply ran_of_dangling
        intro w hw
        cases hwarp : s.warps w with
        | none => rfl
        | some warp =>
          obtain ⟨i, hi, rfl⟩ := hinv.owned.owner w (by simp [links, hwarp])
          exact absurd hw (hnone i hi ((hinv.listed _).2 ⟨i, hi, rfl⟩))
      rw [hran, ← hself]
      exact hreach
    · have hran : ({ s.ran with pc := .handlers } : Hooker) = s.ran := by
        rw [← h]
        rfl
      rw [← hran]
      exact hreach
  obtain ⟨k, hk⟩ := hreach
  refine ⟨k, ?_⟩
  rw [run, List.foldl_append, ← run, hs, List.foldl_cons, hk]

/-- The instance at 8 has a task when another is constructed. -/
def twoInstances : List Action := [.new 8, .start 8 1, .post 1 0 7, .new 4, .start 4 1, .post 3 1 9]

theorem newer_runs : ∃ k, run (twoInstances ++ .sweep :: List.replicate k .nginx) = (run twoInstances).ran :=
  pass_runs_current twoInstances rfl

example : ((run twoInstances).ran.warps 1).map Warp.buffers = some [[7], []] ∧
    ((run twoInstances).ran.warps 3).map Warp.buffers = some [[], []] := by
  decide

/-! ## The polls of `stop_impl` -/

/-- `stop_impl` polls a warp that is not the current one and has tasks. -/
structure Stuck (s : Hooker) (i : Instance) (caller : Caller) : Prop where
  mem : i ∈ s.instances
  polls : s.pc = .poll i.address caller
  other : s.current ≠ some i.mainWarp
  waits : ∃ warp, s.warps i.mainWarp = some warp ∧ ∃ buffer ∈ warp.buffers, buffer ≠ []

/-- Whatever happens next, the poll of `stop_impl` goes on. -/
theorem Stuck.step {caller : Caller} (h : Stuck s i caller) (ho : Owned s s.instances)
    (hcaller : caller = .stop ∨ caller = .destroy) (a : Action) : Stuck (s.step a) i caller := by
  have hinstance : s.instance? i.address = some i := (instance?_eq_some ho).2 ⟨h.mem, rfl⟩
  obtain ⟨warp, hwarp, buffer, hbuffer, hne⟩ := h.waits
  cases a with
  | post w b task =>
    cases hact : s.act (.post w b task) with
    | none => rwa [Hooker.step, hact]
    | some s' =>
      rw [Hooker.step, hact, Option.getD_some]
      obtain ⟨warp', hwarp', hact⟩ := Option.bind_eq_some_iff.1 hact
      obtain ⟨posted, hposted, hact⟩ := Option.bind_eq_some_iff.1 hact
      obtain rfl := Option.some.inj hact
      refine ⟨h.mem, h.polls, h.other, ?_⟩
      rcases eq_or_ne i.mainWarp w with rfl | hw
      · refine ⟨_, Function.update_self .., posted ++ [task], ?_, by simp⟩
        exact List.mem_set (List.getElem?_eq_some_iff.1 hposted).1 _
      · exact ⟨warp, (Function.update_of_ne hw ..).trans hwarp, buffer, hbuffer, hne⟩
  | nginx =>
    have hempty : warp.empty = false := by
      simpa [Warp.empty] using ⟨buffer, hbuffer, hne⟩
    have hact : s.act .nginx = some (s.polled i true caller) := by
      rw [act, stepNginx_poll hinstance hwarp h.polls, stepPoll_other ho h.mem h.other, hempty, Bool.not_false]
    have hsame : s.polled i true caller = s := by
      rcases hcaller with rfl | rfl
      · exact congrArg (fun p => { s with pc := p }) h.polls.symm
      · exact congrArg (fun p => { s with pc := p }) h.polls.symm
    rw [Hooker.step, hact, Option.getD_some, hsame]
    exact h
  | _ =>
    have hact : s.pc ≠ .handlers := by simp [h.polls]
    simpa [Hooker.step, act, hact] using h

/-- `stop`, and the destructor of a running instance, come back if and only if
the instance has the current warp or no task. -/
theorem stop_returns_iff (acts : List Action) (a : Nat) (caller : Caller) (hpc : (run acts).pc = .poll a caller)
    (hcaller : caller = .stop ∨ caller = .destroy) :
    (∃ more, (run (acts ++ more)).pc = .handlers) ↔
      ∃ i ∈ (run acts).instances, i.address = a ∧ ((run acts).current = some i.mainWarp ∨
        ∀ warp ∈ (run acts).warps i.mainWarp, warp.empty = true) := by
  have h := inv_run acts
  obtain ⟨i, hi, rfl⟩ : (run acts).Live a := by
    have hat := h.at_pc
    rw [AtPc, hpc] at hat
    exact hat.1
  have hinstance : (run acts).instance? i.address = some i := (instance?_eq_some h.owned).2 ⟨hi, rfl⟩
  constructor
  · rintro ⟨more, hmore⟩
    by_contra hno
    have hstuck : Stuck (run acts) i caller := by
      have hnot : ¬ ((run acts).current = some i.mainWarp ∨
          ∀ warp ∈ (run acts).warps i.mainWarp, warp.empty = true) := fun hor => hno ⟨i, hi, rfl, hor⟩
      obtain ⟨hother, hwaits⟩ := not_or.1 hnot
      push Not at hwaits
      obtain ⟨warp, hwarp, hempty⟩ := hwaits
      exact ⟨hi, hpc, hother, warp, hwarp, by simpa [Warp.empty] using hempty⟩
    have hforever : Stuck (run (acts ++ more)) i caller := by
      clear hmore
      induction more using List.reverseRecOn with
      | nil => rwa [List.append_nil]
      | append_singleton more x ih =>
        rw [← List.append_assoc, run, List.foldl_concat, ← run]
        exact ih.step (inv_run _).owned hcaller x
    rw [hforever.polls] at hmore
    cases hmore
  · rintro ⟨j, hj, haddress, hor⟩
    obtain rfl := h.owned.eq_of_address hj hi haddress
    have hreach : ∃ s', Reaches (run acts) s' ∧ s'.pc = .handlers := by
      by_cases hcurrent : (run acts).current = some j.mainWarp
      · refine ⟨_, poll_drains h.owned hi hcurrent hpc, ?_⟩
        rcases hcaller with rfl | rfl <;> rfl
      · obtain ⟨next, hnext⟩ := h.owned.held j hi
        obtain ⟨warp, hwarp, -⟩ := Option.map_eq_some_iff.1 hnext
        have hempty : warp.empty = true := (hor.resolve_left hcurrent) warp hwarp
        refine ⟨(run acts).polled j false caller, Reaches.head ?_ (Reaches.refl _), ?_⟩
        · rw [stepNginx_poll hinstance hwarp hpc, stepPoll_other h.owned hi hcurrent, hempty, Bool.not_true]
        · rcases hcaller with rfl | rfl <;> rfl
    obtain ⟨s', ⟨k, hk⟩, hhandlers⟩ := hreach
    refine ⟨List.replicate k .nginx, ?_⟩
    rw [run, List.foldl_append, ← run, hk]
    exact hhandlers

theorem older_never_stops : (∃ more, (run (twoInstances ++ [.stop 8] ++ more)).pc = .handlers) ↔
    ∃ i ∈ (run (twoInstances ++ [.stop 8])).instances, i.address = 8 ∧
      ((run (twoInstances ++ [.stop 8])).current = some i.mainWarp ∨
        ∀ warp ∈ (run (twoInstances ++ [.stop 8])).warps i.mainWarp, warp.empty = true) :=
  stop_returns_iff _ 8 .stop rfl (.inl rfl)

end Hooker
end NgxLuaCpp.Instances
