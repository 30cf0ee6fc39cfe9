import NgxLuaCpp.Lib.Monitor
import NgxLuaCpp.Lib.Trace
import Mathlib.Algebra.Order.Group.Multiset
/-!
# The pipe

An `iris_pipe_t` hands the elements that some calls emplace to the coroutines
that others let wait, under `std::mutex`. Each atomic operation is a step, and
so is what one lock covers of a queue of its own; a retried CAS counts once, at
its end. A coroutine that is dispatched takes its element when it is resumed.
-/
open Monitor Trace

namespace NgxLuaCpp.IrisPipe

/-- Where a call of `await_suspend` or `emplace` is. -/
inductive Pc (κ α : Type*) where
  /-- `await_suspend` at `flush_prepared`, at the lock, at `flush_prepared` again, at `push` and `fetch_add` -/
  | flushPrepared (handle : κ)
  | lockAwait (handle : κ)
  | retryPrepared (handle : κ)
  | push (handle : κ)
  | countWaiting
  /-- `emplace` at `elements.push`, at `flush_waiting` and, where that found one, at the lock and `pop` -/
  | emplace (element : α)
  | flushWaiting
  | lockPop
  | pop
  /-- `emplace` at the lock, at `flush_waiting` again, and at `fetch_add` -/
  | lockEmplace
  | retryWaiting
  | countPrepared
  /-- the end of the lock, and then perhaps `dispatch` -/
  | unlock (next : Option κ)
  | dispatch (handle : κ)
  | ended

/-- `iris_pipe_t` with the calls under way, and what each coroutine has received. -/
structure Pipe (κ α : Type*) where
  elements : List α
  handles : List κ
  preparedCount : Nat
  waitingCount : Nat
  /-- the call that has `handle_lock` -/
  handleLock : Option Nat
  /-- coroutines queued to be resumed, and those that were, with what they got -/
  dispatched : List κ
  received : List (κ × α)
  /-- an empty queue was asked for its top -/
  torn : Bool
  calls : List (Pc κ α)

/-- What can happen next: a coroutine awaits, an element is emplaced, a call takes a step, or a
worker resumes a coroutine. -/
inductive Action (κ α : Type*) where
  | awaitSuspend (handle : κ)
  | emplace (element : α)
  /-- the next step of a call -/
  | step (i : Nat)
  /-- a worker resumes a coroutine, which goes on with `await_resume` -/
  | resume (handle : κ)

namespace Pipe
variable {κ α : Type*}

/-- A pipe as constructed, with nothing in it. -/
def new : Pipe κ α :=
  { elements := [], handles := [], preparedCount := 0, waitingCount := 0, handleLock := none, dispatched := [],
    received := [], torn := false, calls := [] }

/-- Call `i` goes on at `pc`. -/
def goto (s : Pipe κ α) (i : Nat) (pc : Pc κ α) : Pipe κ α := { s with calls := s.calls.set i pc }

/-- Call `i` takes `handle_lock`, if nobody has it. -/
def lock (s : Pipe κ α) (i : Nat) (pc : Pc κ α) : Option (Pipe κ α) :=
  if s.handleLock = none then some ({ s with handleLock := some i }.goto i pc) else none

def afterUnlock : Option κ → Pc κ α
  | some handle => .dispatch handle
  | none => .ended

/-- The next step of a call, if it need not wait for the lock. -/
def stepCall (s : Pipe κ α) (i : Nat) : Pc κ α → Option (Pipe κ α)
  | .flushPrepared handle =>
    if s.preparedCount = 0 then some (s.goto i (.lockAwait handle))
    else some ({ s with preparedCount := s.preparedCount - 1 }.goto i (.dispatch handle))
  | .lockAwait handle => s.lock i (.retryPrepared handle)
  | .retryPrepared handle =>
    if s.preparedCount = 0 then some (s.goto i (.push handle))
    else some ({ s with preparedCount := s.preparedCount - 1 }.goto i (.unlock (some handle)))
  | .push handle => some ({ s with handles := s.handles ++ [handle] }.goto i .countWaiting)
  | .countWaiting => some ({ s with waitingCount := s.waitingCount + 1 }.goto i (.unlock none))
  | .emplace element => some ({ s with elements := s.elements ++ [element] }.goto i .flushWaiting)
  | .flushWaiting =>
    if s.waitingCount = 0 then some (s.goto i .lockEmplace)
    else some ({ s with waitingCount := s.waitingCount - 1 }.goto i .lockPop)
  | .lockPop => s.lock i .pop
  | .pop =>
    match s.handles with
    | handle :: handles => some ({ s with handles := handles }.goto i (.unlock (some handle)))
    | [] => some ({ s with torn := true }.goto i (.unlock none))
  | .lockEmplace => s.lock i .retryWaiting
  | .retryWaiting =>
    if s.waitingCount = 0 then some (s.goto i .countPrepared)
    else some ({ s with waitingCount := s.waitingCount - 1 }.goto i .pop)
  | .countPrepared => some ({ s with preparedCount := s.preparedCount + 1 }.goto i (.unlock none))
  | .unlock next => some ({ s with handleLock := none }.goto i (afterUnlock next))
  | .dispatch handle => some ({ s with dispatched := s.dispatched ++ [handle] }.goto i .ended)
  | .ended => none

def makeCall (s : Pipe κ α) (pc : Pc κ α) : Pipe κ α := { s with calls := s.calls ++ [pc] }

variable [DecidableEq κ]

/-- An action, if it can be taken. -/
def act (s : Pipe κ α) : Action κ α → Option (Pipe κ α)
  | .awaitSuspend handle => some (s.makeCall (.flushPrepared handle))
  | .emplace element => some (s.makeCall (.emplace element))
  | .step i => do s.stepCall i (← s.calls[i]?)
  | .resume handle =>
    if handle ∈ s.dispatched then
      match s.elements with
      | element :: elements =>
        some { s with
          elements := elements, dispatched := s.dispatched.erase handle, received := s.received ++ [(handle, element)] }
      | [] => some { s with torn := true, dispatched := s.dispatched.erase handle }
    else none

/-- An action, or nothing if it cannot be taken. -/
def step (s : Pipe κ α) (a : Action κ α) : Pipe κ α := (s.act a).getD s

/-- The pipe after these actions. -/
def run (acts : List (Action κ α)) : Pipe κ α := acts.foldl step new

end Pipe
/-! ## The invariant -/

namespace Pc
variable {κ α : Type*}

/-- The call has `handle_lock`. -/
def holds : Pc κ α → Bool
  | .retryPrepared _ | .push _ | .countWaiting | .pop | .retryWaiting | .countPrepared | .unlock _ => true
  | _ => false

/-- The coroutine that the call has with it. -/
def handle : Pc κ α → Multiset κ
  | .flushPrepared handle | .lockAwait handle | .retryPrepared handle | .push handle | .dispatch handle
  | .unlock (some handle) => {handle}
  | _ => 0

/-- A handle that is in the queue, and that `waiting_count` no longer or not yet counts. -/
def uncounted : Pc κ α → Nat
  | .lockPop | .pop | .countWaiting => 1
  | _ => 0

/-- An element that `prepared_count` does not count, for a coroutine not dispatched yet. -/
def owed : Pc κ α → Nat
  | .flushWaiting | .lockPop | .pop | .lockEmplace | .retryWaiting | .countPrepared | .dispatch _
  | .unlock (some _) => 1
  | _ => 0

/-- Under the lock, the call has found `prepared_count` zero, or `waiting_count`. -/
def sawNoneReady : Pc κ α → Bool
  | .push _ | .countWaiting => true
  | _ => false

/-- Under the lock, the call has found `waiting_count` zero. -/
def sawNoneWaiting : Pc κ α → Bool
  | .countPrepared => true
  | _ => false

end Pc

namespace Pipe
variable {κ α : Type*} {s s' : Pipe κ α} {i : Nat} {pc pc' : Pc κ α}

/-- The counters say how long the lists are, up to the calls under way, and one of the two is
zero. -/
structure Inv (s : Pipe κ α) : Prop where
  locked : Locked Pc.holds s.handleLock s.calls
  handles : s.handles.length = s.waitingCount + weight Pc.uncounted s.calls
  elements : s.elements.length = s.preparedCount + s.dispatched.length + weight Pc.owed s.calls
  ready : ∀ pc ∈ s.calls, Pc.sawNoneReady pc = true → s.preparedCount = 0
  waiting : ∀ pc ∈ s.calls, Pc.sawNoneWaiting pc = true → s.waitingCount = 0
  apart : s.preparedCount = 0 ∨ s.waitingCount = 0
  whole : s.torn = false

/-- What a step of call `i` from `pc` does, where it goes on at `pc'`. -/
structure Moves (s : Pipe κ α) (i : Nat) (pc pc' : Pc κ α) (s' : Pipe κ α) : Prop where
  calls : s'.calls = s.calls.set i pc'
  lock : LockStep Pc.holds i pc pc' s.handleLock s'.handleLock
  handles : s'.handles.length + s.waitingCount + pc.uncounted = s.handles.length + s'.waitingCount + pc'.uncounted
  elements : s'.elements.length + s.preparedCount + s.dispatched.length + pc.owed =
    s.elements.length + s'.preparedCount + s'.dispatched.length + pc'.owed
  prepared : s'.preparedCount ≤ s.preparedCount ∨ pc.sawNoneWaiting = true
  waits : s'.waitingCount ≤ s.waitingCount ∨ pc.sawNoneReady = true
  ready : pc'.sawNoneReady = true → s'.preparedCount = 0
  waiting : pc'.sawNoneWaiting = true → s'.waitingCount = 0
  whole : s'.torn = s.torn

theorem holds_of_sawNoneReady (h : pc.sawNoneReady = true) : pc.holds = true := by
  cases pc with
  | push | countWaiting => rfl
  | _ => cases h

theorem holds_of_sawNoneWaiting (h : pc.sawNoneWaiting = true) : pc.holds = true := by
  cases pc with
  | countPrepared => rfl
  | _ => cases h

/-- A step that moves so keeps the invariant. -/
theorem Moves.inv (m : Moves s i pc pc' s') (h : Inv s) (hi : s.calls[i]? = some pc) : Inv s' := by
  have hmem := List.mem_of_getElem? hi
  -- no other call has the lock that this one has
  have hother : ∀ d ∈ s'.calls, pc.holds = true → d.holds = true → d = pc' := by
    intro d hd hpc hholds
    rw [m.calls] at hd
    exact h.locked.alone hi hpc hd hholds
  have hkept : ∀ d ∈ s'.calls, d = pc' ∨ d ∈ s.calls := by
    intro d hd
    rw [m.calls] at hd
    exact (List.mem_or_eq_of_mem_set hd).symm
  refine ⟨?_, ?_, ?_, ?_, ?_, ?_, m.whole.trans h.whole⟩
  · rw [m.calls]
    exact h.locked.step hi m.lock
  · have hweight := weight_moved (f := Pc.uncounted) (q := pc') hi
    have hhandles := m.handles
    have hbefore := h.handles
    rw [m.calls]
    omega
  · have hweight := weight_moved (f := Pc.owed) (q := pc') hi
    have helements := m.elements
    have hbefore := h.elements
    rw [m.calls]
    omega
  · intro d hd hsaw
    rcases hkept d hd with rfl | hd'
    · exact m.ready hsaw
    · rcases m.prepared with hle | hpc
      · exact Nat.le_zero.1 (h.ready d hd' hsaw ▸ hle)
      · obtain rfl := hother d hd (holds_of_sawNoneWaiting hpc) (holds_of_sawNoneReady hsaw)
        exact m.ready hsaw
  · intro d hd hsaw
    rcases hkept d hd with rfl | hd'
    · exact m.waiting hsaw
    · rcases m.waits with hle | hpc
      · exact Nat.le_zero.1 (h.waiting d hd' hsaw ▸ hle)
      · obtain rfl := hother d hd (holds_of_sawNoneReady hpc) (holds_of_sawNoneWaiting hsaw)
        exact m.waiting hsaw
  · rcases m.prepared with hp | hp
    · rcases m.waits with hw | hw
      · have hbefore := h.apart
        omega
      · have hzero := h.ready pc hmem hw
        omega
    · have hzero := h.waiting pc hmem hp
      rcases m.waits with hw | hw
      · omega
      · cases pc with
        | countPrepared => cases hw
        | _ => cases hp

/-- A call that takes the lock. -/
theorem Moves.of_lock (hlock : s.lock i pc' = some s') (hpc' : pc'.holds = true)
    (hcounts : pc'.uncounted = pc.uncounted ∧ pc'.owed = pc.owed)
    (hsaw : pc'.sawNoneReady = false ∧ pc'.sawNoneWaiting = false) : Moves s i pc pc' s' := by
  unfold Pipe.lock at hlock
  split at hlock
  · next hfree =>
    obtain rfl := Option.some.inj hlock
    refine ⟨rfl, .inr (.inl ⟨hfree, hpc', rfl⟩), ?_, ?_, .inl le_rfl, .inl le_rfl, ?_, ?_, rfl⟩
    · rw [hcounts.1]
      rfl
    · rw [hcounts.2]
      rfl
    · simp [hsaw.1]
    · simp [hsaw.2]
  · cases hlock

/-- Every step of a call moves so. -/
theorem Inv.moves (h : Inv s) (hi : s.calls[i]? = some pc) (hstep : s.stepCall i pc = some s') :
    ∃ pc', Moves s i pc pc' s' := by
  cases pc with
  | flushPrepared handle =>
    simp only [stepCall] at hstep
    split at hstep
    · obtain rfl := Option.some.inj hstep
      exact ⟨_, rfl, .inl ⟨rfl, rfl⟩, rfl, rfl, .inl le_rfl, .inl le_rfl, nofun, nofun, rfl⟩
    · next hne =>
      obtain rfl := Option.some.inj hstep
      refine ⟨_, rfl, .inl ⟨rfl, rfl⟩, rfl, ?_, .inl (Nat.sub_le _ _), .inl le_rfl, nofun, nofun, rfl⟩
      simp only [goto, Pc.owed]
      omega
  | lockAwait handle => exact ⟨_, .of_lock hstep rfl ⟨rfl, rfl⟩ ⟨rfl, rfl⟩⟩
  | retryPrepared handle =>
    simp only [stepCall] at hstep
    split at hstep
    · next hzero =>
      obtain rfl := Option.some.inj hstep
      exact ⟨_, rfl, .inl ⟨rfl, rfl⟩, rfl, rfl, .inl le_rfl, .inl le_rfl, fun _ => hzero, nofun, rfl⟩
    · next hne =>
      obtain rfl := Option.some.inj hstep
      refine ⟨_, rfl, .inl ⟨rfl, rfl⟩, rfl, ?_, .inl (Nat.sub_le _ _), .inl le_rfl, nofun, nofun, rfl⟩
      simp only [goto, Pc.owed]
      omega
  | push handle =>
    obtain rfl := Option.some.inj hstep
    have hzero := h.ready _ (List.mem_of_getElem? hi) rfl
    refine ⟨_, rfl, .inl ⟨rfl, rfl⟩, ?_, rfl, .inl le_rfl, .inl le_rfl, fun _ => hzero, nofun, rfl⟩
    simp only [goto, Pc.uncounted, List.length_append, List.length_singleton]
    omega
  | countWaiting =>
    obtain rfl := Option.some.inj hstep
    refine ⟨_, rfl, .inl ⟨rfl, rfl⟩, ?_, rfl, .inl le_rfl, .inr rfl, nofun, nofun, rfl⟩
    simp only [goto, Pc.uncounted]
    omega
  | emplace element =>
    obtain rfl := Option.some.inj hstep
    refine ⟨_, rfl, .inl ⟨rfl, rfl⟩, rfl, ?_, .inl le_rfl, .inl le_rfl, nofun, nofun, rfl⟩
    simp only [goto, Pc.owed, List.length_append, List.length_singleton]
    omega
  | flushWaiting =>
    simp only [stepCall] at hstep
    split at hstep
    · obtain rfl := Option.some.inj hstep
      exact ⟨_, rfl, .inl ⟨rfl, rfl⟩, rfl, rfl, .inl le_rfl, .inl le_rfl, nofun, nofun, rfl⟩
    · next hne =>
      obtain rfl := Option.some.inj hstep
      refine ⟨_, rfl, .inl ⟨rfl, rfl⟩, ?_, rfl, .inl le_rfl, .inl (Nat.sub_le _ _), nofun, nofun, rfl⟩
      simp only [goto, Pc.uncounted]
      omega
  | lockPop => exact ⟨_, .of_lock hstep rfl ⟨rfl, rfl⟩ ⟨rfl, rfl⟩⟩
  | pop =>
    have hle := le_weight (f := Pc.uncounted) hi
    have hhandles := h.handles
    simp only [stepCall] at hstep
    split at hstep
    · next handle handles heq =>
      obtain rfl := Option.some.inj hstep
      refine ⟨_, rfl, .inl ⟨rfl, rfl⟩, ?_, rfl, .inl le_rfl, .inl le_rfl, nofun, nofun, rfl⟩
      simp only [goto, Pc.uncounted, heq, List.length_cons]
      omega
    · next heq =>
      -- the handle that this call is to take is there
      simp only [heq, List.length_nil, Pc.uncounted] at hle hhandles
      omega
  | lockEmplace => exact ⟨_, .of_lock hstep rfl ⟨rfl, rfl⟩ ⟨rfl, rfl⟩⟩
  | retryWaiting =>
    simp only [stepCall] at hstep
    split at hstep
    · next hzero =>
      obtain rfl := Option.some.inj hstep
      exact ⟨_, rfl, .inl ⟨rfl, rfl⟩, rfl, rfl, .inl le_rfl, .inl le_rfl, nofun, fun _ => hzero, rfl⟩
    · next hne =>
      obtain rfl := Option.some.inj hstep
      refine ⟨_, rfl, .inl ⟨rfl, rfl⟩, ?_, rfl, .inl le_rfl, .inl (Nat.sub_le _ _), nofun, nofun, rfl⟩
      simp only [goto, Pc.uncounted]
      omega
  | countPrepared =>
    obtain rfl := Option.some.inj hstep
    refine ⟨_, rfl, .inl ⟨rfl, rfl⟩, rfl, ?_, .inr rfl, .inl le_rfl, nofun, nofun, rfl⟩
    simp only [goto, Pc.owed]
    omega
  | unlock next =>
    obtain rfl := Option.some.inj hstep
    cases next with
    | none => exact ⟨_, rfl, .inr (.inr ⟨rfl, rfl, rfl⟩), rfl, rfl, .inl le_rfl, .inl le_rfl, nofun, nofun, rfl⟩
    | some handle =>
      exact ⟨_, rfl, .inr (.inr ⟨rfl, rfl, rfl⟩), rfl, rfl, .inl le_rfl, .inl le_rfl, nofun, nofun, rfl⟩
  | dispatch handle =>
    obtain rfl := Option.some.inj hstep
    refine ⟨_, rfl, .inl ⟨rfl, rfl⟩, rfl, ?_, .inl le_rfl, .inl le_rfl, nofun, nofun, rfl⟩
    simp only [goto, Pc.owed, List.length_append, List.length_singleton]
    omega
  | ended => cases hstep

/-- A call that begins with nothing keeps the invariant. -/
theorem Inv.made (h : Inv s) (hcalls : s'.calls = s.calls ++ [pc]) (hsame : s' = { s with calls := s'.calls })
    (hpc : pc.holds = false) (hcounts : pc.uncounted = 0 ∧ pc.owed = 0) : Inv s' := by
  have hkept : ∀ d ∈ s'.calls, d.holds = true → d ∈ s.calls := by
    intro d hd hholds
    rw [hcalls] at hd
    rcases List.mem_append.1 hd with hd | hd
    · exact hd
    · obtain rfl := List.mem_singleton.1 hd
      rw [hpc] at hholds
      cases hholds
  rw [hsame] at hkept ⊢
  refine ⟨?_, ?_, ?_, ?_, ?_, h.apart, h.whole⟩
  · rw [hcalls]
    exact h.locked.made hpc
  · rw [hcalls, weight_made, hcounts.1]
    exact h.handles
  · rw [hcalls, weight_made, hcounts.2]
    exact h.elements
  · exact fun d hd hsaw => h.ready d (hkept d hd (holds_of_sawNoneReady hsaw)) hsaw
  · exact fun d hd hsaw => h.waiting d (hkept d hd (holds_of_sawNoneWaiting hsaw)) hsaw

theorem inv_new : Inv (new : Pipe κ α) :=
  ⟨locked_nil, rfl, rfl, by simp [new], by simp [new], .inl rfl, rfl⟩

/-! ## What becomes of coroutines and elements -/

/-- The coroutine that the action lets wait, and the element that it puts in the queue. -/
def waits (_ : Pipe κ α) : Action κ α → List κ
  | .awaitSuspend handle => [handle]
  | _ => []

def pushes (s : Pipe κ α) : Action κ α → List α
  | .step i =>
    match s.calls[i]? with
    | some (.emplace element) => [element]
    | _ => []
  | _ => []

/-- All coroutines that have not come back, wherever they are. -/
def suspended (s : Pipe κ α) : Multiset κ := weight Pc.handle s.calls + s.handles + s.dispatched

/-- Where a call and the queues exchange coroutines, none is lost. -/
theorem suspended_goto (u : Pipe κ α) (hi : s.calls[i]? = some pc) (hcalls : u.calls = s.calls)
    (hsame : pc'.handle + u.handles + u.dispatched = pc.handle + s.handles + s.dispatched) :
    (u.goto i pc').suspended = s.suspended := by
  have hmoved := weight_moved (f := Pc.handle) (q := pc') hi
  apply add_right_cancel (b := pc.handle)
  calc (u.goto i pc').suspended + pc.handle
      = weight Pc.handle (s.calls.set i pc') + pc.handle + u.handles + u.dispatched := by
        rw [suspended, goto, hcalls]
        abel
    _ = weight Pc.handle s.calls + (pc'.handle + u.handles + u.dispatched) := by
        rw [hmoved]
        abel
    _ = s.suspended + pc.handle := by
        rw [hsame, suspended]
        abel

/-- What a step of a call leaves as it was, and what it may put behind the elements. -/
structure Keeps (s : Pipe κ α) (i : Nat) (s' : Pipe κ α) : Prop where
  suspended : s'.suspended = s.suspended
  received : s'.received = s.received
  elements : s'.elements = s.elements ++ s.pushes (.step i)

theorem Keeps.of_goto (u : Pipe κ α) (hi : s.calls[i]? = some pc) (hpc : ∀ element, pc ≠ .emplace element)
    (hu : u.calls = s.calls ∧ u.received = s.received ∧ u.elements = s.elements)
    (hsame : pc'.handle + u.handles + u.dispatched = pc.handle + s.handles + s.dispatched) :
    Keeps s i (u.goto i pc') := by
  refine ⟨suspended_goto u hi hu.1 hsame, hu.2.1, ?_⟩
  have hpushes : s.pushes (.step i) = [] := by
    cases pc with
    | emplace element => exact absurd rfl (hpc element)
    | _ => simp [pushes, hi]
  rw [hpushes, List.append_nil]
  exact hu.2.2

theorem Keeps.of_lock (hi : s.calls[i]? = some pc) (hpc : ∀ element, pc ≠ .emplace element)
    (hlock : s.lock i pc' = some s') (hsame : pc'.handle = pc.handle) : Keeps s i s' := by
  unfold Pipe.lock at hlock
  split at hlock
  · obtain rfl := Option.some.inj hlock
    refine .of_goto { s with handleLock := some i } hi hpc ⟨rfl, rfl, rfl⟩ ?_
    rw [hsame]
  · cases hlock

/-- A step of a call hands its coroutine on, and at most puts an element behind. -/
theorem stepCall_keeps (hi : s.calls[i]? = some pc) (hstep : s.stepCall i pc = some s') : Keeps s i s' := by
  cases pc with
  | flushPrepared handle | retryPrepared handle =>
    simp only [stepCall] at hstep
    split at hstep
    · obtain rfl := Option.some.inj hstep
      exact .of_goto s hi nofun ⟨rfl, rfl, rfl⟩ rfl
    · obtain rfl := Option.some.inj hstep
      exact .of_goto { s with preparedCount := s.preparedCount - 1 } hi nofun ⟨rfl, rfl, rfl⟩ rfl
  | flushWaiting | retryWaiting =>
    simp only [stepCall] at hstep
    split at hstep
    · obtain rfl := Option.some.inj hstep
      exact .of_goto s hi nofun ⟨rfl, rfl, rfl⟩ rfl
    · obtain rfl := Option.some.inj hstep
      exact .of_goto { s with waitingCount := s.waitingCount - 1 } hi nofun ⟨rfl, rfl, rfl⟩ rfl
  | lockAwait | lockPop | lockEmplace => exact .of_lock hi nofun hstep rfl
  | push handle =>
    obtain rfl := Option.some.inj hstep
    refine .of_goto { s with handles := s.handles ++ [handle] } hi nofun ⟨rfl, rfl, rfl⟩ ?_
    simp only [Pc.handle, ← Multiset.coe_add, Multiset.coe_singleton]
    abel
  | pop =>
    simp only [stepCall] at hstep
    split at hstep
    · next handle handles heq =>
      obtain rfl := Option.some.inj hstep
      refine .of_goto { s with handles := handles } hi nofun ⟨rfl, rfl, rfl⟩ ?_
      simp only [Pc.handle, heq, ← Multiset.cons_coe, ← Multiset.singleton_add, zero_add]
    · obtain rfl := Option.some.inj hstep
      exact .of_goto { s with torn := true } hi nofun ⟨rfl, rfl, rfl⟩ rfl
  | countWaiting =>
    obtain rfl := Option.some.inj hstep
    exact .of_goto { s with waitingCount := s.waitingCount + 1 } hi nofun ⟨rfl, rfl, rfl⟩ rfl
  | countPrepared =>
    obtain rfl := Option.some.inj hstep
    exact .of_goto { s with preparedCount := s.preparedCount + 1 } hi nofun ⟨rfl, rfl, rfl⟩ rfl
  | emplace element =>
    obtain rfl := Option.some.inj hstep
    refine ⟨suspended_goto { s with elements := s.elements ++ [element] } hi rfl rfl, rfl, ?_⟩
    simp [goto, pushes, hi]
  | unlock next =>
    obtain rfl := Option.some.inj hstep
    refine .of_goto { s with handleLock := none } hi nofun ⟨rfl, rfl, rfl⟩ ?_
    cases next with
    | _ => rfl
  | dispatch handle =>
    obtain rfl := Option.some.inj hstep
    refine .of_goto { s with dispatched := s.dispatched ++ [handle] } hi nofun ⟨rfl, rfl, rfl⟩ ?_
    simp only [Pc.handle, ← Multiset.coe_add, Multiset.coe_singleton]
    abel
  | ended => cases hstep

/-! ## Runs -/

section Runs
variable [DecidableEq κ] {acts : List (Action κ α)} {a : Action κ α}

/-- A coroutine that is resumed finds an element. -/
theorem Inv.resumes {handle : κ} (h : Inv s) (hact : s.act (.resume handle) = some s') :
    ∃ element elements, handle ∈ s.dispatched ∧ s.elements = element :: elements ∧ s' = { s with
      elements := elements, dispatched := s.dispatched.erase handle, received := s.received ++ [(handle, element)] } := by
  simp only [act] at hact
  split at hact
  · next hmem =>
    split at hact
    · next element elements heq =>
      obtain rfl := Option.some.inj hact
      exact ⟨element, elements, hmem, heq, rfl⟩
    · next heq =>
      -- every coroutine dispatched has its element
      have hlength := h.elements
      have hpos := List.length_pos_of_mem hmem
      rw [heq, List.length_nil] at hlength
      omega
  · cases hact

/-- Every action keeps the invariant. -/
theorem Inv.act (h : Inv s) (hact : s.act a = some s') : Inv s' := by
  cases a with
  | awaitSuspend handle =>
    obtain rfl := Option.some.inj hact
    exact h.made rfl rfl rfl ⟨rfl, rfl⟩
  | emplace element =>
    obtain rfl := Option.some.inj hact
    exact h.made rfl rfl rfl ⟨rfl, rfl⟩
  | step i =>
    obtain ⟨pc, hi, hstep⟩ := Option.bind_eq_some_iff.1 hact
    obtain ⟨pc', m⟩ := h.moves hi hstep
    exact m.inv h hi
  | resume handle =>
    obtain ⟨element, elements, hmem, heq, rfl⟩ := h.resumes hact
    refine ⟨h.locked, h.handles, ?_, h.ready, h.waiting, h.apart, h.whole⟩
    have hlength := h.elements
    have hpos := List.length_pos_of_mem hmem
    have herase := List.length_erase_of_mem hmem
    rw [heq, List.length_cons] at hlength
    change elements.length = s.preparedCount + (s.dispatched.erase handle).length + weight Pc.owed s.calls
    omega

theorem Inv.step (h : Inv s) (a : Action κ α) : Inv (s.step a) := by
  unfold Pipe.step
  cases hact : s.act a with
  | none => exact h
  | some s' => exact h.act hact

theorem inv_run (acts : List (Action κ α)) : Inv (run acts) := by
  refine invariant (fun _ s => Inv s) inv_new (fun _ s a h => ?_) acts
  exact h.step a

/-- An action adds to what is pushed and who waits, and hands the first element to one who comes back. -/
theorem step_accounts (h : Inv s) (a : Action κ α) :
    (s.step a).received.map Prod.snd ++ (s.step a).elements =
      s.received.map Prod.snd ++ s.elements ++ s.pushes a ∧
    ((s.step a).received.map Prod.fst : Multiset κ) + (s.step a).suspended =
      (s.received.map Prod.fst : Multiset κ) + s.suspended + s.waits a := by
  unfold Pipe.step
  cases hact : s.act a with
  | none =>
    cases a with
    | step i =>
      cases hi : s.calls[i]? with
      | none => simp [pushes, waits, hi]
      | some pc =>
        cases pc with
        | emplace element => simp [Pipe.act, hi, stepCall] at hact
        | _ => simp [pushes, waits, hi]
    | resume handle => simp [pushes, waits]
    | _ => cases hact
  | some s' =>
    rw [Option.getD_some]
    cases a with
    | awaitSuspend handle =>
      obtain rfl := Option.some.inj hact
      refine ⟨by simp [pushes, makeCall], ?_⟩
      simp only [makeCall, suspended, weight_made, Pc.handle, waits, Multiset.coe_singleton]
      abel
    | emplace element =>
      obtain rfl := Option.some.inj hact
      refine ⟨by simp [pushes, makeCall], ?_⟩
      simp [makeCall, suspended, weight_made, Pc.handle, waits]
    | step i =>
      obtain ⟨pc, hi, hstep⟩ := Option.bind_eq_some_iff.1 hact
      have k := stepCall_keeps hi hstep
      refine ⟨?_, ?_⟩
      · rw [k.received, k.elements, List.append_assoc]
      · rw [k.received, k.suspended]
        simp [waits]
    | resume handle =>
      obtain ⟨element, elements, hmem, heq, rfl⟩ := h.resumes hact
      refine ⟨by simp [pushes, heq], ?_⟩
      have herase : ({handle} + (s.dispatched.erase handle : List κ) : Multiset κ) = s.dispatched := by
        rw [Multiset.singleton_add, Multiset.cons_coe, Multiset.coe_eq_coe]
        exact (List.perm_cons_erase hmem).symm
      simp only [suspended, waits, List.map_append, List.map_cons, List.map_nil, ← Multiset.coe_add,
        Multiset.coe_singleton, Multiset.coe_nil, ← herase]
      abel

/-- What a pipe is for. -/
structure Meets (acts : List (Action κ α)) : Prop where
  /-- `top` is never asked of an empty queue. -/
  whole : (run acts).torn = false
  /-- The elements are received in the order they were put in, each once. -/
  ordered : (run acts).received.map Prod.snd ++ (run acts).elements = outputs step pushes new acts
  /-- Every coroutine that waited comes back once, or has yet to. -/
  once : ((run acts).received.map Prod.fst : Multiset κ) + (run acts).suspended = outputs step waits new acts
  /-- No coroutine is left waiting while an element is left. -/
  met : (∀ pc ∈ (run acts).calls, pc = .ended) → (run acts).dispatched = [] →
    (run acts).handles = [] ∨ (run acts).elements = []

theorem pipe_meets (acts : List (Action κ α)) : Meets acts := by
  have h := inv_run acts
  refine ⟨h.whole, ?_, ?_, ?_⟩
  · induction acts using List.reverseRecOn with
    | nil => rfl
    | append_singleton acts a ih =>
      rw [outputs_concat, ← ih (inv_run acts), run, List.foldl_concat]
      exact (step_accounts (inv_run acts) a).1
  · induction acts using List.reverseRecOn with
    | nil => simp [run, new, suspended, weight, outputs]
    | append_singleton acts a ih =>
      rw [outputs_concat, ← Multiset.coe_add, ← ih (inv_run acts), run, List.foldl_concat]
      exact (step_accounts (inv_run acts) a).2
  · intro hended hdispatched
    have hhandles := h.handles
    have helements := h.elements
    rw [weight_eq_zero (fun pc hpc => by rw [hended pc hpc]; rfl)] at hhandles helements
    rw [hdispatched, List.length_nil] at helements
    rcases h.apart with hp | hw
    · exact .inr (List.length_eq_zero_iff.1 (by omega))
    · exact .inl (List.length_eq_zero_iff.1 (by omega))

end Runs
end Pipe
end NgxLuaCpp.IrisPipe
