import NgxLuaCpp.Lib.Calls
import Mathlib.Logic.Function.Basic
/-!
# The warp

An `iris_warp_t` runs its tasks one at a time on the threads of a worker. Posts
from any thread queue tasks; `queueing` says whether an `execute_t` is queued in
the worker for them. We follow each atomic operation of the calls that post,
suspend, resume, yield and execute. What a thread alone reads and writes goes
with its next atomic operation, and a retried CAS counts once.

No call here queues parallel tasks or barriers, and none is a `poll`:
`execute_parallel` finds nothing, and all versions stay 0. `get_current()` is
the warp on the thread that `thread_warp` points to, and only there.
-/
open Calls

namespace NgxLuaCpp.Warps

/-! ## The queues -/

/-- The tasks queued: a strand's chain, the latest first, and those taken from
it; or else a queue for each thread. -/
inductive Storage where
  | chain (executing queueing : List Nat)
  | grid (buffers : List (List Nat))
  deriving DecidableEq

/-- What the loop of `execute_internal` finds next. -/
inductive Found where
  | task (task : Nat) (rest : Storage)
  | next (i counter : Nat)
  | nothing

namespace Storage

def empty : Storage → Bool
  | chain executing queueing => executing.isEmpty && queueing.isEmpty
  | grid buffers => buffers.all (·.isEmpty)

/-- `queueing_head` or `buffer.push`. -/
def push (task : Nat) (threadIndex : Option Nat) : Storage → Option Storage
  | chain executing queueing => some (chain executing (task :: queueing))
  | grid buffers => do
    let i ← threadIndex
    let buffer ← buffers[i]?
    some (grid (buffers.set i (buffer ++ [task])))

/-- The loop at buffer `i`, after `counter` tasks in this round. -/
def find (i counter : Nat) : Storage → Found
  | chain (task :: executing) queueing => .task task (chain executing queueing)
  | chain [] queueing =>
    -- a new round, which takes what was queued, in the order it was
    match queueing.reverse with
    | task :: executing => .task task (chain executing [])
    | [] => .nothing
  | grid buffers =>
    match buffers[i]? with
    | some (task :: rest) => .task task (grid (buffers.set i rest))
    | some [] => .next (i + 1) counter
    | none => if counter = 0 then .nothing else .next 0 0

end Storage

/-! ## The model -/

/-- `queue_state_t` -/
inductive QueueState where
  | idle | pending | executing
  deriving DecidableEq

/-- What a `preempt_guard_t` is for. -/
inductive Body where
  | execute
  /-- `queue_routine` of `func` -/
  | routine (func : Nat)
  deriving DecidableEq

/-- What a thread runs of others' code. -/
inductive Running where
  /-- a task of `execute_internal` at buffer `i`, after `counter` in this round -/
  | task (preempted : Bool) (i counter : Nat)
  | func (preempted : Bool)
  /-- `async_worker.queue`, which executes at once what it queues when it is not started -/
  | queue (yields : Bool)
  deriving DecidableEq

/-- Where a call is. `yields` says that the guard of `queue_routine` yields after
the post, `preempted` that the guard of the call took the warp. -/
inductive Pc where
  /-- `queue_routine_post`, which hands the task over or pushes it -/
  | post (task : Nat) (yields : Bool)
  /-- `flush` at its load, its exchange, and `async_worker.queue` -/
  | flushLoad (yields : Bool)
  | flushExchange (yields : Bool)
  | flushQueue (yields : Bool)
  /-- `yield` at the load and the store of `thread_warp`, and at the exchange.
  `execute` flushes where its `yield` returns false. -/
  | yieldLoad (flushes : Bool)
  | yieldStore
  | yieldExchange
  | suspend
  /-- `resume` at `fetch_sub` and at the exchange -/
  | resume
  | resumeExchange
  /-- the guard at the load of `suspend_count`, at `preempt`, and at the second load -/
  | guard (body : Body)
  | preempt (body : Body)
  | recheck (body : Body)
  /-- `execute` at `is_suspended`, and again under its guard -/
  | execute
  | doubleCheck (preempted : Bool)
  /-- the stores of `executing` and of `pending` -/
  | markExecuting (preempted : Bool)
  | markPending (preempted : Bool)
  /-- `execute_internal` at buffer `i`, and after a task -/
  | find (preempted : Bool) (i counter : Nat)
  | check (preempted : Bool) (i counter : Nat)
  | runs (running : Running)
  | ended
  deriving DecidableEq

def Pc.isEnded : Pc → Bool
  | .ended => true
  | _ => false

def Pc.waits : Pc → Bool
  | .runs _ => true
  | _ => false

/-- `iris_warp_t` with its tasks, what it has put into the worker, and the calls under way. -/
structure Warp where
  storage : Storage
  /-- the thread that `thread_warp` points to -/
  threadWarp : Option Nat
  suspendCount : Nat
  queueing : QueueState
  /-- the `execute_t` and the `external_t` in the worker -/
  queuedExecutes : Nat
  externals : List Nat
  /-- `get_current_thread_index`, none for `~0` -/
  threadIndex : Nat → Option Nat
  calls : List (Call Pc)

/-- The calls a thread can make: those of the warp, and those of a worker's task. -/
inductive Entry where
  | queueRoutinePost (task : Nat)
  | queueRoutine (func : Nat)
  | suspend
  | resume
  | yield
  /-- a thread of the worker runs an `execute_t` or an `external_t` -/
  | execute
  | external (func : Nat)

/-- What can happen next: a thread gets its index, it makes a call, or a call takes a step. -/
inductive Action where
  | makeCurrent (thread : Nat) (index : Option Nat)
  | call (thread : Nat) (entry : Entry)
  /-- the next step of a call; a task that ends here may throw -/
  | step (j : Nat) (throws : Bool)

namespace Warp

/-- A strand, or a warp on a worker of so many threads. -/
def new (strand : Bool) (threadCount : Nat) : Warp :=
  { storage := if strand then .chain [] [] else .grid (List.replicate threadCount [])
    threadWarp := none, suspendCount := 0, queueing := .idle, queuedExecutes := 0, externals := []
    threadIndex := fun _ => none, calls := [] }

/-- Call `j`, which is `c`, goes on at `pc`. -/
def goto (w : Warp) (j : Nat) (c : Call Pc) (pc : Pc) : Warp := { w with calls := w.calls.set j ⟨c.thread, pc⟩ }

/-- After a guard that took the warp: it yields. -/
def unguarded (preempted : Bool) : Pc := if preempted then .yieldLoad false else .ended

/-- After `execute_internal`: `if (preempted && !yield()) flush()`. -/
def executed (preempted : Bool) : Pc := if preempted then .yieldLoad true else .ended

/-- What follows a guard that holds or not. -/
def guarded (body : Body) (state preempted : Bool) : Pc :=
  match body with
  | .execute => if state then .doubleCheck preempted else unguarded preempted
  | .routine func => if state then .runs (.func preempted) else .post func preempted

/-- The worker takes an `external_t`. -/
def handOver (w : Warp) (task : Nat) : Warp := { w with externals := w.externals ++ [task] }

/-- `queue_routine_post`: only a thread of the worker has a queue of its own to push to. -/
def post (w : Warp) (thread task : Nat) (yields : Bool) : Option (Warp × Pc) :=
  match w.storage, w.threadIndex thread with
  | .grid _, none => some (w.handOver task, .runs (.queue yields))
  | storage, threadIndex => do
    let storage ← storage.push task threadIndex
    some ({ w with storage := storage }, .flushLoad yields)

/-- The next step of a call. A resume that was not suspended, a push outside the
buffers and a task that cannot end yet are no steps. -/
def stepCall (w : Warp) (j : Nat) (c : Call Pc) (throws : Bool) : Option Warp :=
  match c.pc with
  | .post task yields => do
    let (posted, pc) ← w.post c.thread task yields
    some (posted.goto j c pc)
  | .flushLoad yields => some (w.goto j c (if w.queueing = .pending then unguarded yields else .flushExchange yields))
  | .flushExchange yields =>
    some ({ w with queueing := .pending }.goto j c
      (if w.queueing = QueueState.idle then .flushQueue yields else unguarded yields))
  | .flushQueue yields => some ({ w with queuedExecutes := w.queuedExecutes + 1 }.goto j c (.runs (.queue yields)))
  | .yieldLoad flushes =>
    some (w.goto j c
      (if w.threadWarp = some c.thread then .yieldStore else if flushes then .flushLoad false else .ended))
  | .yieldStore => some ({ w with threadWarp := none }.goto j c .yieldExchange)
  | .yieldExchange | .resumeExchange =>
    some ({ w with queueing := .idle }.goto j c (if w.queueing = QueueState.pending then .flushLoad false else .ended))
  | .suspend => some ({ w with suspendCount := w.suspendCount + 1 }.goto j c .ended)
  | .resume =>
    if w.suspendCount = 0 then none
    else some ({ w with suspendCount := w.suspendCount - 1 }.goto j c
      (if w.suspendCount = 1 then .resumeExchange else .ended))
  | .guard body => some (w.goto j c (if w.suspendCount = 0 then .preempt body else guarded body false false))
  | .preempt body =>
    if w.threadWarp = some c.thread then some (w.goto j c (guarded body true false))
    else if w.threadWarp = none then some ({ w with threadWarp := some c.thread }.goto j c (.recheck body))
    else some (w.goto j c (guarded body false false))
  | .recheck body => some (w.goto j c (guarded body (w.suspendCount = 0) true))
  | .execute => some (w.goto j c (if w.suspendCount = 0 then .guard .execute else .ended))
  | .doubleCheck preempted =>
    some (w.goto j c (if w.suspendCount = 0 then .markExecuting preempted else .markPending preempted))
  | .markExecuting preempted => some ({ w with queueing := .executing }.goto j c (.find preempted 0 0))
  | .markPending preempted => some ({ w with queueing := .pending }.goto j c (unguarded preempted))
  | .find preempted i counter =>
    match w.storage.find i counter with
    | .task _ rest => some ({ w with storage := rest }.goto j c (.runs (.task preempted i counter)))
    | .next i counter => some (w.goto j c (.find preempted i counter))
    | .nothing => some (w.goto j c (executed preempted))
  | .check preempted i counter =>
    if w.suspendCount ≠ 0 ∨ w.threadWarp ≠ some c.thread then some (w.goto j c (executed preempted))
    else some (w.goto j c (.find preempted i (counter + 1)))
  | .runs running =>
    if innermost Pc.isEnded w.calls c.thread j then
      match running with
      | .task preempted i counter =>
        -- an exception leaves `execute` by its guard
        some (w.goto j c (if throws then unguarded preempted else .check preempted i counter))
      | .func preempted | .queue preempted => some (w.goto j c (unguarded preempted))
    else none
  | .ended => none

def makeCall (w : Warp) (thread : Nat) (pc : Pc) : Warp := { w with calls := w.calls ++ [⟨thread, pc⟩] }

/-- The call a thread makes, before its first step. -/
def startCall (w : Warp) (thread : Nat) : Entry → Option Warp
  | .queueRoutinePost task => some (w.makeCall thread (.post task false))
  | .queueRoutine func => some (w.makeCall thread (.guard (.routine func)))
  | .suspend => some (w.makeCall thread .suspend)
  | .resume => some (w.makeCall thread .resume)
  | .yield => some (w.makeCall thread (.yieldLoad false))
  | .execute =>
    if w.queuedExecutes = 0 then none
    else some ({ w with queuedExecutes := w.queuedExecutes - 1 }.makeCall thread .execute)
  | .external func =>
    if w.externals.contains func then
      some ({ w with externals := w.externals.erase func }.makeCall thread (.guard (.routine func)))
    else none

/-- An action, if it can be taken. -/
def act (w : Warp) : Action → Option Warp
  | .makeCurrent thread index => some { w with threadIndex := Function.update w.threadIndex thread index }
  | .call thread entry => if free Pc.isEnded Pc.waits w.calls thread then w.startCall thread entry else none
  | .step j throws => do w.stepCall j (← w.calls[j]?) throws

/-- An action, or nothing if it cannot be taken. -/
def step (w : Warp) (a : Action) : Warp := (w.act a).getD w

/-- The warp after these actions. -/
def run (strand : Bool) (threadCount : Nat) (acts : List Action) : Warp := acts.foldl step (new strand threadCount)

end Warp
end NgxLuaCpp.Warps
