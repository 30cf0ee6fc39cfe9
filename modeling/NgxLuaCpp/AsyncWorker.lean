import NgxLuaCpp.Lib.Calls
import NgxLuaCpp.Lib.Holders
/-!
# The async worker

`iris_async_worker_t` keeps its tasks in chains, one for each slot of
`task_heads`, linked through the tasks themselves. We follow each atomic
operation of the calls that queue, poll and join, on any number of threads and
in any order. The wake-ups and `delay` only read the slots and are left out.

`dup` is `task_head_duplicate_count`, `diff` the difference of two pointers.
-/
open Calls

namespace NgxLuaCpp.AsyncWorker

/-! ## The model -/

/-- A `task_base_t*` that is not null. -/
abbrev TaskPtr := Nat

/-- Which call runs a task. -/
inductive After where
  | queueTask
  | pollOne
  /-- `poll` at slot `i`, with the rest of the chain it took -/
  | poll (i : Nat) (rest : Option TaskPtr) (empty joins : Bool)
  deriving DecidableEq

/-- Where a call is. `joins` marks the `poll` in the loop of `join`. -/
inductive Pc where
  /-- `queue_task` at the filter by priority -/
  | queueTask (task : TaskPtr) (priority : UInt64)
  /-- `queue_task` at `is_terminated` -/
  | isTerminated (task : TaskPtr) (priority : UInt64)
  /-- `queue_task` at the CAS of an empty slot -/
  | tryEmpty (task : TaskPtr) (priority n index : Nat) (maxDiff : ℤ)
  /-- `queue_task` of a worker that is not started, at `task_heads.empty()` -/
  | notStarted (task : TaskPtr)
  /-- `queue_task` at the load and at the CAS that chain the task -/
  | chainLoad (task : TaskPtr) (slot : Nat)
  | chain (task : TaskPtr) (slot : Nat) (node : Option TaskPtr)
  /-- `poll_one_internal` in `fetch` -/
  | fetch (prioritySize k n : Nat)
  /-- `poll_one_internal` at the load, at the exchange with null and at the exchange with `task->next` -/
  | load (slot : Nat)
  | take (slot : Nat)
  | giveBack (slot : Nat) (task : TaskPtr)
  /-- `poll_one_internal` at the load and at the CAS that return `org` to its slot -/
  | returnLoad (slot : Nat) (task org : TaskPtr)
  | returnOrg (slot : Nat) (task org : TaskPtr) (next node : Option TaskPtr)
  /-- `poll_one_internal` at `execute_task` -/
  | execute (task : TaskPtr)
  /-- `poll` at the exchange of a slot, and at `execute_task` -/
  | poll (i : Nat) (empty joins : Bool)
  | executeChain (i : Nat) (task : TaskPtr) (empty joins : Bool)
  /-- A task runs. -/
  | runs (after : After)
  /-- `join` after its loop. -/
  | joined
  /-- `start` at `task_heads`, and at `terminated`. -/
  | start
  | started
  /-- The call is over, and `dropped` the chain it left behind. -/
  | ended (dropped : Option TaskPtr)
  deriving DecidableEq

def Pc.isEnded : Pc → Bool
  | .ended _ => true
  | _ => false

def Pc.waits : Pc → Bool
  | .runs _ => true
  | _ => false

/-- In the loop of `join`, or past it. -/
def Pc.joins : Pc → Bool
  | .poll _ _ joins | .executeChain _ _ _ joins | .runs (.poll _ _ _ joins) => joins
  | .joined => true
  | _ => false

/-- Between the two updates of `running_count` by `poll_one`. -/
def Pc.polls : Pc → Bool
  | .fetch .. | .load _ | .take _ | .giveBack .. | .returnLoad .. | .returnOrg .. | .execute _ | .runs .pollOne => true
  | _ => false

/-- The worker, and what became of the tasks queued: the `n`-th is task `n`. -/
structure Worker where
  /-- `threads.size()` -/
  threads : Nat
  internalThreads : Nat
  taskHeads : List (Option TaskPtr)
  priorityTaskThreshold : UInt64
  terminated : Bool
  /-- `task->next` -/
  next : TaskPtr → Option TaskPtr
  /-- `get_current_thread_index`, none for `~0` -/
  threadIndex : Nat → Option Nat
  calls : List (Call Pc)
  /-- the pointers of the tasks that are queued and neither executed nor handed over, and which tasks these are -/
  live : List TaskPtr
  ident : TaskPtr → Nat
  queued : Nat
  executed : List Nat
  /-- the tasks `priority_task_handler` took -/
  handed : List Nat

/-- What a step is told from outside: what `priority_task_handler` answers,
whether a weak CAS fails spuriously, and how a task ends. -/
structure Outside where
  taken : Bool := false
  priority : UInt64 := 0
  spurious : Bool := false
  throws : Bool := false

/-- The calls a thread can make: `queue_task`, `poll_one` without and with a priority, `poll`,
`join` and `start`. -/
inductive Entry where
  | queueTask (task : TaskPtr) (priority : UInt64)
  | pollOne
  | pollOnePriority (priority : Nat)
  | poll
  | join
  | start

/-- What can happen next: the worker is set up or terminated, a thread makes a call, or a call
takes a step. -/
inductive Action where
  | setPriorityTaskHandler (threshold : UInt64)
  | resize (count : Nat)
  | append
  | makeCurrent (thread : Nat) (index : Option Nat)
  | terminate
  | call (thread : Nat) (entry : Entry)
  /-- the next step of a call -/
  | step (j : Nat) (o : Outside)

/-- `numeric_limits<ptrdiff_t>::min()` -/
def minDiff : ℤ := -0x8000000000000000

namespace Worker

/-- A worker as constructed: not started, with no slots and no tasks. -/
def new : Worker :=
  { threads := 0, internalThreads := 0, taskHeads := [], priorityTaskThreshold := 0, terminated := true
    next := fun _ => none, threadIndex := fun _ => none, calls := [], live := [], ident := fun _ => 0
    queued := 0, executed := [], handed := [] }

/-- `running_count` -/
def runningCount (s : Worker) : Nat := s.calls.countP fun c => c.pc.polls

/-- `current_thread_index` in the loops over the slots. -/
def currentThreadIndex (s : Worker) (thread : Nat) : Nat := (s.threadIndex thread).getD 0

/-- Call `j`, which is `c`, goes on at `pc`. -/
def goto (s : Worker) (j : Nat) (c : Call Pc) (pc : Pc) : Worker := { s with calls := s.calls.set j ⟨c.thread, pc⟩ }

/-- `task_heads[slot]` is stored or exchanged. -/
def setHead (s : Worker) (slot : Nat) (head : Option TaskPtr) : Worker :=
  { s with taskHeads := s.taskHeads.set slot head }

/-- `task->next = node` -/
def setNext (s : Worker) (task : TaskPtr) (node : Option TaskPtr) : Worker :=
  { s with next := Function.update s.next task node }

/-- `execute_task`, after which the memory of the task may be used again. -/
def executeTask (s : Worker) (task : TaskPtr) : Worker :=
  { s with live := s.live.erase task, executed := s.executed ++ [s.ident task] }

/-- `priority_task_handler` takes the task. -/
def handOver (s : Worker) (task : TaskPtr) : Worker :=
  { s with live := s.live.erase task, handed := s.handed ++ [s.ident task] }

variable (dup : Nat) (diff : TaskPtr → TaskPtr → ℤ)

/-- The next step of a call. An assertion that fails, an access outside
`task_heads` and a task that cannot end yet are no steps. -/
def stepCall (s : Worker) (j : Nat) (c : Call Pc) (o : Outside) : Option Worker :=
  match c.pc with
  | .queueTask task priority =>
    if priority.toInt64 < s.priorityTaskThreshold.toInt64 then
      if o.taken then some ((s.handOver task).goto j c (.ended none))
      else some (s.goto j c (.isTerminated task o.priority))
    else some (s.goto j c (.isTerminated task priority))
  | .isTerminated task priority =>
    if s.terminated then some (s.goto j c (.notStarted task))
    else if s.threads = 0 then none
    else some (s.goto j c (.tryEmpty task (min priority.toNat (max s.internalThreads 1 - 1)) 0 0 minDiff))
  | .tryEmpty task priority n index maxDiff =>
    if n < dup then
      let k := (n + s.currentThreadIndex c.thread) % dup
      match s.taskHeads[priority + k * s.threads]? with
      | none => none
      | some none => some ((s.setHead (priority + k * s.threads) (some task)).goto j c (.ended none))
      | some (some expected) =>
        if maxDiff ≤ diff task expected then
          some (s.goto j c (.tryEmpty task priority (n + 1) k (diff task expected)))
        else some (s.goto j c (.tryEmpty task priority (n + 1) index maxDiff))
    else some (s.goto j c (.chainLoad task (priority + index * s.threads)))
  | .notStarted task =>
    if s.taskHeads.isEmpty then some ((s.executeTask task).goto j c (.runs .queueTask))
    else some (s.goto j c (.chainLoad task 0))
  | .chainLoad task slot => do
    let node ← s.taskHeads[slot]?
    some (s.goto j c (.chain task slot node))
  | .chain task slot node => do
    let head ← s.taskHeads[slot]?
    let s := s.setNext task node
    if head = node ∧ o.spurious = false then some ((s.setHead slot (some task)).goto j c (.ended none))
    else some (s.goto j c (.chain task slot head))
  | .fetch prioritySize k n =>
    if s.threads = 0 ∨ dup ≤ k then some (s.goto j c (.ended none))
    else if n < prioritySize then
      let m := (k + s.currentThreadIndex c.thread) % dup
      match s.taskHeads[m * s.threads + n]? with
      | none => none
      | some none => some (s.goto j c (.fetch prioritySize k (n + 1)))
      | some (some _) => some (s.goto j c (.load (m * s.threads + n)))
    else some (s.goto j c (.fetch prioritySize (k + 1) 0))
  | .load slot => do
    let head ← s.taskHeads[slot]?
    some (s.goto j c (if head.isSome then .take slot else .ended none))
  | .take slot =>
    match s.taskHeads[slot]? with
    | none => none
    | some none => some (s.goto j c (.ended none))
    | some (some task) => some ((s.setHead slot none).goto j c (.giveBack slot task))
  | .giveBack slot task =>
    match s.taskHeads[slot]? with
    | none => none
    | some none => some ((s.setHead slot (s.next task)).goto j c (.execute task))
    | some (some org) => some ((s.setHead slot (s.next task)).goto j c (.returnLoad slot task org))
  | .returnLoad slot task org => do
    let node ← s.taskHeads[slot]?
    some (s.goto j c (.returnOrg slot task org (s.next org) node))
  | .returnOrg slot task org next node => do
    let head ← s.taskHeads[slot]?
    let s := s.setNext org node
    if head = node ∧ o.spurious = false then
      let s := s.setHead slot (some org)
      match next with
      | none => some (s.goto j c (.execute task))
      | some org => some (s.goto j c (.returnLoad slot task org))
    else some (s.goto j c (.returnOrg slot task org next head))
  | .execute task => some ((s.executeTask task).goto j c (.runs .pollOne))
  | .poll i empty joins =>
    match s.taskHeads[i]? with
    | some none => some (s.goto j c (.poll (i + 1) empty joins))
    | some (some task) => some ((s.setHead i none).goto j c (.executeChain i task false joins))
    | none =>
      if joins then some (s.goto j c (if empty then .joined else .poll 0 true joins))
      else some (s.goto j c (.ended none))
  | .executeChain i task empty joins =>
    some ((s.executeTask task).goto j c (.runs (.poll i (s.next task) empty joins)))
  | .runs after =>
    if innermost Pc.isEnded s.calls c.thread j then
      match after with
      | .queueTask | .pollOne => some (s.goto j c (.ended none))
      | .poll i rest empty joins =>
        -- an exception leaves `poll`, and `join`, with the rest of the chain in no slot
        if o.throws then some (s.goto j c (.ended rest))
        else match rest with
          | none => some (s.goto j c (.poll (i + 1) empty joins))
          | some task => some (s.goto j c (.executeChain i task empty joins))
    else none
  | .joined => some ({ s with taskHeads := [], threads := 0 }.goto j c (.ended none))
  | .start =>
    if s.taskHeads.isEmpty then
      some ({ s with taskHeads := List.replicate (s.threads * dup) none }.goto j c .started)
    else none
  | .started => some ({ s with terminated := false }.goto j c (.ended none))
  | .ended _ => none

/-- A call begins on a thread that can make one, unless another thread is in `join`. -/
def canCall (s : Worker) (thread : Nat) : Bool :=
  free Pc.isEnded Pc.waits s.calls thread && s.calls.all fun c => !c.pc.joins || c.thread == thread

def makeCall (s : Worker) (thread : Nat) (pc : Pc) : Worker := { s with calls := s.calls ++ [⟨thread, pc⟩] }

/-- The call a thread makes, if the worker can take it, before its first step. -/
def startCall (s : Worker) (thread : Nat) : Entry → Option Worker
  | .queueTask task priority =>
    -- a new task, with no `next`
    if s.live.contains task then none
    else some ({ s with
      next := Function.update s.next task none
      ident := Function.update s.ident task s.queued
      live := task :: s.live
      queued := s.queued + 1 }.makeCall thread (.queueTask task priority))
  | .pollOne => some (s.makeCall thread (.fetch (s.threads + 1 - min (s.runningCount + 1) s.threads) 0 0))
  | .pollOnePriority priority => some (s.makeCall thread (.fetch (min (priority + 1) s.threads) 0 0))
  | .poll => some (s.makeCall thread (.poll 0 true false))
  | .join =>
    -- `join` has waited for the threads, and nothing else queues or polls any more
    if s.calls.all fun c => c.pc.isEnded then some (s.makeCall thread (.poll 0 true true)) else none
  | .start => some (s.makeCall thread .start)

/-- An action, if it can be taken. -/
def act (s : Worker) : Action → Option Worker
  | .setPriorityTaskHandler threshold => some { s with priorityTaskThreshold := threshold }
  | .resize count => if s.taskHeads.isEmpty then some { s with threads := count, internalThreads := count } else none
  | .append => if s.terminated && s.taskHeads.isEmpty then some { s with threads := s.threads + 1 } else none
  | .makeCurrent thread index => some { s with threadIndex := Function.update s.threadIndex thread index }
  | .terminate => some { s with terminated := true }
  | .call thread entry => if s.canCall thread then s.startCall thread entry else none
  | .step j o => do s.stepCall dup diff j (← s.calls[j]?) o

/-- An action, or nothing if it cannot be taken. -/
def step (s : Worker) (a : Action) : Worker := (s.act dup diff a).getD s

/-- The worker after these actions, from its construction on. -/
def run (acts : List Action) : Worker := acts.foldl (step dup diff) new

end Worker
end NgxLuaCpp.AsyncWorker
