import NgxLuaCpp.Lib.Trace
/-!
# Awaiting a dispatched function

A coroutine dispatches an `iris_awaitable_t` that lives in its frame and then
awaits it, while a worker runs the queued callable. We follow each atomic
operation of the two threads in any order. Whoever finds both bits `waited` and
`completed` set hands the coroutine to a queue, from which it is resumed. From
then on its frame may be gone.
-/

namespace NgxLuaCpp.Await
open Trace

variable {W α : Type}

/-! ## The model -/

/-- An awaitable's target, the warp of the thread that dispatches it, and what
its function returns. -/
structure Setup (W α : Type) where
  target : W
  current : Option W
  func : α

/-- Where the awaiting thread is. `suspending` says that `await_suspend` called
`dispatch`. -/
inductive Awaiter (α : Type) where
  /-- `dispatch` at its `fetch_or` -/
  | dispatch (suspending : Bool)
  /-- `dispatch` at `caller = warp_t::get_current()` -/
  | capture (suspending : Bool)
  /-- `dispatch` in the branch of the same warp, which calls the callable itself -/
  | call (suspending : Bool)
  | store (suspending : Bool) (value : α)
  | complete (suspending : Bool)
  | resume (suspending : Bool)
  /-- `dispatch` about to queue the callable -/
  | queue (suspending : Bool)
  /-- `await_ready` -/
  | ready
  /-- `await_suspend` at `resume_handle = std::move(handle)` -/
  | keep
  /-- `await_suspend` at its `fetch_or` -/
  | wait
  /-- `await_suspend` at `resume_one` -/
  | handOff
  | suspended
  | continued
  deriving DecidableEq

/-- Where the callable is. Posted to the target or run in parallel, it ends the
same way. -/
inductive Worker (α : Type) where
  | absent
  | queued
  | ran (value : α)
  | stored
  /-- The callable is over, and its thread at `resume_one`. -/
  | handOff
  | done
  deriving DecidableEq

/-- `iris_awaitable_t` with its two parties, and what came of `func`: how often it ran, what was
handed over, and what the awaiter got. -/
structure Awaitable (W α : Type) where
  dispatched : Bool
  waited : Bool
  completed : Bool
  caller : Option W
  /-- whether `resume_handle` is set -/
  resumeHandle : Bool
  ret : Option α
  /-- how often `func` ran -/
  runs : Nat
  awaiter : Awaiter α
  worker : Worker α
  /-- the queues the coroutine was handed to: a warp's, or the pool's -/
  handed : List (Option W)
  /-- how many of them have not resumed it yet -/
  pending : Nat
  /-- what `await_resume` returned each time the coroutine went on -/
  continued : List (Option α)

/-- An awaitable as constructed, whose worker and awaiter have not begun. -/
def new : Awaitable W α := ⟨false, false, false, none, false, none, 0, .dispatch false, .absent, [], 0, []⟩

/-- Where `dispatch` returns to. -/
def after : Bool → Awaiter α
  | true => .suspended
  | false => .ready

def Awaitable.resumeOne (a : Awaitable W α) : Awaitable W α :=
  { a with resumeHandle := false, handed := a.handed ++ [a.caller], pending := a.pending + 1 }

def Awaitable.continues (a : Awaitable W α) : Awaitable W α := { a with continued := a.continued ++ [a.ret] }

/-- A step of the awaiting thread. -/
def stepAwaiter [DecidableEq W] (s : Setup W α) (a : Awaitable W α) : Awaitable W α :=
  match a.awaiter with
  | .dispatch b =>
    if a.dispatched then { a with awaiter := after b } else { a with dispatched := true, awaiter := .capture b }
  | .capture b => { a with caller := s.current, awaiter := if some s.target = s.current then .call b else .queue b }
  | .call b => { a with runs := a.runs + 1, awaiter := .store b s.func }
  | .store b value => { a with ret := some value, awaiter := .complete b }
  | .complete b => { a with completed := true, awaiter := .resume b }
  | .resume b =>
    if a.resumeHandle then { a with resumeHandle := false, awaiter := after b }.continues
    else { a with awaiter := after b }
  | .queue b => { a with worker := .queued, awaiter := after b }
  | .ready => if a.completed then { a with awaiter := .continued }.continues else { a with awaiter := .keep }
  | .keep => { a with resumeHandle := true, awaiter := .wait }
  -- not completed: `await_suspend` calls `dispatch`
  | .wait => { a with waited := true, awaiter := if a.completed then .handOff else .dispatch true }
  | .handOff => { a.resumeOne with awaiter := .suspended }
  | .suspended => a
  | .continued => a

/-- A step of the callable. -/
def stepWorker (s : Setup W α) (a : Awaitable W α) : Awaitable W α :=
  match a.worker with
  | .absent => a
  | .queued => { a with runs := a.runs + 1, worker := .ran s.func }
  | .ran value => { a with ret := some value, worker := .stored }
  | .stored => { a with completed := true, worker := if a.waited then .handOff else .done }
  | .handOff => { a.resumeOne with worker := .done }
  | .done => a

/-- A queue resumes the coroutine. -/
def stepResumer (a : Awaitable W α) : Awaitable W α :=
  if a.pending = 0 then a else { a with pending := a.pending - 1 }.continues

/-- Which party takes the next step. -/
inductive Turn where
  | awaiter | worker | resumer
  deriving DecidableEq

variable [DecidableEq W]

def step (s : Setup W α) (a : Awaitable W α) : Turn → Awaitable W α
  | .awaiter => stepAwaiter s a
  | .worker => stepWorker s a
  | .resumer => stepResumer a

/-- The awaitable after these turns. -/
def run (s : Setup W α) (turns : List Turn) : Awaitable W α := turns.foldl (step s) new

theorem run_concat (s : Setup W α) (turns : List Turn) (t : Turn) :
    run s (turns ++ [t]) = step s (run s turns) t := List.foldl_concat ..

/-! ## What is asked of a run -/

/-- The step of the thread at this place touches the awaitable. -/
def Awaiter.Accesses : Awaiter α → Prop
  | .suspended => False
  | .continued => False
  | _ => True

/-- What is asked of any moment of a run: `func` ran at most once, its result was there before
the coroutine was handed over, the coroutine went on at most once and with that result, and once
nothing moves any more both have happened. -/
structure Good (s : Setup W α) (a : Awaitable W α) : Prop where
  runs : a.runs ≤ 1
  handed : a.handed.length ≤ 1
  stored : a.handed ≠ [] → a.ret = some s.func
  continued : a.continued = [] ∨ a.continued = [some s.func]
  quiet : (∀ t, step s a t = a) → a.runs = 1 ∧ a.continued = [some s.func]

/-- `func` runs once, the coroutine goes on once with its result, and neither
`dispatch` nor `await_suspend` touches the awaitable after it was handed over. -/
structure Safe (s : Setup W α) (turns : List Turn) : Prop where
  good : Throughout (fun pre => Good s (run s pre)) turns
  /-- the run can be carried on until nothing more happens -/
  ends : ∃ more, Good s (run s (turns ++ more)) ∧ ∀ t, step s (run s (turns ++ more)) t = run s (turns ++ more)
  inTime : Each (fun pre t => t = .awaiter → (run s pre).awaiter.Accesses → (run s pre).handed = []) turns

/-- The worker never hands the coroutine over while `await_suspend` is between
its `fetch_or` and that of the `dispatch` it calls. -/
def Undisturbed (s : Setup W α) (turns : List Turn) : Prop :=
  Each (fun pre t => t = .worker → (run s pre).worker = .handOff → (run s pre).awaiter ≠ .dispatch true) turns

instance instDecidableUndisturbed [DecidableEq α] (s : Setup W α) (turns : List Turn) :
    Decidable (Undisturbed s turns) := inferInstanceAs (Decidable (Each _ _))

end NgxLuaCpp.Await
