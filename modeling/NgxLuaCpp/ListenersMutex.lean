import NgxLuaCpp.Lib.Monitor
import NgxLuaCpp.Lib.Trace
/-!
# The lock on the listeners

`udp_recv` and `udp_reply` look their port up on a worker, under
`listeners_mutex`. Where nobody listens there, they switch back to the nginx
thread inside the scope of the lock. Meanwhile the nginx thread may come to the
same lock, in `udp_listen`, in a poll or in `stop`. We show when it waits there
for ever.
-/
open Monitor Trace

namespace NgxLuaCpp.ListenersMutex

/-- What the nginx thread does under the lock. -/
inductive Op where
  /-- `udp_listen`, whose `socket` and `bind` succeed or not -/
  | listen (port : Nat) (bound : Bool)
  /-- `udp_recv` with a timeout of 0 -/
  | poll (port : Nat)
  /-- the first part of `stop_impl` -/
  | stop
  deriving DecidableEq

/-- The nginx thread runs handlers, waits for the lock, or has it. -/
inductive Nginx where
  | handlers
  | lock (op : Op)
  | inside (op : Op)
  deriving DecidableEq

/-- A call of `udp_recv` or `udp_reply` that has switched to the workers. -/
inductive Pc where
  /-- queued for a worker, at the lock, and in the scope of the lock -/
  | switched (port : Nat)
  | lock (port : Nat)
  | find (port : Nat)
  /-- in the scope, queued for the nginx thread -/
  | missing (port : Nat)
  /-- out of the scope, and back on the nginx thread sooner or later -/
  | found (port : Nat)
  | returned
  deriving DecidableEq

/-- What is listened to, who has the lock, and where the nginx thread and each coroutine are. -/
structure State where
  /-- the ports of `udp_listeners` -/
  listeners : List Nat
  /-- who has `listeners_mutex`: the nginx thread, or a coroutine -/
  mutex : Option (Option Nat)
  nginx : Nginx
  coroutines : List Pc

/-- What can happen next: a handler makes a call, the nginx thread or a worker goes on, or a
coroutine is resumed. -/
inductive Action where
  /-- A handler calls for the lock. -/
  | call (op : Op)
  /-- A handler starts a call that switches. -/
  | switch (port : Nat)
  /-- The nginx thread goes on with what it does. -/
  | nginx
  /-- A worker goes on with coroutine `i`. -/
  | worker (i : Nat)
  /-- The nginx thread, in its handlers, resumes coroutine `i`. -/
  | resume (i : Nat)

/-- What is listened to after the operation. -/
def Op.apply (listeners : List Nat) : Op → List Nat
  | .listen port bound =>
    if port = 0 ∨ port > 65535 ∨ port ∈ listeners then listeners else if bound then port :: listeners else listeners
  | .poll _ => listeners
  | .stop => []

/-- An operation on a port out of range returns before the lock. -/
def Op.locks : Op → Bool
  | .listen port _ => port != 0 && port ≤ 65535
  | _ => true

namespace State

/-- No listener yet, and the mutex free. -/
def new : State := { listeners := [], mutex := none, nginx := .handlers, coroutines := [] }

def goto (s : State) (i : Nat) (pc : Pc) : State := { s with coroutines := s.coroutines.set i pc }

/-- The nginx thread takes the lock, if nobody has it, or leaves its scope. -/
def stepNginx (s : State) : Option State :=
  match s.nginx with
  | .handlers => none
  | .lock op => if s.mutex = none then some { s with mutex := some none, nginx := .inside op } else none
  | .inside op => some { s with listeners := op.apply s.listeners, mutex := none, nginx := .handlers }

/-- A worker's step of a coroutine. -/
def stepWorker (s : State) (i : Nat) : Pc → Option State
  | .switched port => some (s.goto i (.lock port))
  | .lock port => if s.mutex = none then some ({ s with mutex := some (some i) }.goto i (.find port)) else none
  | .find port =>
    if port ∈ s.listeners then some ({ s with mutex := none }.goto i (.found port))
    -- `co_await iris_switch(main)` with the guard alive
    else some (s.goto i (.missing port))
  | _ => none

/-- The nginx thread's step of a coroutine that is queued for it. -/
def stepResume (s : State) (i : Nat) : Pc → Option State
  | .missing _ => some ({ s with mutex := none }.goto i .returned)
  | .found _ => some (s.goto i .returned)
  | _ => none

/-- An action, if it can be taken. -/
def act (s : State) : Action → Option State
  | .call op =>
    if s.nginx = .handlers then some (if op.locks then { s with nginx := .lock op } else s) else none
  | .switch port =>
    if s.nginx = .handlers then some { s with coroutines := s.coroutines ++ [.switched port] } else none
  | .nginx => s.stepNginx
  | .worker i => do s.stepWorker i (← s.coroutines[i]?)
  | .resume i => if s.nginx = .handlers then do s.stepResume i (← s.coroutines[i]?) else none

/-- An action, or nothing if it cannot be taken. -/
def step (s : State) (a : Action) : State := (s.act a).getD s

/-- The state after these actions. -/
def run (acts : List Action) : State := acts.foldl step new

end State

/-! ## The invariant -/

/-- The coroutine is in the scope of the lock. -/
def Pc.holds : Pc → Bool
  | .find _ | .missing _ => true
  | _ => false

/-- The coroutine has the lock and nobody listens on its port. -/
def Pc.Misses (listeners : List Nat) : Pc → Prop
  | .find port => port ∉ listeners
  | .missing _ => True
  | _ => False

namespace State
variable {s s' : State} {i : Nat} {pc pc' : Pc}

/-- The lock among the coroutines. -/
def inner (mutex : Option (Option Nat)) : Option Nat := mutex.getD none

/-- The lock belongs to who is in its scope. -/
structure Inv (s : State) : Prop where
  locked : Locked Pc.holds (inner s.mutex) s.coroutines
  nginx : s.mutex = some none ↔ ∃ op, s.nginx = .inside op

theorem Inv.moved (h : Inv s) (hi : s.coroutines[i]? = some pc) (hcoroutines : s'.coroutines = s.coroutines.set i pc')
    (hnginx : s'.nginx = s.nginx) (hlock : LockStep Pc.holds i pc pc' (inner s.mutex) (inner s'.mutex))
    (hmutex : s'.mutex = some none ↔ s.mutex = some none) : Inv s' := by
  refine ⟨?_, ?_⟩
  · rw [hcoroutines]
    exact h.locked.step hi hlock
  · rw [hmutex, h.nginx, hnginx]

/-- Who has the lock as a coroutine is not the nginx thread. -/
theorem Inv.mutex_of_holds (h : Inv s) (hi : s.coroutines[i]? = some pc) (hpc : pc.holds = true) :
    s.mutex = some (some i) := by
  have hinner := h.locked.holder hi hpc
  cases hmutex : s.mutex with
  | none =>
    rw [hmutex] at hinner
    cases hinner
  | some owner =>
    rw [hmutex] at hinner
    rw [show owner = some i from hinner]

/-- A worker's step keeps the invariant. -/
theorem Inv.stepWorker (h : Inv s) (hi : s.coroutines[i]? = some pc) (hstep : s.stepWorker i pc = some s') : Inv s' := by
  cases pc with
  | switched port =>
    obtain rfl := Option.some.inj hstep
    exact h.moved hi rfl rfl (.inl ⟨rfl, rfl⟩) Iff.rfl
  | lock port =>
    simp only [State.stepWorker] at hstep
    split at hstep
    · next hfree =>
      obtain rfl := Option.some.inj hstep
      refine h.moved hi rfl rfl (.inr (.inl ⟨?_, rfl, rfl⟩)) ?_
      · rw [hfree]
        rfl
      · simp [goto, hfree]
    · cases hstep
  | find port =>
    have hmutex := h.mutex_of_holds hi rfl
    simp only [State.stepWorker] at hstep
    split at hstep
    · obtain rfl := Option.some.inj hstep
      refine h.moved hi rfl rfl (.inr (.inr ⟨rfl, rfl, rfl⟩)) ?_
      simp [goto, hmutex]
    · obtain rfl := Option.some.inj hstep
      exact h.moved hi rfl rfl (.inl ⟨rfl, rfl⟩) Iff.rfl
  | missing | found | returned => cases hstep

theorem Inv.stepResume (h : Inv s) (hi : s.coroutines[i]? = some pc) (hstep : s.stepResume i pc = some s') : Inv s' := by
  cases pc with
  | missing port =>
    have hmutex := h.mutex_of_holds hi rfl
    obtain rfl := Option.some.inj hstep
    refine h.moved hi rfl rfl (.inr (.inr ⟨rfl, rfl, rfl⟩)) ?_
    simp [goto, hmutex]
  | found port =>
    obtain rfl := Option.some.inj hstep
    exact h.moved hi rfl rfl (.inl ⟨rfl, rfl⟩) Iff.rfl
  | switched | lock | find | returned => cases hstep

/-- Every action keeps the invariant. -/
theorem Inv.act {a : Action} (h : Inv s) (hact : s.act a = some s') : Inv s' := by
  cases a with
  | call op =>
    simp only [State.act] at hact
    split at hact
    · next hhandlers =>
      obtain rfl := Option.some.inj hact
      split
      · refine ⟨h.locked, ?_⟩
        have hnginx := h.nginx
        simp only [hhandlers, reduceCtorEq, exists_false, iff_false] at hnginx
        simp [hnginx]
      · exact h
    · cases hact
  | switch port =>
    simp only [State.act] at hact
    split at hact
    · obtain rfl := Option.some.inj hact
      exact ⟨h.locked.made rfl, h.nginx⟩
    · cases hact
  | nginx =>
    simp only [State.act, stepNginx] at hact
    split at hact
    · cases hact
    · split at hact
      · next op _ hfree =>
        obtain rfl := Option.some.inj hact
        refine ⟨?_, by simp⟩
        have hlocked := h.locked
        rw [hfree] at hlocked
        exact hlocked
      · cases hact
    · next op hinside =>
      obtain rfl := Option.some.inj hact
      refine ⟨?_, by simp⟩
      have hlocked := h.locked
      rw [h.nginx.2 ⟨op, hinside⟩] at hlocked
      exact hlocked
  | worker i =>
    obtain ⟨pc, hi, hstep⟩ := Option.bind_eq_some_iff.1 hact
    exact h.stepWorker hi hstep
  | resume i =>
    simp only [State.act] at hact
    split at hact
    · obtain ⟨pc, hi, hstep⟩ := Option.bind_eq_some_iff.1 hact
      exact h.stepResume hi hstep
    · cases hact

theorem inv_run (acts : List Action) : Inv (run acts) := by
  refine invariant (fun _ s => Inv s) ⟨locked_nil, by simp [new]⟩ (fun _ s a h => ?_) acts
  unfold step
  cases hact : s.act a with
  | none => exact h
  | some s' => exact h.act hact

/-! ## Waiting for ever -/

/-- A coroutine that nobody listens for has the lock. -/
def Blocked (s : State) : Prop := ∃ (i : Nat) (pc : Pc), s.coroutines[i]? = some pc ∧ pc.Misses s.listeners

theorem holds_of_misses {listeners : List Nat} (h : pc.Misses listeners) : pc.holds = true := by
  cases pc with
  | find | missing => rfl
  | _ => cases h

/-- While the nginx thread waits, nobody else opens or closes the way. -/
theorem Blocked.step {op : Op} (hblocked : Blocked s) (h : Inv s) (hwait : s.nginx = .lock op) (a : Action) :
    Blocked (s.step a) ∧ (s.step a).nginx = .lock op := by
  obtain ⟨i, pc, hi, hmisses⟩ := hblocked
  have hholds := holds_of_misses hmisses
  have hmutex := h.mutex_of_holds hi hholds
  unfold State.step
  cases hact : s.act a with
  | none => exact ⟨⟨i, pc, hi, hmisses⟩, hwait⟩
  | some s' =>
    rw [Option.getD_some]
    cases a with
    | call | switch | resume => simp [act, hwait] at hact
    | nginx => simp [act, stepNginx, hwait, hmutex] at hact
    | worker k =>
      obtain ⟨d, hk, hstep⟩ := Option.bind_eq_some_iff.1 hact
      rcases eq_or_ne k i with rfl | hne
      · rw [hi] at hk
        obtain rfl := Option.some.inj hk
        cases pc with
        | find port =>
          simp only [State.stepWorker, if_neg (show port ∉ s.listeners from hmisses), Option.some.injEq] at hstep
          subst hstep
          exact ⟨⟨k, .missing port, (getElem?_moved hi).2 (.inl ⟨rfl, rfl⟩), trivial⟩, hwait⟩
        | missing port => cases hstep
        | _ => cases hmisses
      · have hkept : ∀ d', (s.coroutines.set k d')[i]? = some pc := by
          intro d'
          rw [List.getElem?_set_ne hne]
          exact hi
        cases d with
        | switched port =>
          obtain rfl := Option.some.inj hstep
          exact ⟨⟨i, pc, hkept _, hmisses⟩, hwait⟩
        | lock port => simp [State.stepWorker, hmutex] at hstep
        | find port => exact absurd (h.locked.unique hk rfl hi hholds) hne
        | missing | found | returned => cases hstep

theorem Blocked.forever {op : Op} (hblocked : Blocked s) (h : Inv s) (hwait : s.nginx = .lock op)
    (more : List Action) : (more.foldl State.step s).nginx = .lock op := by
  induction more generalizing s with
  | nil => exact hwait
  | cons a more ih =>
    obtain ⟨hblocked', hwait'⟩ := hblocked.step h hwait a
    have h' : Inv (s.step a) := by
      unfold State.step
      cases hact : s.act a with
      | none => exact h
      | some s' => exact h.act hact
    exact ih hblocked' h' hwait'

/-- Otherwise the nginx thread has the lock after two steps at most. -/
theorem Inv.frees {op : Op} (h : Inv s) (hwait : s.nginx = .lock op) (hblocked : ¬ Blocked s) :
    ∃ more : List Action, (more.foldl State.step s).nginx = .inside op := by
  cases hmutex : s.mutex with
  | none =>
    refine ⟨[.nginx], ?_⟩
    simp [State.step, State.act, stepNginx, hwait, hmutex]
  | some owner =>
    cases owner with
    | none =>
      obtain ⟨op', hinside⟩ := h.nginx.1 hmutex
      rw [hwait] at hinside
      cases hinside
    | some i =>
      have hinner : inner s.mutex = some i := by
        rw [hmutex]
        rfl
      obtain ⟨pc, hi, hholds⟩ := (h.locked i).1 hinner
      cases pc with
      | find port =>
        have hport : port ∈ s.listeners := by
          by_contra hport
          exact hblocked ⟨i, _, hi, hport⟩
        refine ⟨[.worker i, .nginx], ?_⟩
        simp [State.step, State.act, hi, State.stepWorker, hport, stepNginx, goto, hwait]
      | missing port => exact absurd ⟨i, _, hi, trivial⟩ hblocked
      | _ => cases hholds

/-- The nginx thread waits for the lock for ever exactly where a call that nobody listens for has it. -/
theorem waits_forever_iff (acts : List Action) (op : Op) (hwait : (run acts).nginx = .lock op) :
    (∀ more, (run (acts ++ more)).nginx = .lock op) ↔ Blocked (run acts) := by
  constructor
  · intro hforever
    by_contra hblocked
    obtain ⟨more, hinside⟩ := (inv_run acts).frees hwait hblocked
    have hlock := hforever more
    rw [run, List.foldl_append, ← run, hinside] at hlock
    cases hlock
  · intro hblocked more
    rw [run, List.foldl_append, ← run]
    exact hblocked.forever (inv_run acts) hwait more

/-- A reply to a port without listener is on its way back when a poll of another port begins. -/
theorem poll_waits_forever : (∀ more, (run ([.call (.listen 9000 true), .nginx, .nginx, .switch 9002, .worker 0,
    .worker 0, .worker 0, .call (.poll 9000)] ++ more)).nginx = .lock (.poll 9000)) ↔
    Blocked (run [.call (.listen 9000 true), .nginx, .nginx, .switch 9002, .worker 0, .worker 0, .worker 0,
      .call (.poll 9000)]) :=
  waits_forever_iff _ _ rfl

end State
end NgxLuaCpp.ListenersMutex
