import NgxLuaCpp.Lib.Monitor
import NgxLuaCpp.Lib.Trace
import Mathlib.Algebra.Order.Group.Multiset
/-!
# The event

An `iris_event_t` lets coroutines wait until it is notified. Each atomic
operation of `await_ready`, `await_suspend`, `notify` and `reset` is a step, and
so is what `notify` does with one of the coroutines it has taken.
-/
open Monitor Trace

namespace NgxLuaCpp.IrisEvent

/-- Where a call is. -/
inductive Pc (κ : Type*) where
  /-- `await_ready`, and `await_suspend` at its load, at the lock, at the second load and at `emplace_back` -/
  | ready (handle : κ)
  | check (handle : κ)
  | lockAwait (handle : κ)
  | recheck (handle : κ)
  | push (handle : κ)
  /-- `notify` at the lock, at the store and at `swap` -/
  | lockNotify
  | store
  | swap
  /-- the end of the lock, and the coroutines to dispatch after it -/
  | unlock (next : List κ)
  | dispatch (next : List κ)
  | reset
  deriving DecidableEq

/-- `iris_event_t` with the calls under way, and the coroutines it has let go on. -/
structure Event (κ : Type*) where
  signaled : Bool
  lock : Option Nat
  handles : List κ
  /-- coroutines that went on at once, and those queued to be resumed -/
  passed : List κ
  dispatched : List κ
  calls : List (Pc κ)

/-- What can happen next: a coroutine awaits, the event is notified or reset, or a call takes a
step. -/
inductive Action (κ : Type*) where
  | await (handle : κ)
  | notify
  | reset
  /-- the next step of a call -/
  | step (i : Nat)

/-- Nothing is left of a call. -/
def Pc.ended {κ : Type*} : Pc κ := .dispatch []

namespace Event
variable {κ : Type*}

/-- An event as constructed, not signaled. -/
def new : Event κ := { signaled := false, lock := none, handles := [], passed := [], dispatched := [], calls := [] }

/-- Call `i` goes on at `pc`. -/
def goto (s : Event κ) (i : Nat) (pc : Pc κ) : Event κ := { s with calls := s.calls.set i pc }

/-- Call `i` takes the lock, if nobody has it. -/
def acquireLock (s : Event κ) (i : Nat) (pc : Pc κ) : Option (Event κ) :=
  if s.lock = none then some ({ s with lock := some i }.goto i pc) else none

/-- The next step of a call, if it need not wait for the lock. -/
def stepCall (s : Event κ) (i : Nat) : Pc κ → Option (Event κ)
  | .ready handle =>
    if s.signaled then some ({ s with passed := s.passed ++ [handle] }.goto i .ended)
    else some (s.goto i (.check handle))
  | .check handle => some (s.goto i (if s.signaled then .dispatch [handle] else .lockAwait handle))
  | .lockAwait handle => s.acquireLock i (.recheck handle)
  | .recheck handle => some (s.goto i (if s.signaled then .unlock [handle] else .push handle))
  | .push handle => some ({ s with handles := s.handles ++ [handle] }.goto i (.unlock []))
  | .lockNotify => s.acquireLock i .store
  | .store => some ({ s with signaled := true }.goto i .swap)
  | .swap => some ({ s with handles := [] }.goto i (.unlock s.handles))
  | .unlock next => some ({ s with lock := none }.goto i (.dispatch next))
  | .dispatch (handle :: next) => some ({ s with dispatched := s.dispatched ++ [handle] }.goto i (.dispatch next))
  | .dispatch [] => none
  | .reset => some ({ s with signaled := false }.goto i .ended)

def makeCall (s : Event κ) (pc : Pc κ) : Event κ := { s with calls := s.calls ++ [pc] }

/-- An action, if it can be taken. -/
def act (s : Event κ) : Action κ → Option (Event κ)
  | .await handle => some (s.makeCall (.ready handle))
  | .notify => some (s.makeCall .lockNotify)
  | .reset => some (s.makeCall .reset)
  | .step i => do s.stepCall i (← s.calls[i]?)

/-- An action, or nothing if it cannot be taken. -/
def step (s : Event κ) (a : Action κ) : Event κ := (s.act a).getD s

/-- The event after these actions. -/
def run (acts : List (Action κ)) : Event κ := acts.foldl step new

end Event

/-! ## The invariant -/

namespace Pc
variable {κ : Type*}

/-- The call has the lock. -/
def holds : Pc κ → Bool
  | .recheck _ | .push _ | .store | .swap | .unlock _ => true
  | _ => false

/-- The coroutines that the call has with it. -/
def carries : Pc κ → Multiset κ
  | .ready handle | .check handle | .lockAwait handle | .recheck handle | .push handle => {handle}
  | .unlock next | .dispatch next => next
  | _ => 0

end Pc

namespace Event
variable {κ : Type*} {s s' : Event κ} {i : Nat} {pc pc' : Pc κ}

/-- All coroutines that wait, and all that the event has ever had. -/
def waiting (s : Event κ) : Multiset κ := weight Pc.carries s.calls + s.handles

def seen (s : Event κ) : Multiset κ := s.waiting + s.passed + s.dispatched

/-- The lock belongs to who is inside, and while the event is signaled nobody is left in its
list, unless a `notify` is about to take them. -/
structure Inv (s : Event κ) : Prop where
  locked : Locked Pc.holds s.lock s.calls
  /-- Under the lock, nobody signals before a coroutine is in the list. -/
  unsignaled : ∀ handle, .push handle ∈ s.calls → s.signaled = false
  woken : s.signaled = true → s.handles = [] ∨ .swap ∈ s.calls

/-- What a step of call `i` from `pc` does, where it goes on at `pc'`. -/
structure Moves (s : Event κ) (i : Nat) (pc pc' : Pc κ) (s' : Event κ) : Prop where
  calls : s'.calls = s.calls.set i pc'
  lock : LockStep Pc.holds i pc pc' s.lock s'.lock
  signaled : s'.signaled = s.signaled ∨ s'.signaled = false ∨ pc = .store ∧ pc' = .swap
  pushes : ∀ handle, pc' = .push handle → s'.signaled = false
  handles : s'.handles = s.handles ∧ pc ≠ .swap ∨ s'.handles = [] ∨ ∃ handle, pc = .push handle ∧ s'.signaled = s.signaled
  keeps : pc'.carries + s'.handles + s'.passed + s'.dispatched = pc.carries + s.handles + s.passed + s.dispatched

theorem Moves.seen_eq (m : Moves s i pc pc' s') (hi : s.calls[i]? = some pc) : s'.seen = s.seen := by
  have hmoved := weight_moved (f := Pc.carries) (q := pc') hi
  apply add_right_cancel (b := pc.carries)
  calc s'.seen + pc.carries
      = weight Pc.carries (s.calls.set i pc') + pc.carries + s'.handles + s'.passed + s'.dispatched := by
        rw [seen, waiting, m.calls]
        abel
    _ = weight Pc.carries s.calls + (pc'.carries + s'.handles + s'.passed + s'.dispatched) := by
        rw [hmoved]
        abel
    _ = s.seen + pc.carries := by
        rw [m.keeps, seen, waiting]
        abel

/-- A step that moves so keeps the invariant. -/
theorem Moves.inv (m : Moves s i pc pc' s') (h : Inv s) (hi : s.calls[i]? = some pc) : Inv s' := by
  have hmem := List.mem_of_getElem? hi
  refine ⟨?_, ?_, ?_⟩
  · rw [m.calls]
    exact h.locked.step hi m.lock
  · intro handle hd
    rw [m.calls] at hd
    rcases m.signaled with heq | hfalse | ⟨rfl, rfl⟩
    · rcases List.mem_or_eq_of_mem_set hd with hd | hd
      · exact heq.trans (h.unsignaled handle hd)
      · exact m.pushes handle hd.symm
    · exact hfalse
    · cases h.locked.alone hi rfl hd rfl
  · intro hsignaled
    rw [m.calls]
    rcases m.handles with ⟨hhandles, hswap⟩ | hnil | ⟨handle, rfl, heq⟩
    · rcases m.signaled with heq | hfalse | ⟨-, rfl⟩
      · rw [hhandles]
        refine (h.woken (heq ▸ hsignaled)).imp_right fun hd => ?_
        obtain ⟨d, hd, rfl⟩ := exists_moved (P := (· = .swap)) (q := pc') hi ⟨_, hd, rfl⟩ fun hpc => absurd hpc hswap
        exact hd
      · rw [hfalse] at hsignaled
        cases hsignaled
      · exact .inr (mem_moved hi)
    · exact .inl hnil
    · rw [heq, h.unsignaled handle hmem] at hsignaled
      cases hsignaled

theorem Moves.of_lock (hlock : s.acquireLock i pc' = some s') (hholds : pc'.holds = true)
    (hpc : pc ≠ .swap ∧ ∀ handle, pc' ≠ .push handle) (hcarries : pc'.carries = pc.carries) : Moves s i pc pc' s' := by
  unfold acquireLock at hlock
  split at hlock
  · next hfree =>
    obtain rfl := Option.some.inj hlock
    refine ⟨rfl, .inr (.inl ⟨hfree, hholds, rfl⟩), .inl rfl, fun handle h => absurd h (hpc.2 handle), .inl ⟨rfl, hpc.1⟩, ?_⟩
    rw [hcarries]
    rfl
  · cases hlock

/-- Every step of a call moves so. -/
theorem moves (hstep : s.stepCall i pc = some s') : ∃ pc', Moves s i pc pc' s' := by
  cases pc with
  | ready handle =>
    simp only [stepCall] at hstep
    split at hstep
    · obtain rfl := Option.some.inj hstep
      refine ⟨_, rfl, .inl ⟨rfl, rfl⟩, .inl rfl, nofun, .inl ⟨rfl, nofun⟩, ?_⟩
      simp only [goto, Pc.carries, Pc.ended, ← Multiset.coe_add, Multiset.coe_singleton, Multiset.coe_nil]
      abel
    · obtain rfl := Option.some.inj hstep
      exact ⟨_, rfl, .inl ⟨rfl, rfl⟩, .inl rfl, nofun, .inl ⟨rfl, nofun⟩, rfl⟩
  | check handle =>
    obtain rfl := Option.some.inj hstep
    refine ⟨_, rfl, .inl ⟨?_, rfl⟩, .inl rfl, ?_, .inl ⟨rfl, nofun⟩, ?_⟩
    all_goals
      split
      all_goals simp [goto, Pc.holds, Pc.carries]
  | lockAwait handle => exact ⟨_, .of_lock hstep rfl ⟨nofun, nofun⟩ rfl⟩
  | recheck handle =>
    obtain rfl := Option.some.inj hstep
    refine ⟨_, rfl, .inl ⟨?_, rfl⟩, .inl rfl, ?_, .inl ⟨rfl, nofun⟩, ?_⟩
    · split
      all_goals rfl
    · split
      · exact nofun
      · next hfalse => exact fun _ _ => Bool.eq_false_iff.2 hfalse
    · split
      all_goals simp [goto, Pc.carries]
  | push handle =>
    obtain rfl := Option.some.inj hstep
    refine ⟨_, rfl, .inl ⟨rfl, rfl⟩, .inl rfl, nofun, .inr (.inr ⟨handle, rfl, rfl⟩), ?_⟩
    simp only [goto, Pc.carries, ← Multiset.coe_add, Multiset.coe_singleton, Multiset.coe_nil]
    abel
  | lockNotify => exact ⟨_, .of_lock hstep rfl ⟨nofun, nofun⟩ rfl⟩
  | store =>
    obtain rfl := Option.some.inj hstep
    exact ⟨_, rfl, .inl ⟨rfl, rfl⟩, .inr (.inr ⟨rfl, rfl⟩), nofun, .inl ⟨rfl, nofun⟩, rfl⟩
  | swap =>
    obtain rfl := Option.some.inj hstep
    refine ⟨_, rfl, .inl ⟨rfl, rfl⟩, .inl rfl, nofun, .inr (.inl rfl), ?_⟩
    simp only [goto, Pc.carries, Multiset.coe_nil]
    abel
  | unlock next =>
    obtain rfl := Option.some.inj hstep
    exact ⟨_, rfl, .inr (.inr ⟨rfl, rfl, rfl⟩), .inl rfl, nofun, .inl ⟨rfl, nofun⟩, rfl⟩
  | dispatch next =>
    cases next with
    | nil => cases hstep
    | cons handle next =>
      obtain rfl := Option.some.inj hstep
      refine ⟨_, rfl, .inl ⟨rfl, rfl⟩, .inl rfl, nofun, .inl ⟨rfl, nofun⟩, ?_⟩
      simp only [goto, Pc.carries, ← Multiset.coe_add, ← Multiset.cons_coe, ← Multiset.singleton_add,
        Multiset.coe_nil]
      abel
  | reset =>
    obtain rfl := Option.some.inj hstep
    exact ⟨_, rfl, .inl ⟨rfl, rfl⟩, .inr (.inl rfl), nofun, .inl ⟨rfl, nofun⟩, rfl⟩

/-! ## Runs -/

/-- The coroutine that the action lets wait. -/
def waits : Action κ → List κ
  | .await handle => [handle]
  | _ => []

/-- A new call has no lock, and its coroutine if it is one that waits. -/
theorem act_made {a : Action κ} (hact : s.act a = some s') (ha : ∀ i, a ≠ .step i) :
    ∃ pc, s' = s.makeCall pc ∧ pc.holds = false ∧ pc.carries = waits a := by
  cases a with
  | step i => exact absurd rfl (ha i)
  | await | notify | reset =>
    obtain rfl := Option.some.inj hact
    exact ⟨_, rfl, rfl, rfl⟩

/-- Every action keeps the invariant, and only `await` brings a coroutine. -/
theorem Inv.step (h : Inv s) (a : Action κ) : Inv (s.step a) ∧ (s.step a).seen = s.seen + waits a := by
  unfold Event.step
  by_cases ha : ∃ i, a = .step i
  · obtain ⟨i, rfl⟩ := ha
    cases hact : s.act (.step i) with
    | none => exact ⟨h, (add_zero _).symm⟩
    | some s' =>
      obtain ⟨pc, hi, hstep⟩ := Option.bind_eq_some_iff.1 hact
      obtain ⟨pc', m⟩ := moves hstep
      refine ⟨m.inv h hi, ?_⟩
      rw [Option.getD_some, m.seen_eq hi]
      exact (add_zero _).symm
  · cases hact : s.act a with
    | none =>
      cases a with
      | step i => exact absurd ⟨i, rfl⟩ ha
      | _ => cases hact
    | some s' =>
      obtain ⟨pc, rfl, hholds, hcarries⟩ := act_made hact (not_exists.1 ha)
      have hold : ∀ d ∈ s.calls ++ [pc], d.holds = true → d ∈ s.calls := by
        intro d hd hd'
        rcases List.mem_append.1 hd with hd | hd
        · exact hd
        · obtain rfl := List.mem_singleton.1 hd
          rw [hholds] at hd'
          cases hd'
      refine ⟨⟨h.locked.made hholds, fun handle hd => ?_, fun hsignaled => ?_⟩, ?_⟩
      · exact h.unsignaled handle (hold _ hd rfl)
      · exact (h.woken hsignaled).imp_right fun hd => List.mem_append_left _ hd
      · simp only [Option.getD_some, makeCall, seen, waiting, weight_made, hcarries]
        abel

theorem inv_run (acts : List (Action κ)) : Inv (run acts) :=
  invariant (fun _ s => Inv s) ⟨locked_nil, by simp [new], by simp [new]⟩ (fun _ _ a h => (h.step a).1) acts

/-- Nothing has been signaled, and no call is about to. -/
structure Silent (s : Event κ) : Prop where
  signaled : s.signaled = false
  passed : s.passed = []
  dispatched : s.dispatched = []
  calls : ∀ pc ∈ s.calls, pc ≠ .lockNotify ∧ pc ≠ .store ∧ pc ≠ .swap ∧
    ∀ handle next, pc ≠ .unlock (handle :: next) ∧ pc ≠ .dispatch (handle :: next)

/-- Without a `notify`, nothing is signaled. -/
theorem Silent.step (q : Silent s) {a : Action κ} (ha : a ≠ .notify) : Silent (s.step a) := by
  unfold Event.step
  cases hact : s.act a with
  | none => exact q
  | some s' =>
    rw [Option.getD_some]
    cases a with
    | notify => exact absurd rfl ha
    | await | reset =>
      obtain rfl := Option.some.inj hact
      refine ⟨q.signaled, q.passed, q.dispatched, fun pc hpc => ?_⟩
      rcases List.mem_append.1 hpc with hpc | hpc
      · exact q.calls pc hpc
      · obtain rfl := List.mem_singleton.1 hpc
        exact ⟨nofun, nofun, nofun, fun _ _ => ⟨nofun, nofun⟩⟩
    | step i =>
      obtain ⟨pc, hi, hstep⟩ := Option.bind_eq_some_iff.1 hact
      have hpc := q.calls pc (List.mem_of_getElem? hi)
      -- where the call goes on, it is no notify, and has no coroutine to dispatch
      have hgoes : ∀ (u : Event κ) (pc' : Pc κ), u.calls = s.calls → u.signaled = false → u.passed = [] →
          u.dispatched = [] → (pc' ≠ .lockNotify ∧ pc' ≠ .store ∧ pc' ≠ .swap ∧
            ∀ handle next, pc' ≠ .unlock (handle :: next) ∧ pc' ≠ .dispatch (handle :: next)) →
          Silent (u.goto i pc') := by
        intro u pc' hcalls hsignaled hpassed hdispatched hpc'
        refine ⟨hsignaled, hpassed, hdispatched, fun d hd => ?_⟩
        rw [goto, hcalls] at hd
        rcases List.mem_or_eq_of_mem_set hd with hd | rfl
        · exact q.calls d hd
        · exact hpc'
      cases pc with
      | ready handle =>
        simp only [stepCall, q.signaled, Bool.false_eq_true, if_false, Option.some.injEq] at hstep
        subst hstep
        exact hgoes s _ rfl q.signaled q.passed q.dispatched ⟨nofun, nofun, nofun, fun _ _ => ⟨nofun, nofun⟩⟩
      | check handle | recheck handle =>
        simp only [stepCall, q.signaled, Bool.false_eq_true, if_false, Option.some.injEq] at hstep
        subst hstep
        exact hgoes s _ rfl q.signaled q.passed q.dispatched ⟨nofun, nofun, nofun, fun _ _ => ⟨nofun, nofun⟩⟩
      | lockAwait handle =>
        simp only [stepCall, acquireLock] at hstep
        split at hstep
        · obtain rfl := Option.some.inj hstep
          exact hgoes { s with lock := some i } _ rfl q.signaled q.passed q.dispatched
            ⟨nofun, nofun, nofun, fun _ _ => ⟨nofun, nofun⟩⟩
        · cases hstep
      | push handle =>
        obtain rfl := Option.some.inj hstep
        exact hgoes { s with handles := s.handles ++ [handle] } _ rfl q.signaled q.passed q.dispatched
          ⟨nofun, nofun, nofun, fun _ _ => ⟨nofun, nofun⟩⟩
      | lockNotify => exact absurd rfl hpc.1
      | store => exact absurd rfl hpc.2.1
      | swap => exact absurd rfl hpc.2.2.1
      | unlock next =>
        obtain rfl := Option.some.inj hstep
        cases next with
        | nil =>
          exact hgoes { s with lock := none } _ rfl q.signaled q.passed q.dispatched
            ⟨nofun, nofun, nofun, fun _ _ => ⟨nofun, nofun⟩⟩
        | cons handle next => exact absurd rfl (hpc.2.2.2 handle next).1
      | dispatch next =>
        cases next with
        | nil => cases hstep
        | cons handle next => exact absurd rfl (hpc.2.2.2 handle next).2
      | reset =>
        obtain rfl := Option.some.inj hstep
        exact hgoes { s with signaled := false } _ rfl rfl q.passed q.dispatched
          ⟨nofun, nofun, nofun, fun _ _ => ⟨nofun, nofun⟩⟩

/-- What an event is for. -/
structure Wakes (acts : List (Action κ)) : Prop where
  /-- Every coroutine that awaits waits, or has gone on once. -/
  once : (run acts).seen = (acts.flatMap waits : List κ)
  /-- While the event is signaled and no call is left, nobody waits. -/
  woken : (∀ pc ∈ (run acts).calls, pc = .ended) → (run acts).signaled = true → (run acts).handles = []
  /-- Nobody goes on before a `notify`. -/
  early : .notify ∉ acts → (run acts).passed = [] ∧ (run acts).dispatched = []

theorem event_wakes (acts : List (Action κ)) : Wakes acts := by
  refine ⟨?_, fun hended hsignaled => ?_, fun hnotify => ?_⟩
  · induction acts using List.reverseRecOn with
    | nil => rfl
    | append_singleton acts a ih =>
      rw [run, List.foldl_concat, ← run, ((inv_run acts).step a).2, ih, List.flatMap_append, ← Multiset.coe_add,
        List.flatMap_singleton]
  · rcases (inv_run acts).woken hsignaled with hnil | hswap
    · exact hnil
    · cases hended _ hswap
  · have hsilent : Silent (run acts) := by
      induction acts using List.reverseRecOn with
      | nil => exact ⟨rfl, rfl, rfl, by simp [run, new]⟩
      | append_singleton acts a ih =>
        rw [List.mem_append, not_or, List.mem_singleton] at hnotify
        rw [run, List.foldl_concat]
        exact (ih hnotify.1).step (Ne.symm hnotify.2)
    exact ⟨hsilent.passed, hsilent.dispatched⟩

end Event
end NgxLuaCpp.IrisEvent
