import NgxLuaCpp.Lib.Monitor
import NgxLuaCpp.Lib.Trace
import Mathlib.Algebra.Order.Group.Multiset
import Mathlib.Data.Fin.VecNotation
import Mathlib.Data.Fintype.Pi
import Mathlib.Logic.Function.Basic
/-!
# The quota queue

An `iris_quota_t` is a number of quantities that calls take from one by one,
each by an atomic operation, and give back where a later one does not suffice.
An `iris_quota_queue_t` lets coroutines wait for what they ask, and a release
wakes the first of them that can have it. A retried CAS counts once.

A `resource_t` releases what it holds when it is cleared. What `acquire` or
`move` has given out, no resource holds: it is put into one or released by hand,
and we follow callers that do so with no more than they have.
-/
open Monitor Trace

namespace NgxLuaCpp.IrisQuota

/-- How much of each quantity. -/
abbrev Amount (n : Nat) := Fin n → Nat

/-- Who asks `iris_quota_t::acquire`. -/
inductive Caller (κ : Type*) where
  /-- `iris_quota_queue_t::acquire` and `guard`, outside the lock -/
  | acquire
  | guard (handle : κ)
  /-- `acquire_queued`, and `release` for the first that waits, under the lock -/
  | queued (handle : κ)
  | top
  deriving DecidableEq

/-- Where a call is. -/
inductive Pc (κ : Type*) (n : Nat) where
  /-- `iris_quota_t::acquire` at quantity `i`, and giving back quantity `k` of those before `i` -/
  | take (caller : Caller κ) (amount : Amount n) (i : Nat)
  | giveBack (caller : Caller κ) (amount : Amount n) (i k : Nat)
  /-- `acquire_queued` at its lock and at `push` -/
  | lockQueued (handle : κ) (amount : Amount n)
  | push (handle : κ) (amount : Amount n)
  /-- `iris_quota_t::release` at quantity `k`, and the loop of `release` at its lock and at `empty` -/
  | release (amount : Amount n) (k : Nat)
  | lockRelease
  | checkEmpty
  /-- the end of the lock; the loop goes on where a release has woken one -/
  | unlock (next : Option (κ × Amount n)) (loops : Bool)
  | dispatch (next : κ × Amount n) (loops : Bool)
  | ended

/-- `iris_quota_queue_t` over its `iris_quota_t`, with the calls under way and what is held. -/
structure Queue (κ : Type*) (n : Nat) where
  quantities : Amount n
  /-- `handles`, in the order they came -/
  handles : List (κ × Amount n)
  lock : Option Nat
  /-- coroutines queued to be resumed with what they asked for, and the resources held -/
  dispatched : List (κ × Amount n)
  held : List (κ × Amount n)
  /-- what callers have got and no resource holds -/
  loose : Amount n
  calls : List (Pc κ n)

/-- What can happen next: a call of the queue or of a resource begins, a coroutine is resumed,
or a call takes a step. -/
inductive Action (κ : Type*) (n : Nat) where
  | acquire (amount : Amount n)
  | guard (handle : κ) (amount : Amount n)
  /-- `release` of the queue itself -/
  | release (amount : Amount n)
  /-- the constructor of `resource_t`, its `acquire` and `release` of a part, `merge` of resource
  `k` into `j`, `move` and `clear` -/
  | makeResource (handle : κ) (amount : Amount n)
  | resourceAcquire (j : Nat) (delta : Amount n)
  | resourceRelease (j : Nat) (delta : Amount n)
  | merge (j k : Nat)
  | move (j : Nat)
  | clear (j : Nat)
  | resume (j : Nat)
  | step (i : Nat)

namespace Queue
variable {κ : Type*} {n : Nat}

/-- A queue as constructed, with all of the quota left. -/
def new (amount : Amount n) : Queue κ n :=
  { quantities := amount, handles := [], lock := none, dispatched := [], held := [], loose := 0, calls := [] }

/-- Call `i` goes on at `pc`. -/
def goto (s : Queue κ n) (i : Nat) (pc : Pc κ n) : Queue κ n := { s with calls := s.calls.set i pc }

/-- Call `i` takes the lock, if nobody has it. -/
def acquireLock (s : Queue κ n) (i : Nat) (pc : Pc κ n) : Option (Queue κ n) :=
  if s.lock = none then some ({ s with lock := some i }.goto i pc) else none

/-- `quantities[k] += amount[k]`, which is nothing where the source skips a zero -/
def add (quantities amount : Amount n) (k : Fin n) : Amount n :=
  Function.update quantities k (quantities k + amount k)

/-- What a caller does once it has all it asked for. -/
def acquired (s : Queue κ n) (i : Nat) (amount : Amount n) : Caller κ → Queue κ n
  | .acquire => { s with loose := s.loose + amount }.goto i .ended
  | .guard handle => { s with held := s.held ++ [(handle, amount)] }.goto i .ended
  | .queued handle => s.goto i (.unlock (some (handle, amount)) false)
  | .top =>
    match s.handles with
    | top :: handles => { s with handles := handles }.goto i (.unlock (some top) true)
    | [] => s.goto i (.unlock none false)

/-- What it does without. -/
def refused (amount : Amount n) : Caller κ → Pc κ n
  | .acquire => .ended
  | .guard handle => .lockQueued handle amount
  | .queued handle => .push handle amount
  | .top => .unlock none false

/-- The next step of a call, if it need not wait for the lock. -/
def stepCall (s : Queue κ n) (i : Nat) : Pc κ n → Option (Queue κ n)
  | .take caller amount k =>
    if h : k < n then
      if amount ⟨k, h⟩ = 0 then some (s.goto i (.take caller amount (k + 1)))
      else if s.quantities ⟨k, h⟩ < amount ⟨k, h⟩ then some (s.goto i (.giveBack caller amount k 0))
      else
        let quantities := Function.update s.quantities ⟨k, h⟩ (s.quantities ⟨k, h⟩ - amount ⟨k, h⟩)
        some ({ s with quantities := quantities }.goto i (.take caller amount (k + 1)))
    else some (s.acquired i amount caller)
  | .giveBack caller amount end_ k =>
    if h : k < end_ ∧ k < n then
      some ({ s with quantities := add s.quantities amount ⟨k, h.2⟩ }.goto i (.giveBack caller amount end_ (k + 1)))
    else some (s.goto i (refused amount caller))
  | .lockQueued handle amount => s.acquireLock i (.take (.queued handle) amount 0)
  | .push handle amount =>
    some ({ s with handles := s.handles ++ [(handle, amount)] }.goto i (.unlock none false))
  | .release amount k =>
    if h : k < n then
      some ({ s with quantities := add s.quantities amount ⟨k, h⟩ }.goto i (.release amount (k + 1)))
    else some (s.goto i .lockRelease)
  | .lockRelease => s.acquireLock i .checkEmpty
  | .checkEmpty =>
    match s.handles with
    | (_, amount) :: _ => some (s.goto i (.take .top amount 0))
    | [] => some (s.goto i (.unlock none false))
  | .unlock next loops =>
    match next with
    | some next => some ({ s with lock := none }.goto i (.dispatch next loops))
    | none => some ({ s with lock := none }.goto i .ended)
  | .dispatch next loops =>
    some ({ s with dispatched := s.dispatched ++ [next] }.goto i (if loops then .lockRelease else .ended))
  | .ended => none

def makeCall (s : Queue κ n) (pc : Pc κ n) : Queue κ n := { s with calls := s.calls ++ [pc] }

/-- The callers give up some of what no resource holds, if they have it. -/
def spend (s : Queue κ n) (amount : Amount n) : Option (Queue κ n) :=
  if ∀ k, amount k ≤ s.loose k then some { s with loose := fun k => s.loose k - amount k } else none

/-- An action, if it can be taken. -/
def act (s : Queue κ n) : Action κ n → Option (Queue κ n)
  | .acquire amount => some (s.makeCall (.take .acquire amount 0))
  | .guard handle amount => some (s.makeCall (.take (.guard handle) amount 0))
  | .release amount => do some ((← s.spend amount).makeCall (.release amount 0))
  | .makeResource handle amount => do
    let s ← s.spend amount
    some { s with held := s.held ++ [(handle, amount)] }
  | .resourceAcquire j delta => do
    let s ← s.spend delta
    let (handle, amount) ← s.held[j]?
    some { s with held := s.held.set j (handle, amount + delta) }
  | .resourceRelease j delta => do
    let (handle, amount) ← s.held[j]?
    if ∀ k, delta k ≤ amount k then
      some ({ s with held := s.held.set j (handle, fun k => amount k - delta k) }.makeCall (.release delta 0))
    else none
  | .merge j k => do
    let (handle, amount) ← s.held[j]?
    let (_, delta) ← s.held[k]?
    if j = k then none else some { s with held := (s.held.set j (handle, amount + delta)).eraseIdx k }
  | .move j => do
    let (_, amount) ← s.held[j]?
    some { s with held := s.held.eraseIdx j, loose := s.loose + amount }
  | .clear j => do
    let (_, amount) ← s.held[j]?
    some ({ s with held := s.held.eraseIdx j }.makeCall (.release amount 0))
  | .resume j => do
    let next ← s.dispatched[j]?
    some { s with dispatched := s.dispatched.eraseIdx j, held := s.held ++ [next] }
  | .step i => do s.stepCall i (← s.calls[i]?)

/-- An action, or nothing if it cannot be taken. -/
def step (s : Queue κ n) (a : Action κ n) : Queue κ n := (s.act a).getD s

/-- The quota after these actions. -/
def run (amount : Amount n) (acts : List (Action κ n)) : Queue κ n := acts.foldl step (new amount)

end Queue
/-! ## Nothing is given away twice -/

namespace Pc
variable {κ : Type*} {n : Nat}

/-- The call has the lock. -/
def holds : Pc κ n → Bool
  | .take (.queued _) _ _ | .take .top _ _ | .giveBack (.queued _) _ _ _ | .giveBack .top _ _ _ => true
  | .push .. | .checkEmpty | .unlock .. => true
  | _ => false

/-- What the call has of quantity `c`. -/
def has (c : Fin n) : Pc κ n → Nat
  | .take _ amount i => if c < i then amount c else 0
  | .giveBack _ amount end_ k => if k ≤ c ∧ c < end_ then amount c else 0
  | .release amount k => if k ≤ c then amount c else 0
  | .unlock (some next) _ | .dispatch next _ => next.2 c
  | _ => 0

/-- What the call asks for the first that waits. -/
def forTop : Pc κ n → Option (Amount n)
  | .take .top amount _ | .giveBack .top amount _ _ => some amount
  | _ => none

end Pc

namespace Queue
variable {κ : Type*} {n : Nat} {s s' : Queue κ n} {i : Nat} {pc pc' : Pc κ n}

/-- What the callers have of quantity `c`, or are about to be resumed with. -/
def given (s : Queue κ n) (c : Fin n) : Nat :=
  weight (fun x => x.2 c) s.dispatched + weight (fun x => x.2 c) s.held + s.loose c

/-- What is left, what the calls have and what the callers have of quantity `c`. -/
def total (s : Queue κ n) (c : Fin n) : Nat := s.quantities c + weight (Pc.has c) s.calls + s.given c

/-- The lock belongs to who is inside, and who takes for the first that waits takes what that
one asked for. -/
structure Inv (s : Queue κ n) : Prop where
  locked : Locked Pc.holds s.lock s.calls
  top : ∀ pc ∈ s.calls, ∀ amount, Pc.forTop pc = some amount → ∃ handle rest, s.handles = (handle, amount) :: rest

/-- What the next step of call `i` does: it goes from its place to another, in a queue that has
changed to the one given. -/
inductive Does (s : Queue κ n) (i : Nat) : Pc κ n → Queue κ n → Pc κ n → Prop
  | skips {caller : Caller κ} {amount : Amount n} {k : Nat} (hk : k < n) (hzero : amount ⟨k, hk⟩ = 0) :
      Does s i (.take caller amount k) s (.take caller amount (k + 1))
  | lacks {caller : Caller κ} {amount : Amount n} {k : Nat} (hk : k < n)
      (hlt : s.quantities ⟨k, hk⟩ < amount ⟨k, hk⟩) :
      Does s i (.take caller amount k) s (.giveBack caller amount k 0)
  | takes {caller : Caller κ} {amount : Amount n} {k : Nat} (hk : k < n)
      (hge : amount ⟨k, hk⟩ ≤ s.quantities ⟨k, hk⟩) :
      Does s i (.take caller amount k)
        { s with quantities := Function.update s.quantities ⟨k, hk⟩ (s.quantities ⟨k, hk⟩ - amount ⟨k, hk⟩) }
        (.take caller amount (k + 1))
  | acquires {amount : Amount n} {k : Nat} (hk : n ≤ k) :
      Does s i (.take .acquire amount k) { s with loose := s.loose + amount } .ended
  | guards {handle : κ} {amount : Amount n} {k : Nat} (hk : n ≤ k) :
      Does s i (.take (.guard handle) amount k) { s with held := s.held ++ [(handle, amount)] } .ended
  | retries {handle : κ} {amount : Amount n} {k : Nat} (hk : n ≤ k) :
      Does s i (.take (.queued handle) amount k) s (.unlock (some (handle, amount)) false)
  | pops {top : κ × Amount n} {handles : List (κ × Amount n)} {amount : Amount n} {k : Nat} (hk : n ≤ k)
      (h : s.handles = top :: handles) :
      Does s i (.take .top amount k) { s with handles := handles } (.unlock (some top) true)
  | popsNone {amount : Amount n} {k : Nat} (hk : n ≤ k) (h : s.handles = []) :
      Does s i (.take .top amount k) s (.unlock none false)
  | givesBack {caller : Caller κ} {amount : Amount n} {end_ k : Nat} (hk : k < end_ ∧ k < n) :
      Does s i (.giveBack caller amount end_ k) { s with quantities := add s.quantities amount ⟨k, hk.2⟩ }
        (.giveBack caller amount end_ (k + 1))
  | refuses {caller : Caller κ} {amount : Amount n} {end_ k : Nat} (hk : ¬ (k < end_ ∧ k < n)) :
      Does s i (.giveBack caller amount end_ k) s (refused amount caller)
  | locks {handle : κ} {amount : Amount n} (hfree : s.lock = none) :
      Does s i (.lockQueued handle amount) { s with lock := some i } (.take (.queued handle) amount 0)
  | pushes {handle : κ} {amount : Amount n} :
      Does s i (.push handle amount) { s with handles := s.handles ++ [(handle, amount)] } (.unlock none false)
  | releases {amount : Amount n} {k : Nat} (hk : k < n) :
      Does s i (.release amount k) { s with quantities := add s.quantities amount ⟨k, hk⟩ } (.release amount (k + 1))
  | released {amount : Amount n} {k : Nat} (hk : n ≤ k) : Does s i (.release amount k) s .lockRelease
  | locksRelease (hfree : s.lock = none) : Does s i .lockRelease { s with lock := some i } .checkEmpty
  | looks {top : κ × Amount n} {handles : List (κ × Amount n)} (h : s.handles = top :: handles) :
      Does s i .checkEmpty s (.take .top top.2 0)
  | looksNone (h : s.handles = []) : Does s i .checkEmpty s (.unlock none false)
  | unlocks {next : κ × Amount n} {loops : Bool} :
      Does s i (.unlock (some next) loops) { s with lock := none } (.dispatch next loops)
  | leaves {loops : Bool} : Does s i (.unlock none loops) { s with lock := none } .ended
  | dispatches {next : κ × Amount n} :
      Does s i (.dispatch next false) { s with dispatched := s.dispatched ++ [next] } .ended
  | loops {next : κ × Amount n} :
      Does s i (.dispatch next true) { s with dispatched := s.dispatched ++ [next] } .lockRelease

theorem acquireLock_eq_some (h : s.acquireLock i pc' = some s') :
    s.lock = none ∧ s' = ({ s with lock := some i } : Queue κ n).goto i pc' := by
  unfold acquireLock at h
  split at h
  · next hfree => exact ⟨hfree, (Option.some.inj h).symm⟩
  · cases h

/-- Every step of a call is one of these. -/
theorem stepCall_does (hstep : s.stepCall i pc = some s') :
    ∃ u pc', Does s i pc u pc' ∧ s' = u.goto i pc' := by
  cases pc with
  | take caller amount k =>
    simp only [stepCall] at hstep
    split at hstep
    · next hk =>
      split at hstep
      · next hzero => exact ⟨_, _, .skips hk hzero, (Option.some.inj hstep).symm⟩
      · split at hstep
        · next hlt => exact ⟨_, _, .lacks hk hlt, (Option.some.inj hstep).symm⟩
        · next hge => exact ⟨_, _, .takes hk (Nat.not_lt.1 hge), (Option.some.inj hstep).symm⟩
    · next hk =>
      obtain rfl := Option.some.inj hstep
      have hn : n ≤ k := Nat.not_lt.1 hk
      cases caller with
      | acquire => exact ⟨_, _, .acquires hn, rfl⟩
      | guard handle => exact ⟨_, _, .guards hn, rfl⟩
      | queued handle => exact ⟨_, _, .retries hn, rfl⟩
      | top =>
        cases heq : s.handles with
        | nil => exact ⟨_, _, .popsNone hn heq, by rw [acquired, heq]⟩
        | cons top handles => exact ⟨_, _, .pops hn heq, by rw [acquired, heq]⟩
  | giveBack caller amount end_ k =>
    simp only [stepCall] at hstep
    split at hstep
    · next hk => exact ⟨_, _, .givesBack hk, (Option.some.inj hstep).symm⟩
    · next hk => exact ⟨_, _, .refuses hk, (Option.some.inj hstep).symm⟩
  | lockQueued handle amount =>
    obtain ⟨hfree, heq⟩ := acquireLock_eq_some hstep
    exact ⟨_, _, .locks hfree, heq⟩
  | push handle amount => exact ⟨_, _, .pushes, (Option.some.inj hstep).symm⟩
  | release amount k =>
    simp only [stepCall] at hstep
    split at hstep
    · next hk => exact ⟨_, _, .releases hk, (Option.some.inj hstep).symm⟩
    · next hk => exact ⟨_, _, .released (Nat.not_lt.1 hk), (Option.some.inj hstep).symm⟩
  | lockRelease =>
    obtain ⟨hfree, heq⟩ := acquireLock_eq_some hstep
    exact ⟨_, _, .locksRelease hfree, heq⟩
  | checkEmpty =>
    simp only [stepCall] at hstep
    split at hstep
    · next heq => exact ⟨_, _, .looks heq, (Option.some.inj hstep).symm⟩
    · next heq => exact ⟨_, _, .looksNone heq, (Option.some.inj hstep).symm⟩
  | unlock next loops =>
    cases next with
    | none => exact ⟨_, _, .leaves, (Option.some.inj hstep).symm⟩
    | some next => exact ⟨_, _, .unlocks, (Option.some.inj hstep).symm⟩
  | dispatch next loops =>
    obtain rfl := Option.some.inj hstep
    cases loops with
    | true => exact ⟨_, _, .loops, rfl⟩
    | false => exact ⟨_, _, .dispatches, rfl⟩
  | ended => cases hstep

/-- What a step of call `i` from `pc` keeps, where it goes on at `pc'`. -/
structure Moves (s : Queue κ n) (i : Nat) (pc pc' : Pc κ n) (s' : Queue κ n) : Prop where
  calls : s'.calls = s.calls.set i pc'
  lock : LockStep Pc.holds i pc pc' s.lock s'.lock
  handles : s'.handles = s.handles ∨ pc.holds = true ∧ pc'.forTop = none
  top : ∀ amount, pc'.forTop = some amount → pc.forTop = some amount ∨
    ∃ handle rest, s'.handles = (handle, amount) :: rest
  total : ∀ c, s'.quantities c + pc'.has c + s'.given c = s.quantities c + pc.has c + s.given c

theorem holds_of_forTop {amount : Amount n} (h : pc.forTop = some amount) : pc.holds = true := by
  cases pc with
  | take caller | giveBack caller =>
    cases caller with
    | top => rfl
    | _ => cases h
  | _ => cases h

/-- A step that moves so keeps the invariant. -/
theorem Moves.inv (m : Moves s i pc pc' s') (h : Inv s) (hi : s.calls[i]? = some pc) : Inv s' := by
  refine ⟨?_, ?_⟩
  · rw [m.calls]
    exact h.locked.step hi m.lock
  · intro d hd amount hd'
    obtain ⟨k, hk⟩ := List.mem_iff_getElem?.1 hd
    rw [m.calls] at hk
    rcases (getElem?_moved hi).1 hk with ⟨-, rfl⟩ | ⟨hne, hk⟩
    · rcases m.top amount hd' with hpc | htop
      · rcases m.handles with heq | ⟨-, hnone⟩
        · rw [heq]
          exact h.top pc (List.mem_of_getElem? hi) amount hpc
        · rw [hnone] at hd'
          cases hd'
      · exact htop
    · rcases m.handles with heq | ⟨hpc, -⟩
      · rw [heq]
        exact h.top d (List.mem_of_getElem? hk) amount hd'
      · exact absurd (h.locked.unique hk (holds_of_forTop hd') hi hpc) hne

theorem Moves.total_eq (m : Moves s i pc pc' s') (hi : s.calls[i]? = some pc) (c : Fin n) : s'.total c = s.total c := by
  have hweight := weight_moved (f := Pc.has c) (q := pc') hi
  have htotal := m.total c
  rw [Queue.total, Queue.total, m.calls]
  omega

/-- A step that only moves the call. -/
theorem Moves.of_goto (hholds : pc'.holds = pc.holds)
    (htop : ∀ amount, pc'.forTop = some amount → pc.forTop = some amount ∨
      ∃ handle rest, s.handles = (handle, amount) :: rest)
    (hhas : ∀ c, pc'.has c = pc.has c) : Moves s i pc pc' (s.goto i pc') where
  calls := rfl
  lock := .inl ⟨hholds, rfl⟩
  handles := .inl rfl
  top := htop
  total c := by
    rw [hhas]
    rfl

/-- A step that adds what the call has of quantity `k` to it. -/
theorem Moves.of_add {amount : Amount n} {k : Fin n} (hholds : pc'.holds = pc.holds) (htop : pc'.forTop = pc.forTop)
    (hhas : pc.has k = amount k ∧ pc'.has k = 0) (hother : ∀ c, c ≠ k → pc'.has c = pc.has c) :
    Moves s i pc pc' ({ s with quantities := add s.quantities amount k }.goto i pc') where
  calls := rfl
  lock := .inl ⟨hholds, rfl⟩
  handles := .inl rfl
  top _ h := .inl (htop ▸ h)
  total c := by
    rcases eq_or_ne c k with rfl | hne
    · simp only [goto, given, add, Function.update_self, hhas.1, hhas.2]
      omega
    · simp only [goto, given, add, Function.update_of_ne hne, hother c hne]

/-- While `acquire` is under way it has taken all before quantity `k`. -/
theorem has_take_succ {caller : Caller κ} {amount : Amount n} {k : Nat} {c : Fin n} (hc : (c : Nat) ≠ k) :
    (Pc.take caller amount (k + 1)).has c = (Pc.take caller amount k).has c := by
  have hlt : (c : Nat) < k + 1 ↔ (c : Nat) < k := by omega
  simp only [Pc.has, hlt]

theorem has_take_end {caller : Caller κ} {amount : Amount n} {k : Nat} (hk : n ≤ k) (c : Fin n) :
    (Pc.take caller amount k).has c = amount c := if_pos (c.isLt.trans_le hk)

/-- Every step of a call moves so. -/
theorem Inv.moves {u : Queue κ n} (h : Inv s) (hi : s.calls[i]? = some pc) (hdoes : Does s i pc u pc') :
    Moves s i pc pc' (u.goto i pc') := by
  cases hdoes with
  | @skips caller amount k hk hzero =>
    refine .of_goto ?_ ?_ fun c => ?_
    · cases caller with
      | _ => rfl
    · intro a ha
      cases caller with
      | top => exact .inl ha
      | _ => cases ha
    · rcases eq_or_ne (c : Nat) k with rfl | hc
      · simp [Pc.has, hzero]
      · exact has_take_succ hc
  | @lacks caller amount k hk hlt =>
    refine .of_goto ?_ ?_ fun c => ?_
    · cases caller with
      | _ => rfl
    · intro a ha
      cases caller with
      | top => exact .inl ha
      | _ => cases ha
    · simp [Pc.has]
  | @takes caller amount k hk hge =>
    refine ⟨rfl, .inl ⟨?_, rfl⟩, .inl rfl, ?_, fun c => ?_⟩
    · cases caller with
      | _ => rfl
    · intro a ha
      cases caller with
      | top => exact .inl ha
      | _ => cases ha
    · rcases eq_or_ne c ⟨k, hk⟩ with rfl | hc
      · simp only [goto, given, Function.update_self, Pc.has, lt_irrefl, Nat.lt_succ_self, if_true, if_false]
        omega
      · have hne : (c : Nat) ≠ k := fun h => hc (Fin.ext h)
        simp only [goto, given, Function.update_of_ne hc, has_take_succ hne]
  | acquires hk =>
    refine ⟨rfl, .inl ⟨rfl, rfl⟩, .inl rfl, nofun, fun c => ?_⟩
    rw [has_take_end hk]
    simp only [goto, given, Pc.has, Pi.add_apply]
    omega
  | guards hk =>
    refine ⟨rfl, .inl ⟨rfl, rfl⟩, .inl rfl, nofun, fun c => ?_⟩
    rw [has_take_end hk]
    simp only [goto, given, weight_made, Pc.has]
    omega
  | retries hk => exact .of_goto rfl nofun fun c => (has_take_end hk c).symm
  | @pops top handles amount k hk heq =>
    obtain ⟨handle, rest, heq'⟩ := h.top _ (List.mem_of_getElem? hi) amount rfl
    rw [heq] at heq'
    obtain ⟨rfl, -⟩ := List.cons.inj heq'
    refine ⟨rfl, .inl ⟨rfl, rfl⟩, .inr ⟨rfl, rfl⟩, nofun, fun c => ?_⟩
    rw [has_take_end hk]
    rfl
  | @popsNone amount k hk heq =>
    obtain ⟨handle, rest, heq'⟩ := h.top _ (List.mem_of_getElem? hi) amount rfl
    rw [heq] at heq'
    cases heq'
  | @givesBack caller amount end_ k hk =>
    refine .of_add ?_ ?_ ⟨?_, ?_⟩ fun c hc => ?_
    · cases caller with
      | _ => rfl
    · cases caller with
      | _ => rfl
    · simp [Pc.has, hk.1]
    · simp [Pc.has]
    · have hne : (c : Nat) ≠ k := fun h => hc (Fin.ext h)
      have hiff : (k + 1 ≤ (c : Nat) ∧ (c : Nat) < end_) ↔ (k ≤ (c : Nat) ∧ (c : Nat) < end_) := by omega
      simp only [Pc.has, hiff]
  | @refuses caller amount end_ k hk =>
    refine .of_goto ?_ ?_ fun c => ?_
    · cases caller with
      | _ => rfl
    · cases caller with
      | _ => exact nofun
    · have hnone : ¬ (k ≤ (c : Nat) ∧ (c : Nat) < end_) := by omega
      cases caller with
      | _ => simp [Pc.has, refused, hnone]
  | locks hfree =>
    refine ⟨rfl, .inr (.inl ⟨hfree, rfl, rfl⟩), .inl rfl, nofun, fun c => ?_⟩
    simp [goto, given, Pc.has]
  | pushes => exact ⟨rfl, .inl ⟨rfl, rfl⟩, .inr ⟨rfl, rfl⟩, nofun, fun c => rfl⟩
  | @releases amount k hk =>
    refine .of_add rfl rfl ⟨?_, ?_⟩ fun c hc => ?_
    · simp [Pc.has]
    · simp [Pc.has]
    · have hne : (c : Nat) ≠ k := fun h => hc (Fin.ext h)
      have hiff : k + 1 ≤ (c : Nat) ↔ k ≤ (c : Nat) := by omega
      simp only [Pc.has, hiff]
  | @released amount k hk =>
    refine .of_goto rfl nofun fun c => ?_
    have hlt : ¬ k ≤ (c : Nat) := by omega
    simp [Pc.has, hlt]
  | locksRelease hfree => exact ⟨rfl, .inr (.inl ⟨hfree, rfl, rfl⟩), .inl rfl, nofun, fun c => rfl⟩
  | @looks top handles heq =>
    refine .of_goto rfl (fun a ha => .inr ?_) fun c => by simp [Pc.has]
    obtain rfl := Option.some.inj ha
    exact ⟨top.1, handles, heq⟩
  | looksNone => exact .of_goto rfl nofun fun c => rfl
  | unlocks | leaves => exact ⟨rfl, .inr (.inr ⟨rfl, rfl, rfl⟩), .inl rfl, nofun, fun c => rfl⟩
  | dispatches | loops =>
    refine ⟨rfl, .inl ⟨rfl, rfl⟩, .inl rfl, nofun, fun c => ?_⟩
    simp only [goto, given, weight_made, Pc.has]
    omega

/-- A new call has no lock. -/
theorem Inv.made (h : Inv s) (hcalls : s'.calls = s.calls ++ [pc]) (hlock : s'.lock = s.lock)
    (hhandles : s'.handles = s.handles) (hpc : pc.holds = false) : Inv s' := by
  refine ⟨?_, ?_⟩
  · rw [hcalls, hlock]
    exact h.locked.made hpc
  · intro d hd amount hd'
    rw [hhandles]
    rw [hcalls] at hd
    rcases List.mem_append.1 hd with hd | hd
    · exact h.top d hd amount hd'
    · obtain rfl := List.mem_singleton.1 hd
      rw [holds_of_forTop hd'] at hpc
      cases hpc

theorem spend_eq_some {amount : Amount n} (h : s.spend amount = some s') :
    s' = { s with loose := s'.loose } ∧ ∀ c, s'.loose c + amount c = s.loose c := by
  unfold spend at h
  split at h
  · next hle =>
    obtain rfl := Option.some.inj h
    exact ⟨rfl, fun c => Nat.sub_add_cancel (hle c)⟩
  · cases h

/-- What an action other than a step does: it may make a call, with what the callers give up. -/
theorem act_made {a : Action κ n} (hact : s.act a = some s') (ha : ∀ i, a ≠ .step i) :
    (s'.calls = s.calls ∨ ∃ pc, s'.calls = s.calls ++ [pc] ∧ pc.holds = false) ∧ s'.lock = s.lock ∧
      s'.handles = s.handles ∧ s'.quantities = s.quantities ∧ ∀ c, s'.total c = s.total c := by
  cases a with
  | acquire amount | guard handle amount =>
    obtain rfl := Option.some.inj hact
    refine ⟨.inr ⟨_, rfl, rfl⟩, rfl, rfl, rfl, fun c => ?_⟩
    simp [total, given, makeCall, weight_made, Pc.has]
  | release amount =>
    obtain ⟨u, hspend, hact⟩ := Option.bind_eq_some_iff.1 hact
    obtain rfl := Option.some.inj hact
    obtain ⟨heq, hloose⟩ := spend_eq_some hspend
    rw [heq]
    refine ⟨.inr ⟨_, rfl, rfl⟩, rfl, rfl, rfl, fun c => ?_⟩
    have hc := hloose c
    simp only [total, given, makeCall, weight_made, Pc.has, Nat.zero_le, if_true]
    omega
  | makeResource handle amount =>
    obtain ⟨u, hspend, hact⟩ := Option.bind_eq_some_iff.1 hact
    obtain rfl := Option.some.inj hact
    obtain ⟨heq, hloose⟩ := spend_eq_some hspend
    rw [heq]
    refine ⟨.inl rfl, rfl, rfl, rfl, fun c => ?_⟩
    have hc := hloose c
    simp only [total, given, weight_made]
    omega
  | resourceAcquire j delta =>
    obtain ⟨u, hspend, hact⟩ := Option.bind_eq_some_iff.1 hact
    obtain ⟨heq, hloose⟩ := spend_eq_some hspend
    rw [heq] at hact
    obtain ⟨⟨handle, amount⟩, hj, hact⟩ := Option.bind_eq_some_iff.1 hact
    obtain rfl := Option.some.inj hact
    refine ⟨.inl rfl, rfl, rfl, rfl, fun c => ?_⟩
    have hmoved := weight_moved (f := fun x : κ × Amount n => x.2 c) (q := (handle, amount + delta)) hj
    have hc := hloose c
    simp only [Pi.add_apply] at hmoved
    simp only [total, given]
    omega
  | resourceRelease j delta =>
    obtain ⟨⟨handle, amount⟩, hj, hact⟩ := Option.bind_eq_some_iff.1 hact
    simp only at hact
    split at hact
    · next hle =>
      obtain rfl := Option.some.inj hact
      refine ⟨.inr ⟨_, rfl, rfl⟩, rfl, rfl, rfl, fun c => ?_⟩
      have hmoved := weight_moved (f := fun x : κ × Amount n => x.2 c) (q := (handle, fun k => amount k - delta k)) hj
      have hc := hle c
      simp only [total, given, makeCall, weight_made, Pc.has, Nat.zero_le, if_true]
      simp only at hmoved
      omega
    · cases hact
  | merge j k =>
    obtain ⟨⟨handle, amount⟩, hj, hact⟩ := Option.bind_eq_some_iff.1 hact
    obtain ⟨⟨other, delta⟩, hk, hact⟩ := Option.bind_eq_some_iff.1 hact
    simp only at hact
    split at hact
    · cases hact
    · next hne =>
      obtain rfl := Option.some.inj hact
      refine ⟨.inl rfl, rfl, rfl, rfl, fun c => ?_⟩
      have hmoved := weight_moved (f := fun x : κ × Amount n => x.2 c) (q := (handle, amount + delta)) hj
      have hk' : (s.held.set j (handle, amount + delta))[k]? = some (other, delta) :=
        (getElem?_moved hj).2 (.inr ⟨fun h => hne h.symm, hk⟩)
      have herased := weight_eraseIdx (f := fun x : κ × Amount n => x.2 c) hk'
      simp only [Pi.add_apply] at hmoved
      simp only at herased
      simp only [total, given]
      omega
  | move j =>
    obtain ⟨⟨handle, amount⟩, hj, hact⟩ := Option.bind_eq_some_iff.1 hact
    obtain rfl := Option.some.inj hact
    refine ⟨.inl rfl, rfl, rfl, rfl, fun c => ?_⟩
    have herased := weight_eraseIdx (f := fun x : κ × Amount n => x.2 c) hj
    simp only at herased
    simp only [total, given, Pi.add_apply]
    omega
  | clear j =>
    obtain ⟨⟨handle, amount⟩, hj, hact⟩ := Option.bind_eq_some_iff.1 hact
    obtain rfl := Option.some.inj hact
    refine ⟨.inr ⟨_, rfl, rfl⟩, rfl, rfl, rfl, fun c => ?_⟩
    have herased := weight_eraseIdx (f := fun x : κ × Amount n => x.2 c) hj
    simp only [total, given, makeCall, weight_made, Pc.has, Nat.zero_le, if_true]
    simp only at herased
    omega
  | resume j =>
    obtain ⟨next, hj, hact⟩ := Option.bind_eq_some_iff.1 hact
    obtain rfl := Option.some.inj hact
    refine ⟨.inl rfl, rfl, rfl, rfl, fun c => ?_⟩
    have herased := weight_eraseIdx (f := fun x : κ × Amount n => x.2 c) hj
    simp only [total, given, weight_made]
    omega
  | step i => exact absurd rfl (ha i)

theorem Inv.act {a : Action κ n} (h : Inv s) (hact : s.act a = some s') :
    Inv s' ∧ ∀ c, s'.total c = s.total c := by
  by_cases ha : ∃ i, a = .step i
  · obtain ⟨i, rfl⟩ := ha
    obtain ⟨pc, hi, hstep⟩ := Option.bind_eq_some_iff.1 hact
    obtain ⟨u, pc', hdoes, rfl⟩ := stepCall_does hstep
    have m := h.moves hi hdoes
    exact ⟨m.inv h hi, m.total_eq hi⟩
  · obtain ⟨hcalls, hlock, hhandles, -, htotal⟩ := act_made hact (not_exists.1 ha)
    refine ⟨?_, htotal⟩
    rcases hcalls with hcalls | ⟨pc, hcalls, hpc⟩
    · exact ⟨by rw [hcalls, hlock]; exact h.locked, by rw [hcalls, hhandles]; exact h.top⟩
    · exact h.made hcalls hlock hhandles hpc

theorem inv_new (amount : Amount n) : Inv (new amount : Queue κ n) := ⟨locked_nil, by simp [new]⟩

theorem inv_run (amount : Amount n) (acts : List (Action κ n)) :
    Inv (run amount acts) ∧ ∀ c, (run amount acts).total c = amount c := by
  refine invariant (fun _ (s : Queue κ n) => Inv s ∧ ∀ c, s.total c = amount c) ⟨inv_new amount, fun c => ?_⟩ ?_ acts
  · simp [total, given, new, weight]
  · rintro _ s a ⟨h, htotal⟩
    unfold step
    cases hact : s.act a with
    | none => exact ⟨h, htotal⟩
    | some s' =>
      obtain ⟨h', htotal'⟩ := h.act hact
      exact ⟨h', fun c => (htotal' c).trans (htotal c)⟩

end Queue

/-! ## No wakeup is lost -/

namespace Pc
variable {κ : Type*} {n : Nat}

/-- The call is about to look after those that wait. -/
def wakes : Pc κ n → Bool
  | .release .. | .lockRelease | .checkEmpty | .take .top _ _ | .unlock (some _) true | .dispatch _ true => true
  | _ => false

/-- What the call has asked for and not got, and will wait for. -/
def enters : Pc κ n → Option (Amount n)
  | .giveBack (.queued _) amount _ _ | .push _ amount => some amount
  | _ => none

end Pc

namespace Queue
variable {κ : Type*} {n : Nat} {s s' : Queue κ n} {i : Nat} {pc pc' : Pc κ n}

/-- Some quantity does not suffice. -/
def Short (quantities amount : Amount n) : Prop := ∃ c, quantities c < amount c

/-- The step gives back some of what a failed `acquire` had taken. -/
def givesBack (s : Queue κ n) : Action κ n → Bool
  | .step i =>
    match s.calls[i]? with
    | some (.giveBack _ amount end_ k) => if h : k < end_ ∧ k < n then amount ⟨k, h.2⟩ != 0 else false
    | _ => false
  | _ => false

/-- Those that wait lack something, or a release is about to look after them. -/
structure Wakes (s : Queue κ n) : Prop where
  head : ∀ top rest, s.handles = top :: rest → Short s.quantities top.2 ∨ ∃ pc ∈ s.calls, pc.wakes = true
  enters : ∀ pc ∈ s.calls, ∀ amount, pc.enters = some amount → s.handles = [] →
    Short s.quantities amount ∨ ∃ pc ∈ s.calls, pc.wakes = true

theorem Short.of_le {quantities quantities' amount : Amount n} (h : Short quantities amount)
    (hle : ∀ c, quantities' c ≤ quantities c) : Short quantities' amount :=
  h.imp fun c hc => (hle c).trans_lt hc

theorem holds_of_enters {amount : Amount n} (h : pc.enters = some amount) : pc.holds = true := by
  cases pc with
  | giveBack caller =>
    cases caller with
    | queued => rfl
    | _ => cases h
  | push => rfl
  | _ => cases h

/-- A release is on its way after the step. -/
theorem Wakes.of_wakes (hi : s.calls[i]? = some pc) (hcalls : s'.calls = s.calls.set i pc') (hpc' : pc'.wakes = true) :
    Wakes s' := by
  have hwakes : ∃ d ∈ s'.calls, d.wakes = true := ⟨pc', hcalls ▸ mem_moved hi, hpc'⟩
  exact ⟨fun _ _ _ => .inr hwakes, fun _ _ _ _ _ => .inr hwakes⟩

/-- A step that leaves those that wait, and adds to no quantity. -/
theorem Wakes.of_le (w : Wakes s) (hi : s.calls[i]? = some pc) (hcalls : s'.calls = s.calls.set i pc')
    (hle : ∀ c, s'.quantities c ≤ s.quantities c) (hhandles : s'.handles = s.handles)
    (hwakes : pc.wakes = true → pc'.wakes = true)
    (henters : ∀ amount, pc'.enters = some amount → pc.enters = some amount ∨ Short s'.quantities amount) :
    Wakes s' := by
  have hgoes : (∃ d ∈ s.calls, d.wakes = true) → ∃ d ∈ s'.calls, d.wakes = true := by
    intro h
    rw [hcalls]
    exact exists_moved hi h hwakes
  refine ⟨?_, ?_⟩
  · intro top rest heq
    exact (w.head top rest (hhandles ▸ heq)).imp (fun h => h.of_le hle) hgoes
  · intro d hd amount hd' hnil
    have hold : ∀ d ∈ s.calls, d.enters = some amount → Short s'.quantities amount ∨ ∃ d ∈ s'.calls, d.wakes = true :=
      fun d hd hd' => (w.enters d hd amount hd' (hhandles ▸ hnil)).imp (fun h => h.of_le hle) hgoes
    rw [hcalls] at hd
    rcases List.mem_or_eq_of_mem_set hd with hd | rfl
    · exact hold d hd hd'
    · rcases henters amount hd' with hpc | hshort
      · exact hold pc (List.mem_of_getElem? hi) hpc
      · exact .inl hshort

/-- A call that has the lock, and neither asks for the first that waits nor enters, answers for the head alone. -/
theorem Wakes.of_holds (h : Inv s) (hi : s.calls[i]? = some pc) (hcalls : s'.calls = s.calls.set i pc')
    (hpc : pc.holds = true) (henters : pc'.enters = none)
    (hhead : ∀ top rest, s'.handles = top :: rest → Short s'.quantities top.2 ∨ ∃ d ∈ s'.calls, d.wakes = true) :
    Wakes s' := by
  refine ⟨hhead, ?_⟩
  intro d hd amount hd' hnil
  rw [hcalls] at hd
  obtain rfl := h.locked.alone hi hpc hd (holds_of_enters hd')
  rw [henters] at hd'
  cases hd'

/-- A step of a call leaves those that wait short of something, or a release about to see to
them. -/
theorem Wakes.does {u : Queue κ n} (w : Wakes s) (h : Inv s) (hi : s.calls[i]? = some pc)
    (hback : s.givesBack (.step i) = false) (hdoes : Does s i pc u pc') : Wakes (u.goto i pc') := by
  cases hdoes with
  | @skips caller =>
    refine w.of_le hi rfl (fun c => le_rfl) rfl ?_ nofun
    cases caller with
    | _ => exact id
  | @lacks caller amount k hk hlt =>
    have hshort : Short s.quantities amount := ⟨⟨k, hk⟩, hlt⟩
    cases caller with
    | top =>
      obtain ⟨handle, rest, heq⟩ := h.top _ (List.mem_of_getElem? hi) amount rfl
      refine .of_holds h hi rfl rfl rfl fun top rest' heq' => .inl ?_
      change s.handles = _ at heq'
      rw [heq] at heq'
      obtain ⟨rfl, -⟩ := List.cons.inj heq'
      exact hshort
    | queued handle =>
      refine w.of_le hi rfl (fun c => le_rfl) rfl nofun fun a ha => .inr ?_
      obtain rfl := Option.some.inj ha
      exact hshort
    | acquire | guard handle => exact w.of_le hi rfl (fun c => le_rfl) rfl nofun nofun
  | @takes caller amount k hk hge =>
    refine w.of_le hi rfl (fun c => ?_) rfl ?_ nofun
    · rcases eq_or_ne c ⟨k, hk⟩ with rfl | hc
      · simp [goto]
      · simp [goto, Function.update_of_ne hc]
    · cases caller with
      | _ => exact id
  | pops | looks | releases | released | locksRelease | loops => exact .of_wakes hi rfl rfl
  | @popsNone amount k hk heq =>
    obtain ⟨handle, rest, heq'⟩ := h.top _ (List.mem_of_getElem? hi) amount rfl
    rw [heq] at heq'
    cases heq'
  | @givesBack caller amount end_ k hk =>
    have hzero : amount ⟨k, hk.2⟩ = 0 := by
      simpa [Queue.givesBack, hi, hk] using hback
    refine w.of_le hi rfl (fun c => ?_) rfl nofun fun a ha => .inl ?_
    · rcases eq_or_ne c ⟨k, hk.2⟩ with rfl | hc
      · simp [goto, add, hzero]
      · simp [goto, add, Function.update_of_ne hc]
    · cases caller with
      | queued => exact ha
      | _ => cases ha
  | @refuses caller =>
    refine w.of_le hi rfl (fun c => le_rfl) rfl nofun fun a ha => .inl ?_
    cases caller with
    | queued => exact ha
    | _ => cases ha
  | @pushes handle amount =>
    refine .of_holds h hi rfl rfl rfl fun top rest heq => ?_
    have hgoes : (∃ d ∈ s.calls, d.wakes = true) → ∃ d ∈ s.calls.set i (.unlock none false), d.wakes = true :=
      fun hd => exists_moved hi hd nofun
    change s.handles ++ _ = _ at heq
    cases hnil : s.handles with
    | nil =>
      rw [hnil] at heq
      obtain ⟨rfl, -⟩ := List.cons.inj heq
      exact (w.enters _ (List.mem_of_getElem? hi) amount rfl hnil).imp_right hgoes
    | cons top' rest' =>
      rw [hnil] at heq
      obtain ⟨rfl, -⟩ := List.cons.inj heq
      exact (w.head _ _ hnil).imp_right hgoes
  | looksNone hnil =>
    refine .of_holds h hi rfl rfl rfl fun top rest heq => ?_
    change s.handles = _ at heq
    rw [hnil] at heq
    cases heq
  | @unlocks next loops =>
    refine w.of_le hi rfl (fun c => le_rfl) rfl ?_ nofun
    cases loops with
    | _ => exact id
  | acquires | guards | retries | locks | leaves | dispatches => exact w.of_le hi rfl (fun c => le_rfl) rfl nofun nofun

/-- Every action leaves those that wait short of something, or a release about to see to them.
-/
theorem Wakes.act {a : Action κ n} (w : Wakes s) (h : Inv s) (hback : s.givesBack a = false)
    (hact : s.act a = some s') : Wakes s' := by
  by_cases ha : ∃ i, a = .step i
  · obtain ⟨i, rfl⟩ := ha
    obtain ⟨pc, hi, hstep⟩ := Option.bind_eq_some_iff.1 hact
    obtain ⟨u, pc', hdoes, rfl⟩ := stepCall_does hstep
    exact w.does h hi hback hdoes
  · obtain ⟨hcalls, -, hhandles, hquantities, -⟩ := act_made hact (not_exists.1 ha)
    have hgoes : (∃ d ∈ s.calls, d.wakes = true) → ∃ d ∈ s'.calls, d.wakes = true := by
      rintro ⟨d, hd, hwakes⟩
      refine ⟨d, ?_, hwakes⟩
      rcases hcalls with hcalls | ⟨pc, hcalls, -⟩
      · exact hcalls ▸ hd
      · exact hcalls ▸ List.mem_append_left _ hd
    refine ⟨?_, ?_⟩
    · intro top rest heq
      rw [hhandles] at heq
      rw [hquantities]
      exact (w.head top rest heq).imp_right hgoes
    · intro d hd amount hd' hnil
      rw [hhandles] at hnil
      rw [hquantities]
      rcases hcalls with hcalls | ⟨pc, hcalls, hpc⟩
      · exact (w.enters d (hcalls ▸ hd) amount hd' hnil).imp_right hgoes
      · rw [hcalls] at hd
        rcases List.mem_append.1 hd with hd | hd
        · exact (w.enters d hd amount hd' hnil).imp_right hgoes
        · obtain rfl := List.mem_singleton.1 hd
          rw [holds_of_enters hd'] at hpc
          cases hpc

theorem wakes_run {amount : Amount n} {acts : List (Action κ n)}
    (h : Each (fun pre a => (run amount pre).givesBack a = false) acts) : Wakes (run amount acts) := by
  induction acts using List.reverseRecOn with
  | nil => exact ⟨by simp [run, new], by simp [run, new]⟩
  | append_singleton acts a ih =>
    obtain ⟨hacts, ha⟩ := each_concat.1 h
    have w := ih hacts
    rw [run, List.foldl_concat, ← run, step]
    cases hact : (run amount acts).act a with
    | none => exact w
    | some s' => exact w.act (inv_run amount acts).1 ha hact

/-- Where no call is left and no `acquire` ever gave something back, the first that waits cannot
have what it asks. -/
theorem quota_wakes (amount : Amount n) (acts : List (Action κ n))
    (h : Each (fun pre a => (run amount pre).givesBack a = false) acts)
    (hended : ∀ pc ∈ (run amount acts).calls, pc = .ended) :
    ∀ top ∈ (run amount acts).handles.head?, Short (run amount acts).quantities top.2 := by
  intro top htop
  obtain ⟨rest, heq⟩ := List.head?_eq_some_iff.1 htop
  rcases (wakes_run h).head top rest heq with hshort | ⟨pc, hpc, hwakes⟩
  · exact hshort
  · rw [hended pc hpc] at hwakes
    cases hwakes

/-- Of five, three are held, and who asks for four waits. -/
def waitsForFour : List (Action Nat 1) :=
  [.guard 1 fun _ => 3, .step 0, .step 0, .guard 2 fun _ => 4] ++ List.replicate 8 (.step 1)

theorem four_short : (run (fun _ => 5) waitsForFour).handles = [(2, fun _ => 4)] ∧
    ∀ top ∈ (run (fun _ => 5) waitsForFour).handles.head?, Short (run (fun _ => 5) waitsForFour).quantities top.2 := by
  refine ⟨rfl, quota_wakes _ _ ?_ ?_⟩
  · decide +kernel
  · have hcalls : (run (fun _ => 5) waitsForFour).calls = [.ended, .ended] := rfl
    simp [hcalls]

/-- Of one and one, a release of the first finds it taken, for a moment, by who also asks for the second. -/
def takenForAMoment : List (Action Nat 2) :=
  List.flatten [[.guard 1 ![1, 0]], List.replicate 3 (.step 0), [.guard 2 ![1, 0]], List.replicate 8 (.step 1),
    [.guard 3 ![0, 1]], List.replicate 3 (.step 2), [.clear 0], List.replicate 3 (.step 3),
    [.guard 4 ![1, 1], .step 4, .step 4], List.replicate 6 (.step 3), List.replicate 12 (.step 4)]

theorem first_left_waiting : (run ![1, 1] takenForAMoment).handles.head? = some (2, ![1, 0]) ∧
    (run ![1, 1] takenForAMoment).quantities = ![1, 0] := by
  decide +kernel

end Queue
end NgxLuaCpp.IrisQuota
