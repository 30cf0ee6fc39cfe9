import NgxLuaCpp.Lib.Monitor
import Mathlib.Algebra.Order.Group.Multiset
/-!
# The barrier

The coroutines of an `iris_barrier_t` go on together: each awaits the others, or
leaves by `release`. Each atomic operation of the calls is a step, and so is what
`complete` does with one entry of `handles`.

`complete` is not made for two threads at once: it collects in a member. It is
begun again before it is over if the coroutines it has just queued come back and
are faster than its last lines. And a call that has counted itself in compares what
it counted to with `max_await_count` later: if the barrier has completed and shrunk
meanwhile, the two may be equal again. We show that the barrier does what it is for
in the runs where neither happens.
-/
open Monitor

namespace NgxLuaCpp.IrisBarrier

/-- Where a call is. -/
inductive Pc (κ : Type) where
  /-- `await_suspend` at `slot_count`, at `handles[index]` and at `commit_count` -/
  | slot (handle : κ)
  | write (handle : κ) (index : Nat)
  | commit
  /-- `release` at `release_await_count` and at `commit_count` -/
  | release (count : Nat)
  | commitRelease (count : Nat)
  /-- either at the load of `max_await_count`, having counted to `count` -/
  | compare (count : Nat)
  /-- `complete` at `commit_count`, `slot_count` and `max_await_count` -/
  | exchange
  | resetSlot
  | loadMax
  | exchangeRelease (last : Nat)
  | storeMax (last released : Nat)
  /-- `complete` at `snapshot.clear()`, at `handles[i]`, with coroutines to dispatch, and at the last `clear` -/
  | clear (last : Nat)
  | copy (last i : Nat)
  | dispatch (next : List κ)
  | clearLast
  | ended
  deriving DecidableEq

/-- `iris_barrier_t` with the calls under way, and where each coroutine is. -/
structure Barrier (κ : Type) where
  maxAwaitCount : Nat
  slotCount : Nat
  commitCount : Nat
  releaseAwaitCount : Nat
  handles : List (Option κ)
  snapshot : List κ
  /-- the coroutines that run, those queued to be resumed, and those that have left -/
  running : List κ
  dispatched : List κ
  left : List κ
  calls : List (Pc κ)

/-- What can happen next: a coroutine awaits or leaves, a call takes a step, or a worker resumes
a coroutine. -/
inductive Action (κ : Type) where
  /-- A coroutine that runs awaits. -/
  | await (handle : κ)
  /-- Some leave, or one of them for all. -/
  | release (leaving : List κ)
  /-- the next step of a call -/
  | step (i : Nat)
  /-- a worker resumes a coroutine -/
  | resume (handle : κ)

namespace Barrier
variable {κ : Type} [DecidableEq κ]

/-- A barrier as constructed for these coroutines, all of which run. -/
def new (coroutines : List κ) : Barrier κ :=
  { maxAwaitCount := coroutines.length, slotCount := 0, commitCount := 0, releaseAwaitCount := 0
    handles := List.replicate coroutines.length none, snapshot := [], running := coroutines, dispatched := []
    left := [], calls := [] }

/-- Call `i` goes on at `pc`. -/
def goto (s : Barrier κ) (i : Nat) (pc : Pc κ) : Barrier κ := { s with calls := s.calls.set i pc }

/-- The next step of a call; an index outside `handles` is none. -/
def stepCall (s : Barrier κ) (i : Nat) : Pc κ → Option (Barrier κ)
  | .slot handle => some ({ s with slotCount := s.slotCount + 1 }.goto i (.write handle s.slotCount))
  | .write handle index =>
    if index < s.handles.length then some ({ s with handles := s.handles.set index (some handle) }.goto i .commit)
    else none
  | .commit => some ({ s with commitCount := s.commitCount + 1 }.goto i (.compare (s.commitCount + 1)))
  | .release count =>
    some ({ s with releaseAwaitCount := s.releaseAwaitCount + count }.goto i (.commitRelease count))
  | .commitRelease count =>
    some ({ s with commitCount := s.commitCount + count }.goto i (.compare (s.commitCount + count)))
  | .compare count => some (s.goto i (if count = s.maxAwaitCount then .exchange else .ended))
  | .exchange => some ({ s with commitCount := 0 }.goto i .resetSlot)
  | .resetSlot => some ({ s with slotCount := 0 }.goto i .loadMax)
  | .loadMax => some (s.goto i (.exchangeRelease s.maxAwaitCount))
  | .exchangeRelease last =>
    some ({ s with releaseAwaitCount := 0 }.goto i (.storeMax last s.releaseAwaitCount))
  | .storeMax last released => some ({ s with maxAwaitCount := last - released }.goto i (.clear last))
  | .clear last => some ({ s with snapshot := [] }.goto i (.copy last 0))
  | .copy last j =>
    if j < last then
      match s.handles[j]? with
      | some handle => some ({ s with
          snapshot := s.snapshot ++ handle.toList
          handles := s.handles.set j none }.goto i (.copy last (j + 1)))
      | none => none
    else some (s.goto i (.dispatch s.snapshot))
  | .dispatch (handle :: next) => some ({ s with dispatched := s.dispatched ++ [handle] }.goto i (.dispatch next))
  | .dispatch [] => some (s.goto i .clearLast)
  | .clearLast => some ({ s with snapshot := [] }.goto i .ended)
  | .ended => none

/-- A call begins at this place. -/
def makeCall (s : Barrier κ) (pc : Pc κ) : Barrier κ := { s with calls := s.calls ++ [pc] }

/-- An action, if it can be taken. -/
def act (s : Barrier κ) : Action κ → Option (Barrier κ)
  | .await handle =>
    if handle ∈ s.running then some ({ s with running := s.running.erase handle }.makeCall (.slot handle)) else none
  | .release leaving =>
    if leaving ≠ [] ∧ leaving.Nodup ∧ leaving ⊆ s.running then
      some ({ s with running := s.running.diff leaving, left := s.left ++ leaving }.makeCall (.release leaving.length))
    else none
  | .step i => do s.stepCall i (← s.calls[i]?)
  | .resume handle =>
    if handle ∈ s.dispatched then
      some { s with dispatched := s.dispatched.erase handle, running := s.running ++ [handle] }
    else none

/-- An action, or nothing if it cannot be taken. -/
def step (s : Barrier κ) (a : Action κ) : Barrier κ := (s.act a).getD s

/-- The barrier after these actions. -/
def run (coroutines : List κ) (acts : List (Action κ)) : Barrier κ := acts.foldl step (new coroutines)

end Barrier

/-! ## What the calls have -/

namespace Pc
variable {κ : Type}

/-- The coroutines that the call has with it. -/
def carries : Pc κ → Multiset κ
  | .slot handle | .write handle _ => {handle}
  | .dispatch next => next
  | _ => 0

/-- The call is in `complete`. -/
def completes : Pc κ → Nat
  | .exchange | .resetSlot | .loadMax | .exchangeRelease _ | .storeMax .. | .clear _ | .copy .. | .dispatch _
  | .clearLast => 1
  | _ => 0

/-- The call is in `complete` past the exchange of `commit_count`, and `handles` may not be empty yet. -/
def early : Pc κ → Nat
  | .resetSlot | .loadMax | .exchangeRelease _ | .storeMax .. | .clear _ | .copy .. => 1
  | _ => 0

/-- The call is in the loop that empties `handles`. -/
def copying : Pc κ → Nat
  | .copy .. => 1
  | _ => 0

/-- The call is about to exchange `commit_count` for 0. -/
def exchanging : Pc κ → Nat
  | .exchange => 1
  | _ => 0

/-- The call has yet to count itself in. -/
def active : Pc κ → Nat
  | .slot _ | .write .. | .commit | .release _ | .commitRelease _ => 1
  | _ => 0

def writing : Pc κ → Nat
  | .write .. => 1
  | _ => 0

def writesAt (j : Nat) : Pc κ → Nat
  | .write _ index => if index = j then 1 else 0
  | _ => 0

/-- How much of what is in `handles` or in `release_await_count` the call has yet to count in. -/
def owing : Pc κ → Nat
  | .commit => 1
  | .commitRelease count => count
  | _ => 0

/-- How many have left that the call has yet to put into `release_await_count`, or has taken out. -/
def leaving : Pc κ → Nat
  | .release count => count
  | .storeMax _ released => released
  | _ => 0

/-- The call is a `release` of none. -/
def nobody : Pc κ → Nat
  | .release 0 | .commitRelease 0 => 1
  | _ => 0

def comparing : Pc κ → Nat
  | .compare _ => 1
  | _ => 0

def compares (c : Nat) : Pc κ → Nat
  | .compare count => if count = c then 1 else 0
  | _ => 0

/-- The call is in `complete` and has left nothing in `handles`, or is over. -/
def HandsOut : Pc κ → Prop
  | .dispatch _ | .clearLast | .ended => True
  | _ => False

theorem HandsOut.nothing {pc : Pc κ} (h : pc.HandsOut) : pc.copying = 0 ∧ pc.exchanging = 0 ∧ pc.early = 0 ∧
    pc.leaving = 0 ∧ pc.nobody = 0 ∧ pc.owing = 0 ∧ pc.writing = 0 ∧ (∀ j, pc.writesAt j = 0) ∧
      ∀ c, pc.compares c = 0 := by
  cases pc with
  | dispatch | clearLast | ended => exact ⟨rfl, rfl, rfl, rfl, rfl, rfl, rfl, fun _ => rfl, fun _ => rfl⟩
  | _ => cases h

end Pc

namespace Barrier
variable {κ : Type} {s s' : Barrier κ} {coroutines : List κ} {i : Nat} {pc q : Pc κ}

/-- No `complete` begins while another is under way, and none stores a smaller
`max_await_count` while a call has yet to compare. -/
def CalmCall (s : Barrier κ) : Pc κ → Prop
  | .compare count => count = s.maxAwaitCount → ∀ pc ∈ s.calls, pc.completes = 0
  | .storeMax _ released => released ≠ 0 → ∀ pc ∈ s.calls, pc.comparing = 0
  | _ => True

/-- The step, if it is one of a call, meets `CalmCall`. -/
def Calm (s : Barrier κ) : Action κ → Prop
  | .step i => ∀ pc ∈ s.calls[i]?, s.CalmCall pc
  | _ => True

instance instDecidableCalmCall (s : Barrier κ) (pc : Pc κ) : Decidable (s.CalmCall pc) :=
  match pc with
  | .compare count => inferInstanceAs (Decidable (count = s.maxAwaitCount → ∀ pc ∈ s.calls, pc.completes = 0))
  | .storeMax _ released => inferInstanceAs (Decidable (released ≠ 0 → ∀ pc ∈ s.calls, pc.comparing = 0))
  | .slot _ | .write .. | .commit | .release _ | .commitRelease _ | .exchange | .resetSlot | .loadMax
  | .exchangeRelease _ | .clear _ | .copy .. | .dispatch _ | .clearLast | .ended => instDecidableTrue

instance instDecidableCalm (s : Barrier κ) (a : Action κ) : Decidable (s.Calm a) :=
  match a with
  | .step i => inferInstanceAs (Decidable (∀ pc ∈ s.calls[i]?, s.CalmCall pc))
  | .await _ | .release _ | .resume _ => instDecidableTrue

/-- The coroutines in `handles`. -/
def held (s : Barrier κ) : Multiset κ := weight (fun handle : Option κ => (handle.toList : Multiset κ)) s.handles

/-- Those collected in the snapshot. -/
def due (s : Barrier κ) : Multiset κ := if weight Pc.copying s.calls = 0 then 0 else s.snapshot

def filled (s : Barrier κ) (j : Nat) : Nat :=
  match s.handles[j]? with
  | some (some _) => 1
  | _ => 0

/-- While coroutines arrive. -/
structure Gathers (s : Barrier κ) : Prop where
  counted : s.commitCount + weight Pc.owing s.calls = s.held.card + s.releaseAwaitCount
  slots : s.slotCount = s.held.card + weight Pc.writing s.calls
  /-- Each index given out is written, or about to be, once. -/
  indices : ∀ j, weight (Pc.writesAt j) s.calls + s.filled j = if j < s.slotCount then 1 else 0

/-- Everyone has arrived, and nobody goes on. -/
structure Quiet (s : Barrier κ) : Prop where
  running : s.running = []
  dispatched : s.dispatched = []
  active : weight Pc.active s.calls = 0
  commits : s.commitCount = 0

/-- What holds at the places of `complete`. -/
def Stage (s : Barrier κ) : Pc κ → Prop
  | .resetSlot => s.Quiet ∧ s.held.card + s.releaseAwaitCount = s.maxAwaitCount ∧
      ∀ j, s.maxAwaitCount ≤ j → s.filled j = 0
  | .loadMax => s.Quiet ∧ s.slotCount = 0 ∧ s.held.card + s.releaseAwaitCount = s.maxAwaitCount ∧
      ∀ j, s.maxAwaitCount ≤ j → s.filled j = 0
  | .exchangeRelease last => s.Quiet ∧ s.slotCount = 0 ∧ last = s.maxAwaitCount ∧
      s.held.card + s.releaseAwaitCount = s.maxAwaitCount ∧ ∀ j, last ≤ j → s.filled j = 0
  | .storeMax last released => s.Quiet ∧ s.slotCount = 0 ∧ last = s.maxAwaitCount ∧ s.releaseAwaitCount = 0 ∧
      s.held.card + released = s.maxAwaitCount ∧ ∀ j, last ≤ j → s.filled j = 0
  | .clear last => s.Quiet ∧ s.slotCount = 0 ∧ s.releaseAwaitCount = 0 ∧ s.held.card = s.maxAwaitCount ∧
      last ≤ s.handles.length ∧ ∀ j, last ≤ j → s.filled j = 0
  | .copy last k => s.Quiet ∧ s.slotCount = 0 ∧ s.releaseAwaitCount = 0 ∧
      s.held.card + s.snapshot.length = s.maxAwaitCount ∧ last ≤ s.handles.length ∧
      ∀ j, last ≤ j ∨ j < k → s.filled j = 0
  | _ => True

/-- Where every coroutine is, and what the counters say of the calls under way. -/
structure Inv (coroutines : List κ) (s : Barrier κ) : Prop where
  /-- Every coroutine is in one place. -/
  inventory : ↑s.running + ↑s.dispatched + weight Pc.carries s.calls + s.held + s.due + ↑s.left =
    (coroutines : Multiset κ)
  shrinks : s.maxAwaitCount + s.left.length = coroutines.length + weight Pc.leaving s.calls + s.releaseAwaitCount
  leaves : weight Pc.leaving s.calls + s.releaseAwaitCount ≤ s.left.length
  length : s.handles.length = coroutines.length
  single : weight Pc.completes s.calls ≤ 1
  positive : weight Pc.nobody s.calls = 0
  bounds : ∀ c, c = 0 ∨ s.maxAwaitCount < c → weight (Pc.compares c) s.calls = 0
  trigger : weight (Pc.compares s.maxAwaitCount) s.calls + weight Pc.exchanging s.calls + weight Pc.early s.calls ≤ 1
  /-- Who has counted to the end will complete, and nobody else. -/
  woken : 0 < s.maxAwaitCount ∧ s.commitCount = s.maxAwaitCount ↔
    weight (Pc.compares s.maxAwaitCount) s.calls + weight Pc.exchanging s.calls = 1
  gathers : weight Pc.early s.calls = 0 → Gathers s
  stage : ∀ pc ∈ s.calls, Stage s pc

/-! ## The calls together -/

theorem active_le (calls : List (Pc κ)) : weight Pc.active calls ≤
    (weight Pc.carries calls).card + weight Pc.owing calls + weight Pc.leaving calls + weight Pc.nobody calls := by
  induction calls with
  | nil => exact Nat.zero_le _
  | cons pc calls ih =>
    have hpc : pc.active ≤ pc.carries.card + pc.owing + pc.leaving + pc.nobody := by
      cases pc with
      | release count | commitRelease count =>
        cases count <;> simp [Pc.active, Pc.carries, Pc.owing, Pc.leaving, Pc.nobody]
      | _ => simp [Pc.active, Pc.carries, Pc.owing, Pc.leaving, Pc.nobody]
    simp only [weight, List.map_cons, List.sum_cons, Multiset.card_add] at ih ⊢
    omega

/-- What is at most `g` for each call is so for all. -/
theorem weight_le {f g : Pc κ → Nat} (hle : ∀ pc, f pc ≤ g pc) (calls : List (Pc κ)) :
    weight f calls ≤ weight g calls := by
  induction calls with
  | nil => exact Nat.le_refl _
  | cons pc calls ih =>
    have hpc := hle pc
    simp only [weight, List.map_cons, List.sum_cons] at ih ⊢
    omega

theorem writing_le (calls : List (Pc κ)) : weight Pc.writing calls ≤ weight Pc.active calls :=
  weight_le (fun pc => by cases pc <;> simp [Pc.writing, Pc.active]) calls

theorem early_le_completes (pc : Pc κ) : pc.exchanging + pc.early ≤ pc.completes := by
  cases pc <;> simp [Pc.exchanging, Pc.early, Pc.completes]

theorem copying_le_early (pc : Pc κ) : pc.copying ≤ pc.early := by
  cases pc <;> simp [Pc.copying, Pc.early]

theorem copying_le (calls : List (Pc κ)) : weight Pc.copying calls ≤ weight Pc.early calls :=
  weight_le copying_le_early calls

/-- Nobody is active, so nobody has a place in `handles` or is owed anything. -/
theorem none_of_active {calls : List (Pc κ)} (hactive : weight Pc.active calls = 0) :
    weight Pc.owing calls = 0 ∧ ∀ j, weight (Pc.writesAt j) calls = 0 := by
  have hzero : ∀ pc ∈ calls, pc.active = 0 := by
    intro pc hpc
    obtain ⟨i, hi⟩ := List.mem_iff_getElem?.1 hpc
    have hle := le_weight (f := Pc.active) hi
    omega
  refine ⟨weight_eq_zero fun pc hpc => ?_, fun j => weight_eq_zero fun pc hpc => ?_⟩
  · have hpc := hzero pc hpc
    cases pc <;> simp_all [Pc.active, Pc.owing]
  · have hpc := hzero pc hpc
    cases pc <;> simp_all [Pc.active, Pc.writesAt]

theorem Inv.quiet (h : Inv coroutines s) (hearly : weight Pc.early s.calls ≠ 0) : s.Quiet := by
  by_contra hquiet
  apply hearly
  apply weight_eq_zero
  intro pc hpc
  have hstage := h.stage pc hpc
  cases pc with
  | resetSlot | loadMax | exchangeRelease | storeMax | clear | copy => exact absurd hstage.1 hquiet
  | _ => rfl

/-- Where coroutines run, none is in `handles` from the round before. -/
theorem Inv.early_eq (h : Inv coroutines s)
    (hsome : s.running ≠ [] ∨ s.dispatched ≠ [] ∨ weight Pc.active s.calls ≠ 0) : weight Pc.early s.calls = 0 := by
  by_contra hearly
  obtain ⟨hrunning, hdispatched, hactive, -⟩ := h.quiet hearly
  rcases hsome with hsome | hsome | hsome
  · exact hsome hrunning
  · exact hsome hdispatched
  · exact hsome hactive

theorem stage_of_early (hearly : weight Pc.early s.calls = 0) : ∀ pc ∈ s.calls, Stage s pc := by
  intro pc hpc
  obtain ⟨j, hj⟩ := List.mem_iff_getElem?.1 hpc
  have hle := le_weight (f := Pc.early) hj
  rw [hearly] at hle
  cases pc with
  | resetSlot | loadMax | exchangeRelease | storeMax | clear | copy => cases hle
  | _ => trivial

/-- How many there are. -/
theorem Inv.total (h : Inv coroutines s) : s.running.length + s.dispatched.length + (weight Pc.carries s.calls).card +
    s.held.card + s.due.card + s.left.length = coroutines.length := by
  have hcard := congrArg Multiset.card h.inventory
  simpa only [Multiset.card_add, Multiset.coe_card] using hcard

/-- All have arrived. -/
theorem Inv.full (h : Inv coroutines s) (hgathers : s.Gathers) (hcommits : s.commitCount = s.maxAwaitCount) :
    s.running = [] ∧ s.dispatched = [] ∧ weight Pc.active s.calls = 0 ∧
      s.held.card + s.releaseAwaitCount = s.maxAwaitCount ∧ weight Pc.leaving s.calls = 0 ∧
      (weight Pc.carries s.calls).card = 0 := by
  have htotal := h.total
  have hshrinks := h.shrinks
  have hcounted := hgathers.counted
  have hactive := active_le s.calls
  have hpositive := h.positive
  refine ⟨List.eq_nil_of_length_eq_zero ?_, List.eq_nil_of_length_eq_zero ?_, ?_, ?_, ?_, ?_⟩
  all_goals omega

/-! ## Steps -/

/-- What the calls weigh once call `i` has moved on. -/
structure Moved (calls calls' : List (Pc κ)) (pc q : Pc κ) : Prop where
  carries : weight Pc.carries calls' + pc.carries = weight Pc.carries calls + q.carries
  completes : weight Pc.completes calls' + pc.completes = weight Pc.completes calls + q.completes
  early : weight Pc.early calls' + pc.early = weight Pc.early calls + q.early
  copying : weight Pc.copying calls' + pc.copying = weight Pc.copying calls + q.copying
  exchanging : weight Pc.exchanging calls' + pc.exchanging = weight Pc.exchanging calls + q.exchanging
  active : weight Pc.active calls' + pc.active = weight Pc.active calls + q.active
  writing : weight Pc.writing calls' + pc.writing = weight Pc.writing calls + q.writing
  writesAt : ∀ j, weight (Pc.writesAt j) calls' + pc.writesAt j = weight (Pc.writesAt j) calls + q.writesAt j
  owing : weight Pc.owing calls' + pc.owing = weight Pc.owing calls + q.owing
  leaving : weight Pc.leaving calls' + pc.leaving = weight Pc.leaving calls + q.leaving
  nobody : weight Pc.nobody calls' + pc.nobody = weight Pc.nobody calls + q.nobody
  compares : ∀ c, weight (Pc.compares c) calls' + pc.compares c = weight (Pc.compares c) calls + q.compares c

theorem moved {calls : List (Pc κ)} (hi : calls[i]? = some pc) (q : Pc κ) : Moved calls (calls.set i q) pc q :=
  ⟨weight_moved hi, weight_moved hi, weight_moved hi, weight_moved hi, weight_moved hi, weight_moved hi,
    weight_moved hi, fun _ => weight_moved hi, weight_moved hi, weight_moved hi, weight_moved hi,
    fun _ => weight_moved hi⟩

/-- Only one call is in `complete`. -/
theorem stage_moved (hi : s.calls[i]? = some pc) (hcalls : s'.calls = s.calls.set i q)
    (hsingle : weight Pc.completes s'.calls ≤ 1) (hq : q.completes = 1) (hstage : Stage s' q) :
    ∀ d ∈ s'.calls, Stage s' d := by
  intro d hd
  rw [hcalls] at hd
  obtain ⟨j, hj⟩ := List.mem_iff_getElem?.1 hd
  rcases (getElem?_moved hi).1 hj with ⟨-, rfl⟩ | ⟨hne, hj'⟩
  · exact hstage
  · -- the others weigh nothing
    have hothers : weight Pc.completes (s.calls.set i (.ended : Pc κ)) + q.completes =
        weight Pc.completes s'.calls := by
      have hended : weight Pc.completes (s.calls.set i (.ended : Pc κ)) + pc.completes =
          weight Pc.completes s.calls + 0 :=
        weight_moved hi
      have hq' := weight_moved (f := Pc.completes) (q := q) hi
      rw [hcalls]
      omega
    have hle := le_weight (f := Pc.completes) ((getElem?_moved (q := .ended) hi).2 (.inr ⟨hne, hj'⟩))
    have hzero : d.completes = 0 := by omega
    cases d with
    | resetSlot | loadMax | exchangeRelease | storeMax | clear | copy => cases hzero
    | _ => trivial

/-- `Stage` looks only at these. -/
theorem Stage.congr (h : Stage s pc) (hrunning : s'.running = s.running) (hdispatched : s'.dispatched = s.dispatched)
    (hactive : weight Pc.active s'.calls = weight Pc.active s.calls) (hcommits : s'.commitCount = s.commitCount)
    (hslots : s'.slotCount = s.slotCount) (hmax : s'.maxAwaitCount = s.maxAwaitCount)
    (hrelease : s'.releaseAwaitCount = s.releaseAwaitCount) (hhandles : s'.handles = s.handles)
    (hsnapshot : s'.snapshot = s.snapshot) : Stage s' pc := by
  have hquiet : s.Quiet → s'.Quiet := fun hq =>
    ⟨hrunning.trans hq.running, hdispatched.trans hq.dispatched, hactive.trans hq.active, hcommits.trans hq.commits⟩
  have hheld : s'.held = s.held := by rw [held, held, hhandles]
  have hfilled : ∀ j, s'.filled j = s.filled j := fun j => by rw [filled, filled, hhandles]
  cases pc with
  | resetSlot | loadMax | exchangeRelease | storeMax | clear | copy =>
    simp only [Stage, hslots, hmax, hrelease, hheld, hfilled, hhandles, hsnapshot] at h ⊢
    exact ⟨hquiet h.1, h.2⟩
  | _ => trivial

theorem due_eq (hcopying : weight Pc.copying s.calls = 0) : s.due = 0 := if_pos hcopying

section Steps
variable (h : Inv coroutines s) (hi : s.calls[i]? = some pc)
include h hi

/-- A call that is not in `complete` goes on outside it, while coroutines arrive. -/
theorem Inv.arrives (hpc : pc.active = 1 ∧ pc.completes = 0) (hq : q.completes = 0 ∧ q.exchanging = 0)
    (hcalls : s'.calls = s.calls.set i q)
    (hsame : s'.running = s.running ∧ s'.dispatched = s.dispatched ∧ s'.left = s.left ∧
      s'.maxAwaitCount = s.maxAwaitCount ∧ s'.handles.length = s.handles.length)
    (hkeeps : q.carries + s'.held = pc.carries + s.held)
    (hleaving : q.leaving + s'.releaseAwaitCount = pc.leaving + s.releaseAwaitCount)
    (hnobody : pc.nobody = 0 → q.nobody = 0) (hcompares : ∀ c, pc.compares c = 0)
    (hcount : (s'.commitCount = s.commitCount ∧ ∀ c, q.compares c = 0) ∨
      s.commitCount < s'.commitCount ∧ s'.commitCount ≤ s.maxAwaitCount ∧ q = .compare s'.commitCount)
    (hgathers : s.Gathers → s'.Gathers) : Inv coroutines s' := by
  have hactive' := le_weight (f := Pc.active) hi
  have hearly := h.early_eq (.inr (.inr (by omega)))
  have m := moved hi q
  rw [← hcalls] at m
  obtain ⟨hrunning, hdispatched, hleft, hmax, hlength⟩ := hsame
  have hpcEarly := early_le_completes pc
  have hqEarly := early_le_completes q
  have hearly' : weight Pc.early s'.calls = 0 := by
    have hmoved := m.early
    omega
  have hexchanging' : weight Pc.exchanging s'.calls = weight Pc.exchanging s.calls := by
    have hmoved := m.exchanging
    omega
  -- it is not who will complete, and becomes it if it is the last to count
  have hwoken := h.woken
  have htrigger := h.trigger
  have hcompares' : weight (Pc.compares s.maxAwaitCount) s'.calls =
      weight (Pc.compares s.maxAwaitCount) s.calls + q.compares s.maxAwaitCount := by
    have hmoved := m.compares s.maxAwaitCount
    have hzero := hcompares s.maxAwaitCount
    omega
  refine ⟨?_, ?_, ?_, hlength.trans h.length, ?_, ?_, ?_, ?_, ?_, fun _ => hgathers (h.gathers hearly),
    stage_of_early hearly'⟩
  · have hcopying := copying_le s.calls
    have hcopying' := copying_le s'.calls
    have hinventory := h.inventory
    rw [due_eq (by omega)] at hinventory ⊢
    rw [hrunning, hdispatched, hleft, ← hinventory]
    apply add_right_cancel (b := pc.carries)
    calc ↑s.running + ↑s.dispatched + weight Pc.carries s'.calls + s'.held + 0 + ↑s.left + pc.carries
        = ↑s.running + ↑s.dispatched + (weight Pc.carries s'.calls + pc.carries) + s'.held + ↑s.left := by abel
      _ = ↑s.running + ↑s.dispatched + weight Pc.carries s.calls + (q.carries + s'.held) + ↑s.left := by
        rw [m.carries]
        abel
      _ = ↑s.running + ↑s.dispatched + weight Pc.carries s.calls + s.held + 0 + ↑s.left + pc.carries := by
        rw [hkeeps]
        abel
  · have hmoved := m.leaving
    have hshrinks := h.shrinks
    rw [hmax, hleft]
    omega
  · have hmoved := m.leaving
    have hleaves := h.leaves
    rw [hleft]
    omega
  · have hmoved := m.completes
    have hsingle := h.single
    omega
  · have hmoved := m.nobody
    have hpositive := h.positive
    have hle := le_weight (f := Pc.nobody) hi
    have hq' := hnobody (by omega)
    omega
  · intro c hc
    rw [hmax] at hc
    have hbounds := h.bounds c hc
    have hmoved := m.compares c
    have hzero := hcompares c
    rcases hcount with ⟨-, hnone⟩ | ⟨hless, hle, rfl⟩
    · have hnone := hnone c
      omega
    · have hne : s'.commitCount ≠ c := by omega
      simp only [Pc.compares, if_neg hne] at hmoved
      omega
  · rw [hmax, hcompares', hexchanging', hearly']
    rcases hcount with ⟨-, hnone⟩ | ⟨hless, hle, rfl⟩
    · have hnone := hnone s.maxAwaitCount
      omega
    · simp only [Pc.compares]
      split <;> omega
  · rw [hmax, hcompares', hexchanging']
    rcases hcount with ⟨hcommits, hnone⟩ | ⟨hless, hle, rfl⟩
    · have hnone := hnone s.maxAwaitCount
      rw [hcommits, hnone]
      exact hwoken
    · simp only [Pc.compares]
      split <;> omega

end Steps

/-- A coroutine gets its index. -/
theorem Inv.slot {handle : κ} (h : Inv coroutines s) (hi : s.calls[i]? = some (.slot handle)) :
    Inv coroutines ({ s with slotCount := s.slotCount + 1 }.goto i (.write handle s.slotCount)) := by
  refine h.arrives hi ⟨rfl, rfl⟩ ⟨rfl, rfl⟩ rfl ⟨rfl, rfl, rfl, rfl, rfl⟩ rfl rfl (fun _ => rfl) (fun _ => rfl)
    (.inl ⟨rfl, fun _ => rfl⟩) fun hg => ?_
  have m := moved hi (.write handle s.slotCount)
  refine ⟨?_, ?_, fun j => ?_⟩
  · have howing : _ + 0 = _ + 0 := m.owing
    have hcounted := hg.counted
    exact (congrArg (s.commitCount + ·) howing).trans hcounted
  · have hwriting : _ + 0 = _ + 1 := m.writing
    have hslots := hg.slots
    show s.slotCount + 1 = s.held.card + weight Pc.writing (s.calls.set i _)
    omega
  · have hwrites : _ + 0 = _ + (if s.slotCount = j then 1 else 0) := m.writesAt j
    have hindices := hg.indices j
    show weight (Pc.writesAt j) (s.calls.set i _) + s.filled j = if j < s.slotCount + 1 then 1 else 0
    split at hwrites <;> split at hindices <;> split <;> omega

theorem Inv.arrived_le (h : Inv coroutines s) : s.held.card + s.releaseAwaitCount + (weight Pc.carries s.calls).card +
    weight Pc.leaving s.calls ≤ s.maxAwaitCount := by
  have htotal := h.total
  have hshrinks := h.shrinks
  omega

/-- A call counts itself in, and with it what it has brought. -/
theorem Inv.counts {n : Nat} (h : Inv coroutines s) (hi : s.calls[i]? = some pc)
    (hpc : pc = .commit ∧ n = 1 ∨ pc = .commitRelease n) :
    Inv coroutines ({ s with commitCount := s.commitCount + n }.goto i (.compare (s.commitCount + n))) := by
  have hactive : pc.active = 1 ∧ pc.completes = 0 := by
    rcases hpc with ⟨rfl, -⟩ | rfl <;> exact ⟨rfl, rfl⟩
  have hactive' := le_weight (f := Pc.active) hi
  have hearly := h.early_eq (.inr (.inr (by omega)))
  have howing : pc.owing = n ∧ pc.carries = 0 ∧ pc.leaving = 0 ∧ (∀ c, pc.compares c = 0) ∧ 0 < n ∧ pc.writing = 0 ∧
      ∀ j, pc.writesAt j = 0 := by
    have hpositive := h.positive
    have hle := le_weight (f := Pc.nobody) hi
    rcases hpc with ⟨rfl, rfl⟩ | rfl
    · exact ⟨rfl, rfl, rfl, fun _ => rfl, Nat.one_pos, rfl, fun _ => rfl⟩
    · refine ⟨rfl, rfl, rfl, fun _ => rfl, Nat.pos_of_ne_zero ?_, rfl, fun _ => rfl⟩
      rintro rfl
      simp only [Pc.nobody] at hle
      omega
  obtain ⟨howing, hcarries, hleaving, hcompares, hpos, hwriting, hwritesAt⟩ := howing
  have hcounted := (h.gathers hearly).counted
  have hle := h.arrived_le
  have howe := le_weight (f := Pc.owing) hi
  refine h.arrives hi hactive ⟨rfl, rfl⟩ rfl ⟨rfl, rfl, rfl, rfl, rfl⟩ (by rw [hcarries]; rfl) (by rw [hleaving]; rfl)
    (fun _ => rfl) hcompares (.inr ⟨?_, ?_, rfl⟩) fun hg => ?_
  · show s.commitCount < s.commitCount + n
    omega
  · show s.commitCount + n ≤ s.maxAwaitCount
    omega
  · have m := moved hi (.compare (s.commitCount + n))
    refine ⟨?_, ?_, fun j => ?_⟩
    · have hmoved : _ + pc.owing = _ + 0 := m.owing
      show s.commitCount + n + weight Pc.owing (s.calls.set i _) = s.held.card + s.releaseAwaitCount
      omega
    · have hmoved : _ + pc.writing = _ + 0 := m.writing
      have hslots := hg.slots
      show s.slotCount = s.held.card + weight Pc.writing (s.calls.set i _)
      omega
    · have hmoved : _ + pc.writesAt j = _ + 0 := m.writesAt j
      have hindices := hg.indices j
      have hzero := hwritesAt j
      show weight (Pc.writesAt j) (s.calls.set i _) + s.filled j = if j < s.slotCount then 1 else 0
      omega

/-- Who leaves is added to `release_await_count`. -/
theorem Inv.release {count : Nat} (h : Inv coroutines s) (hi : s.calls[i]? = some (.release count)) :
    Inv coroutines
      ({ s with releaseAwaitCount := s.releaseAwaitCount + count }.goto i (.commitRelease count)) := by
  have hnobody : (.release count : Pc κ).nobody = 0 → (.commitRelease count : Pc κ).nobody = 0 := by
    intro hsome
    cases count with
    | zero => cases hsome
    | succ count => rfl
  refine h.arrives hi ⟨rfl, rfl⟩ ⟨rfl, rfl⟩ rfl ⟨rfl, rfl, rfl, rfl, rfl⟩ rfl ?_ hnobody (fun _ => rfl)
    (.inl ⟨rfl, fun _ => rfl⟩) fun hg => ?_
  · show 0 + (s.releaseAwaitCount + count) = count + s.releaseAwaitCount
    omega
  have m := moved hi (.commitRelease count)
  refine ⟨?_, ?_, fun j => ?_⟩
  · have howing : _ + 0 = _ + count := m.owing
    have hcounted := hg.counted
    show s.commitCount + weight Pc.owing (s.calls.set i _) = s.held.card + (s.releaseAwaitCount + count)
    omega
  · have hwriting : _ + 0 = _ + 0 := m.writing
    exact hg.slots.trans (congrArg (s.held.card + ·) hwriting).symm
  · have hwrites : _ + 0 = _ + 0 := m.writesAt j
    exact (congrArg (· + s.filled j) hwrites).trans (hg.indices j)

theorem held_moved (s' : Barrier κ) {k : Nat} {o o' : Option κ} (hk : s.handles[k]? = some o)
    (hhandles : s'.handles = s.handles.set k o') :
    s'.held + (o.toList : Multiset κ) = s.held + (o'.toList : Multiset κ) := by
  rw [held, hhandles]
  exact weight_moved hk

theorem filled_moved (s' : Barrier κ) {k : Nat} {o o' : Option κ} (hk : s.handles[k]? = some o)
    (hhandles : s'.handles = s.handles.set k o') (j : Nat) :
    s'.filled j = if j = k then o'.toList.length else s.filled j := by
  rw [filled, filled, hhandles]
  rcases eq_or_ne j k with rfl | hne
  · rw [List.getElem?_set_self (List.getElem?_eq_some_iff.1 hk).1, if_pos rfl]
    cases o' <;> rfl
  · rw [List.getElem?_set_ne hne.symm, if_neg hne]

theorem free_of_filled {k : Nat} (hk : k < s.handles.length) (hfilled : s.filled k = 0) :
    s.handles[k]? = some none := by
  obtain ⟨o, ho⟩ : ∃ o, s.handles[k]? = some o := ⟨_, List.getElem?_eq_getElem hk⟩
  rw [filled, ho] at hfilled
  cases o with
  | none => exact ho
  | some handle => cases hfilled

/-- `handles` is empty if no entry is filled. -/
theorem held_eq_zero (hnone : ∀ j, s.filled j = 0) : s.held = 0 := by
  apply weight_eq_zero
  intro o ho
  obtain ⟨k, hk⟩ := List.mem_iff_getElem?.1 ho
  have hfree := free_of_filled (List.getElem?_eq_some_iff.1 hk).1 (hnone k)
  rw [hk] at hfree
  obtain rfl := Option.some.inj hfree
  rfl

/-- A coroutine is put at its index. -/
theorem Inv.write {handle : κ} {index : Nat} (h : Inv coroutines s) (hi : s.calls[i]? = some (.write handle index))
    (hindex : index < s.handles.length) :
    Inv coroutines ({ s with handles := s.handles.set index (some handle) }.goto i .commit) := by
  have hactive := le_weight (f := Pc.active) hi
  simp only [Pc.active] at hactive
  have hearly := h.early_eq (.inr (.inr (by omega)))
  have hgathers := h.gathers hearly
  -- the index is this call's, and nothing has been written there
  have hwrites := le_weight (f := Pc.writesAt index) hi
  have hindices := hgathers.indices index
  simp only [Pc.writesAt, if_true] at hwrites
  have hempty : s.filled index = 0 := by split at hindices <;> omega
  have hfree := free_of_filled hindex hempty
  have hheld := held_moved ({ s with handles := s.handles.set index (some handle) }.goto i .commit) hfree rfl
  have hfilled := filled_moved ({ s with handles := s.handles.set index (some handle) }.goto i .commit) hfree rfl
  have hheld : ({ s with handles := s.handles.set index (some handle) }.goto i .commit).held = s.held + {handle} := by
    simpa using hheld
  refine h.arrives hi ⟨rfl, rfl⟩ ⟨rfl, rfl⟩ rfl ⟨rfl, rfl, rfl, rfl, List.length_set⟩ ?_ rfl (fun _ => rfl)
    (fun _ => rfl) (.inl ⟨rfl, fun _ => rfl⟩) fun hg => ?_
  · rw [hheld]
    simp only [Pc.carries]
    abel
  have m := moved hi .commit
  refine ⟨?_, ?_, fun j => ?_⟩
  · have howing : _ + 0 = _ + 1 := m.owing
    have hcounted := hg.counted
    rw [hheld, Multiset.card_add, Multiset.card_singleton]
    show s.commitCount + weight Pc.owing (s.calls.set i _) = s.held.card + 1 + s.releaseAwaitCount
    omega
  · have hwriting : _ + 1 = _ + 0 := m.writing
    have hslots := hg.slots
    rw [hheld, Multiset.card_add, Multiset.card_singleton]
    show s.slotCount = s.held.card + 1 + weight Pc.writing (s.calls.set i _)
    omega
  · have hmoved : _ + (if index = j then 1 else 0) = _ + 0 := m.writesAt j
    have hindices := hg.indices j
    rw [hfilled j]
    show weight (Pc.writesAt j) (s.calls.set i _) + (if j = index then 1 else s.filled j) =
      if j < s.slotCount then 1 else 0
    rcases eq_or_ne j index with rfl | hne
    · rw [if_pos rfl] at hmoved ⊢
      omega
    · rw [if_neg hne.symm] at hmoved
      rw [if_neg hne]
      omega

/-- A call that has counted itself in completes, if it is the last, or ends. -/
theorem Inv.compare {count : Nat} (h : Inv coroutines s) (hi : s.calls[i]? = some (.compare count))
    (hcalm : count = s.maxAwaitCount → ∀ pc ∈ s.calls, pc.completes = 0) :
    Inv coroutines (s.goto i (if count = s.maxAwaitCount then .exchange else .ended)) := by
  have m := moved hi (if count = s.maxAwaitCount then .exchange else .ended)
  have hpos : count ≠ 0 ∧ count ≤ s.maxAwaitCount := by
    have hle := le_weight (f := Pc.compares count) hi
    simp only [Pc.compares, if_true] at hle
    by_contra hnot
    have hbounds := h.bounds count (by omega)
    omega
  have hcarries : (if count = s.maxAwaitCount then (.exchange : Pc κ) else .ended).carries = 0 := by split <;> rfl
  have hsame : ∀ f : Pc κ → Nat, f .exchange = f .ended → f .ended = f (.compare count) →
      weight f (s.goto i (if count = s.maxAwaitCount then .exchange else .ended)).calls = weight f s.calls := by
    intro f hexchange hended
    have hmoved := weight_moved (f := f) (q := if count = s.maxAwaitCount then .exchange else .ended) hi
    have hq : f (if count = s.maxAwaitCount then .exchange else .ended) = f (.compare count) := by
      split
      · exact hexchange.trans hended
      · exact hended
    rw [hq] at hmoved
    exact Nat.add_right_cancel hmoved
  have hearly := hsame Pc.early rfl rfl
  have hactive := hsame Pc.active rfl rfl
  have hcopying := hsame Pc.copying rfl rfl
  have hleaving := hsame Pc.leaving rfl rfl
  have hnobody := hsame Pc.nobody rfl rfl
  have hwoken := h.woken
  have htrigger := h.trigger
  have hcompletes := m.completes
  -- who has counted to the end goes on to complete
  have hlast : weight (Pc.compares s.maxAwaitCount)
        (s.goto i (if count = s.maxAwaitCount then .exchange else .ended)).calls +
      weight Pc.exchanging (s.goto i (if count = s.maxAwaitCount then .exchange else .ended)).calls =
      weight (Pc.compares s.maxAwaitCount) s.calls + weight Pc.exchanging s.calls := by
    have hnew := m.compares s.maxAwaitCount
    have hexchanging := m.exchanging
    show weight (Pc.compares s.maxAwaitCount) (s.calls.set i _) + weight Pc.exchanging (s.calls.set i _) = _
    by_cases hcount : count = s.maxAwaitCount <;>
      simp only [hcount, if_true, if_false, Pc.compares, Pc.exchanging] at hnew hexchanging ⊢ <;> omega
  refine ⟨?_, ?_, ?_, h.length, ?_, ?_, ?_, ?_, ?_, fun hnone => ?_, fun pc hpc => ?_⟩
  · have hmoved := m.carries
    rw [hcarries] at hmoved
    have heq : weight Pc.carries (s.goto i (if count = s.maxAwaitCount then .exchange else .ended)).calls =
        weight Pc.carries s.calls := add_right_cancel hmoved
    have hinventory := h.inventory
    rw [due] at hinventory ⊢
    rw [heq, hcopying]
    exact hinventory
  · rw [hleaving]
    exact h.shrinks
  · rw [hleaving]
    exact h.leaves
  · have hsingle := h.single
    split at hcompletes
    · next hlast =>
      have hzero : weight Pc.completes s.calls = 0 := weight_eq_zero (hcalm hlast)
      rw [if_pos hlast]
      simp only [Pc.completes] at hcompletes
      show weight Pc.completes (s.calls.set i _) ≤ 1
      omega
    · next hlast =>
      rw [if_neg hlast]
      simp only [Pc.completes] at hcompletes
      show weight Pc.completes (s.calls.set i _) ≤ 1
      omega
  · rw [hnobody]
    exact h.positive
  · intro c hc
    have hbounds := h.bounds c hc
    have hmoved := m.compares c
    have hq : (if count = s.maxAwaitCount then (.exchange : Pc κ) else .ended).compares c = 0 := by split <;> rfl
    show weight (Pc.compares c) (s.calls.set i _) = 0
    omega
  · rw [hearly]
    exact hlast.symm ▸ htrigger
  · exact hlast.symm ▸ hwoken
  · have hgathers := h.gathers (hearly ▸ hnone)
    refine ⟨?_, ?_, fun j => ?_⟩
    · rw [hsame Pc.owing rfl rfl]
      exact hgathers.counted
    · rw [hsame Pc.writing rfl rfl]
      exact hgathers.slots
    · rw [hsame (Pc.writesAt j) rfl rfl]
      exact hgathers.indices j
  · rcases List.mem_or_eq_of_mem_set hpc with hpc | rfl
    · exact (h.stage pc hpc).congr rfl rfl hactive rfl rfl rfl rfl rfl rfl
    · split <;> trivial

end Barrier

end NgxLuaCpp.IrisBarrier
