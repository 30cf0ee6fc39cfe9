import NgxLuaCpp.Lib.LuaApi
import NgxLuaCpp.Lib.Trace
/-!
# What a coroutine call returns to Lua

A wrapped method either completes at once, and its values are the results of
the call, or it yields; then its completion leaves the values in a registry
slot of the thread, where the wrapper collects them once the thread runs
again. We show that every call gets its own values, whatever threads and
calls interleave.
-/

namespace NgxLuaCpp
open LuaApi

variable {τ α : Type}

/-- The addresses used as registry keys: a `lua_State`, a coroutine's frame. -/
inductive Ptr (τ : Type) where
  | state (t : τ)
  | frame (n : Nat)
  deriving DecidableEq

/-! ## The C functions -/

section Functions
variable [DecidableEq τ]

/-- `get_coroutine_returns`, as the calls of the Lua API it makes. -/
def getCoroutineReturns (L : τ) : Api (Ptr τ) α Nat := do
  if ← isNone 1 then
    push (.pointer (.state L))
    rawGetRegistry
    if ← isNilTop then
      raise "No coroutine return value collected!"
    else
      -- the slot is emptied before the values are read
      push (.pointer (.state L))
      push .nil
      rawSetRegistry
      let tableIndex ← getTop
      rawGetI tableIndex 1
      let nrets ← toIntegerTop
      pop 1
      forTo nrets fun i => rawGetI tableIndex (i + 1)
      return nrets
  else
    -- not actually yielded
    getTop

/-- The part of `ngx_lua_cpp_resume` that passes the values on. -/
def ngxLuaCppResume (L : τ) (nrets : Nat) : Api (Ptr τ) α Unit :=
  if nrets ≠ 0 then do
    push (.pointer (.state L))
    createTable
    -- the count goes first, as a nil among the values ends no list
    push (.integer nrets)
    rawSetI 1
    forTo nrets fun i => do
      pushValue i
      rawSetI (i + 1)
    rawSetRegistry
    pop nrets
  else pure ()

/-- `ngx_lua_cpp_yield`: `ngx.sleep` takes its argument and yields no value,
which leaves the stack empty. -/
def ngxLuaCppYield : Api (Ptr τ) α Unit := do
  clear
  push (.integer 0)
  clear

/-- `coroutine_cleanup`: the address no longer names a thread. -/
def coroutineCleanup (address : Ptr τ) : Api (Ptr τ) α Unit := do
  push (.pointer address)
  push .nil
  rawSetRegistry

/-- `coroutine_continuation`, by whether `lua_status(L) == LUA_YIELD`. -/
def coroutineContinuation (L : τ) (address : Ptr τ) (yielded : Bool) (count : Nat) : Api (Ptr τ) α Unit := do
  if yielded then
    pop 1
    ngxLuaCppResume L count
  coroutineCleanup address

def pushAll : List (Value (Ptr τ) α) → Api (Ptr τ) α Unit
  | [] => pure ()
  | v :: vs => do
    push v
    pushAll vs

/-- The completion callback; the source pushes one value and passes a count of 1. -/
def complete (L : τ) (address : Ptr τ) (yielded : Bool) (values : List (Value (Ptr τ) α)) : Api (Ptr τ) α Unit := do
  pushAll values
  push (.pointer address)
  coroutineContinuation L address yielded values.length

/-- The end of `function_coroutine_invoke`: the number of results, or none for
`coroutine_state_yield`. `sync` are the values of a coroutine that completes
while it runs. -/
def functionCoroutineInvoke (L : τ) (address : Ptr τ) (sync : Option (List (Value (Ptr τ) α))) :
    Api (Ptr τ) α (Option Nat) := do
  push (.pointer address)
  push (.thread (.state L))
  rawSetRegistry
  let top ← getTop
  match sync with
  | some values => complete L address false values
  | none => pure ()
  -- only a completion leaves the address on top
  let mark ← toPointerTop
  if mark = some address then
    pop 1
    let count ← getTop
    return some (count - top)
  else return none

end Functions

/-! ## Threads -/

/-- What a completion passes on: at least one value, as `coroutine_continuation`
never resumes with a count of 0. -/
structure Values (τ α : Type) where
  list : List (Value (Ptr τ) α)
  nonempty : list ≠ []

/-- Where a Lua thread is: outside a call, yielded in one, or completed and
posted to run. A call is told by the address of its coroutine's frame. -/
inductive Phase (τ α : Type) where
  | idle
  | yielded (frame : Nat)
  | posted (frame : Nat) (values : List (Value (Ptr τ) α))

/-- A call that returned to Lua: the values its coroutine produced, what the
wrapper returned, and what it left in the thread's slot. -/
structure Returned (τ α : Type) where
  thread : τ
  frame : Nat
  produced : List (Value (Ptr τ) α)
  result : Except Error (List (Value (Ptr τ) α))
  slot : Value (Ptr τ) α

/-- The registry, the stack and the phase of each thread, and the calls that have returned. -/
structure LuaVm (τ α : Type) where
  registry : Ptr τ → Value (Ptr τ) α
  stackOf : τ → List (Value (Ptr τ) α)
  phase : τ → Phase τ α
  nextFrame : Nat
  log : List (Returned τ α)

/-- What can happen next: a thread makes a call, its coroutine completes, or nginx runs it. -/
inductive LuaEvent (τ α : Type) where
  /-- A thread calls a wrapped method, whose coroutine may complete at once. -/
  | call (t : τ) (args : List α) (sync : Option (Values τ α))
  /-- The coroutine a thread yielded for completes. -/
  | complete (t : τ) (values : Values τ α)
  /-- nginx runs a posted thread. -/
  | run (t : τ)

namespace LuaVm
variable [DecidableEq τ]

/-- A VM without any call. -/
def new : LuaVm τ α := ⟨fun _ => .nil, fun _ => [], fun _ => .idle, 0, []⟩

/-- The call of a thread returns. -/
def returns (vm : LuaVm τ α) (t : τ) (frame : Nat) (produced : List (Value (Ptr τ) α))
    (result : Except Error (List (Value (Ptr τ) α))) : LuaVm τ α :=
  { vm with
    phase := Function.update vm.phase t .idle
    log := vm.log ++ [⟨t, frame, produced, result, vm.registry (.state t)⟩] }

/-- The wrapper: `get_coroutine_returns` on the results of the method. -/
def collect (vm : LuaVm τ α) (t : τ) (frame : Nat) (produced results : List (Value (Ptr τ) α)) : LuaVm τ α :=
  match getCoroutineReturns t ⟨results.reverse, vm.registry⟩ with
  | .ok (n, s) => { vm with registry := s.registry }.returns t frame produced (.ok (s.stack.take n).reverse)
  | .error e => vm.returns t frame produced (.error e)

/-- A thread calls a wrapped method, which completes at once or yields. -/
def call (vm : LuaVm τ α) (t : τ) (args : List α) (sync : Option (Values τ α)) : LuaVm τ α :=
  let frame := vm.nextFrame
  let produced := (sync.map Values.list).getD []
  let invoked := functionCoroutineInvoke t (.frame frame) (sync.map Values.list)
    ⟨(args.map Value.data).reverse, vm.registry⟩
  match invoked with
  | .ok (some n, s) =>
    { vm with registry := s.registry, nextFrame := frame + 1 }.collect t frame produced (s.stack.take n).reverse
  | .ok (none, s) => match ngxLuaCppYield s with
    | .ok (_, s) => { vm with
        registry := s.registry
        stackOf := Function.update vm.stackOf t s.stack
        phase := Function.update vm.phase t (.yielded frame)
        nextFrame := frame + 1 }
    | .error e => vm.returns t frame produced (.error e)
  | .error e => vm.returns t frame produced (.error e)

/-- A step; an event that is not enabled does nothing. -/
def step (vm : LuaVm τ α) : LuaEvent τ α → LuaVm τ α
  | .call t args sync => match vm.phase t with
    | .idle => vm.call t args sync
    | _ => vm
  | .complete t values => match vm.phase t with
    | .yielded frame => match NgxLuaCpp.complete t (.frame frame) true values.list ⟨vm.stackOf t, vm.registry⟩ with
      | .ok (_, s) => { vm with
          registry := s.registry
          stackOf := Function.update vm.stackOf t s.stack
          phase := Function.update vm.phase t (.posted frame values.list) }
      | .error e => vm.returns t frame values.list (.error e)
    | _ => vm
  | .run t => match vm.phase t with
    | .posted frame values => vm.collect t frame values []
    | _ => vm

/-- The VM after these events. -/
def run (evs : List (LuaEvent τ α)) : LuaVm τ α := evs.foldl step new

end LuaVm

/-! ## What the C functions do -/

/-- The table for the values so far: the count, then the first `n` of them. -/
def returnsSoFar (values : List (Value (Ptr τ) α)) (n k : Nat) : Value (Ptr τ) α :=
  if k = 1 then .integer values.length else if 2 ≤ k ∧ k ≤ n + 1 then values.getD (k - 2) .nil else .nil

def returnsTable (values : List (Value (Ptr τ) α)) : Value (Ptr τ) α := .table (returnsSoFar values values.length)

theorem returnsSoFar_succ (values : List (Value (Ptr τ) α)) {n : Nat} (h : n < values.length) :
    Function.update (returnsSoFar values n) (n + 2) values[n] = returnsSoFar values (n + 1) := by
  funext k
  rw [Function.update_apply]
  by_cases hk : k = n + 2
  · subst hk
    simp [returnsSoFar, h]
  · rw [if_neg hk]
    unfold returnsSoFar
    split
    · rfl
    · congr 1
      exact propext ⟨fun h => ⟨h.1, by omega⟩, fun h => ⟨h.1, by omega⟩⟩

variable [DecidableEq τ]

/-- `ngx_lua_cpp_resume` moves the values from the stack to the thread's slot. -/
theorem ngxLuaCppResume_run (L : τ) {values : List (Value (Ptr τ) α)} (hne : values ≠ [])
    (r : Ptr τ → Value (Ptr τ) α) :
    ngxLuaCppResume L values.length ⟨values.reverse, r⟩
      = .ok ((), ⟨[], Function.update r (.state L) (returnsTable values)⟩) := by
  have hn : values.length ≠ 0 := by simpa using hne
  have hloop := forTo_run (fun i => do pushValue i; rawSetI (i + 1))
    (fun n => ⟨[.table (returnsSoFar values n), .pointer (.state L)] ++ values.reverse, r⟩) values.length fun i hi => by
      rw [run_bind (pushValue_run (at?_append _ values r hi)), ← returnsSoFar_succ values hi]
      rfl
  have h0 : Function.update (fun _ => Value.nil) 1 (.integer values.length) = returnsSoFar values 0 := by
    funext k
    rw [Function.update_apply]
    unfold returnsSoFar
    split
    · rfl
    · rw [if_neg (by omega)]
  rw [ngxLuaCppResume, if_pos hn]
  change (forTo values.length _ >>= fun _ => rawSetRegistry >>= fun _ => pop values.length)
    ⟨[.table (Function.update (fun _ => Value.nil) 1 (.integer values.length)), .pointer (.state L)]
      ++ values.reverse, r⟩ = _
  rw [h0, run_bind hloop]
  have hp := pop_run values.reverse [] (Function.update r (.state L) (returnsTable values))
  rw [List.length_reverse, List.append_nil] at hp
  exact hp

/-- `get_coroutine_returns`, called without arguments, returns the values in the
thread's slot and empties it. -/
theorem getCoroutineReturns_run (L : τ) (values : List (Value (Ptr τ) α)) {r : Ptr τ → Value (Ptr τ) α}
    (hr : r (.state L) = returnsTable values) :
    getCoroutineReturns L ⟨[], r⟩
      = .ok (values.length, ⟨values.reverse ++ [returnsTable values], Function.update r (.state L) .nil⟩) := by
  have hloop := forTo_run (fun i => rawGetI 1 (i + 1))
    (fun n => ⟨(values.take n).reverse ++ [returnsTable values], Function.update r (.state L) .nil⟩) values.length
    fun i hi => by
      have hv : returnsSoFar values values.length (i + 2) = values[i] := by
        rw [returnsSoFar, if_neg (by omega), if_pos (by omega), Nat.add_sub_cancel]
        simp [hi]
      have ht := at?_bottom (values.take i).reverse (returnsTable values) (Function.update r (.state L) .nil)
      rw [rawGetI_run ht, hv, List.take_succ_eq_append_getElem hi, List.reverse_append]
      rfl
  rw [List.take_length] at hloop
  have hget : rawGetRegistry ⟨[.pointer (.state L)], r⟩ = .ok ((), ⟨[returnsTable values], r⟩) := by
    rw [← hr]
    rfl
  have hnone : isNone 1 ⟨[], r⟩ = .ok (true, ⟨[], r⟩) := rfl
  have hpush : push (.pointer (.state L)) ⟨[], r⟩ = .ok ((), ⟨[.pointer (.state L)], r⟩) := rfl
  rw [getCoroutineReturns, run_bind hnone, if_pos rfl, run_bind hpush, run_bind hget]
  change (forTo values.length (fun i => rawGetI 1 (i + 1)) >>= fun _ => pure values.length)
    ⟨[returnsTable values], Function.update r (.state L) .nil⟩ = _
  exact run_bind hloop

/-- Called with results, it returns them as they are. -/
theorem getCoroutineReturns_args (L : τ) {results : List (Value (Ptr τ) α)} (hne : results ≠ [])
    (r : Ptr τ → Value (Ptr τ) α) :
    getCoroutineReturns L ⟨results.reverse, r⟩ = .ok (results.length, ⟨results.reverse, r⟩) := by
  have h1 : isNone 1 ⟨results.reverse, r⟩ = .ok (false, ⟨results.reverse, r⟩) := by
    have hat := at?_append [] results r (List.length_pos_iff.2 hne)
    rw [List.nil_append] at hat
    rw [isNone, hat]
    rfl
  rw [getCoroutineReturns, run_bind h1]
  simp [getTop]

omit [DecidableEq τ] in
theorem pushAll_run (values stack : List (Value (Ptr τ) α)) (r : Ptr τ → Value (Ptr τ) α) :
    pushAll values ⟨stack, r⟩ = .ok ((), ⟨values.reverse ++ stack, r⟩) := by
  induction values generalizing stack with
  | nil => rfl
  | cons v values ih =>
    rw [pushAll, run_bind (rfl : push v ⟨stack, r⟩ = .ok ((), ⟨v :: stack, r⟩)), ih]
    simp

/-- A completion while the thread is yielded moves the values to its slot. -/
theorem complete_yielded (L : τ) (address : Ptr τ) {values : List (Value (Ptr τ) α)} (hne : values ≠ [])
    (r : Ptr τ → Value (Ptr τ) α) :
    complete L address true values ⟨[], r⟩
      = .ok ((), ⟨[], Function.update (Function.update r (.state L) (returnsTable values)) address .nil⟩) := by
  have hp := pushAll_run values [] r
  rw [List.append_nil] at hp
  rw [complete, run_bind hp]
  change (ngxLuaCppResume L values.length >>= fun _ => coroutineCleanup address) ⟨values.reverse, r⟩ = _
  rw [run_bind (ngxLuaCppResume_run L hne r)]
  rfl

/-- A completion before the thread yields leaves the values on the stack, the
address on top. -/
theorem complete_running (L : τ) (address : Ptr τ) (values stack : List (Value (Ptr τ) α))
    (r : Ptr τ → Value (Ptr τ) α) :
    complete L address false values ⟨stack, r⟩
      = .ok ((), ⟨.pointer address :: (values.reverse ++ stack), Function.update r address .nil⟩) := by
  rw [complete, run_bind (pushAll_run values stack r)]
  rfl

theorem invoke_sync (L : τ) (address : Ptr τ) (values stack : List (Value (Ptr τ) α)) (r : Ptr τ → Value (Ptr τ) α) :
    functionCoroutineInvoke L address (some values) ⟨stack, r⟩
      = .ok (some values.length, ⟨values.reverse ++ stack, Function.update r address .nil⟩) := by
  change (complete L address false values >>= fun _ => _) ⟨stack, Function.update r address (.thread (.state L))⟩ = _
  rw [run_bind (complete_running L address values stack _), Function.update_idem]
  have hmark : toPointerTop ⟨.pointer address :: (values.reverse ++ stack), Function.update r address .nil⟩
      = .ok (some address, ⟨.pointer address :: (values.reverse ++ stack), Function.update r address .nil⟩) := rfl
  have hpop : pop 1 ⟨.pointer address :: (values.reverse ++ stack), Function.update r address .nil⟩
      = .ok ((), ⟨values.reverse ++ stack, Function.update r address .nil⟩) := pop_run [.pointer address] _ _
  rw [run_bind hmark, if_pos rfl, run_bind hpop]
  change Except.ok (some ((values.reverse ++ stack).length - stack.length), _) = _
  rw [List.length_append, List.length_reverse, Nat.add_sub_cancel]

theorem invoke_yield (L : τ) (address : Ptr τ) (args : List α) (r : Ptr τ → Value (Ptr τ) α) :
    functionCoroutineInvoke L address none ⟨(args.map Value.data).reverse, r⟩
      = .ok (none, ⟨(args.map Value.data).reverse, Function.update r address (.thread (.state L))⟩) := by
  rw [← List.map_reverse]
  cases args.reverse with
  | nil => rfl
  | cons a args => rfl

/-! ## Every run -/

/-- A thread's slot holds the values of a completion it has yet to collect. -/
def SlotOf (vm : LuaVm τ α) (t : τ) : Prop :=
  match vm.phase t with
  | .idle => vm.registry (.state t) = .nil
  | .yielded _ => vm.registry (.state t) = .nil ∧ vm.stackOf t = []
  | .posted _ values => vm.registry (.state t) = returnsTable values

/-- The call got exactly the values it produced, and left the slot empty. -/
def Returned.Own (x : Returned τ α) : Prop := x.result = .ok x.produced ∧ x.slot = .nil

/-- The slots hold what was posted and has not run, and every call got its own values. -/
structure VmInv (vm : LuaVm τ α) : Prop where
  slots : ∀ t, SlotOf vm t
  own : ∀ x ∈ vm.log, x.Own

theorem collect_results (vm : LuaVm τ α) (t : τ) (frame : Nat) (produced : List (Value (Ptr τ) α))
    {results : List (Value (Ptr τ) α)} (hne : results ≠ []) :
    vm.collect t frame produced results = vm.returns t frame produced (.ok results) := by
  have htake : (results.reverse.take results.length).reverse = results := by
    rw [List.take_of_length_le (by simp), List.reverse_reverse]
  rw [LuaVm.collect, getCoroutineReturns_args t hne]
  simp only [htake]

theorem collect_posted {vm : LuaVm τ α} {t : τ} {values : List (Value (Ptr τ) α)} (frame : Nat)
    (hr : vm.registry (.state t) = returnsTable values) :
    vm.collect t frame values []
      = { vm with registry := Function.update vm.registry (.state t) .nil }.returns t frame values (.ok values) := by
  have htake : ((values.reverse ++ [returnsTable values]).take values.length).reverse = values := by
    rw [List.take_left' List.length_reverse, List.reverse_reverse]
  rw [LuaVm.collect, List.reverse_nil, getCoroutineReturns_run t values hr]
  simp only [htake]

/-- A call that returns its own values with the slot empty keeps the invariant. -/
theorem VmInv.returns {vm : LuaVm τ α} {t : τ} (hs : ∀ u, u ≠ t → SlotOf vm u) (hl : ∀ x ∈ vm.log, x.Own)
    (hr : vm.registry (.state t) = .nil) (frame : Nat) (values : List (Value (Ptr τ) α)) :
    VmInv (vm.returns t frame values (.ok values)) := by
  refine ⟨fun u => ?_, ?_⟩
  · by_cases hu : u = t
    · subst hu
      simpa [SlotOf, LuaVm.returns] using hr
    · simpa [SlotOf, LuaVm.returns, hu] using hs u hu
  · intro x hx
    rcases List.mem_append.1 hx with hx | hx
    · exact hl x hx
    · obtain rfl := List.mem_singleton.1 hx
      exact ⟨rfl, hr⟩

omit [DecidableEq τ] in
theorem ngxLuaCppYield_run (s : State (Ptr τ) α) : ngxLuaCppYield s = .ok ((), ⟨[], s.registry⟩) := rfl

/-- A coroutine that completes at once has the method return its values. -/
theorem call_sync (vm : LuaVm τ α) (t : τ) (args : List α) (values : Values τ α) :
    vm.call t args (some values) =
      { vm with
        registry := Function.update vm.registry (.frame vm.nextFrame) .nil
        nextFrame := vm.nextFrame + 1 }.returns t vm.nextFrame values.list (.ok values.list) := by
  have htake : ((values.list.reverse ++ (args.map Value.data).reverse).take values.list.length).reverse
      = values.list := by
    rw [List.take_left' List.length_reverse, List.reverse_reverse]
  rw [LuaVm.call, Option.map_some, Option.getD_some]
  simp only [invoke_sync, htake, collect_results _ _ _ _ values.nonempty]

/-- A call that a thread makes keeps the invariant. -/
theorem call_inv {vm : LuaVm τ α} (h : VmInv vm) {t : τ} (ht : vm.phase t = .idle) (args : List α)
    (sync : Option (Values τ α)) : VmInv (vm.call t args sync) := by
  have hslot := h.slots t
  rw [SlotOf, ht] at hslot
  cases sync with
  | some values =>
    rw [call_sync]
    apply VmInv.returns
    · intro u _
      simpa [SlotOf] using h.slots u
    · exact h.own
    · simpa using hslot
  | none =>
    rw [LuaVm.call, Option.map_none]
    simp only [invoke_yield, ngxLuaCppYield_run]
    refine ⟨fun u => ?_, h.own⟩
    by_cases hu : u = t
    · subst hu
      simpa [SlotOf] using hslot
    · simpa [SlotOf, hu] using h.slots u

/-- Every event keeps the invariant. -/
theorem VmInv.step {vm : LuaVm τ α} (h : VmInv vm) (ev : LuaEvent τ α) : VmInv (vm.step ev) := by
  cases ev with
  | call t args sync =>
    cases ht : vm.phase t with
    | idle => simpa only [LuaVm.step, ht] using call_inv h ht args sync
    | yielded frame => simpa only [LuaVm.step, ht] using h
    | posted frame values => simpa only [LuaVm.step, ht] using h
  | complete t values =>
    have hslot := h.slots t
    cases ht : vm.phase t with
    | idle => simpa only [LuaVm.step, ht] using h
    | yielded frame =>
      rw [SlotOf, ht] at hslot
      -- the stack was empty, so index 1 is the first value pushed
      simp only [LuaVm.step, ht, hslot.2, complete_yielded t _ values.nonempty]
      refine ⟨fun u => ?_, h.own⟩
      by_cases hu : u = t
      · subst hu
        simp [SlotOf]
      · simpa [SlotOf, hu] using h.slots u
    | posted frame values => simpa only [LuaVm.step, ht] using h
  | run t =>
    have hslot := h.slots t
    cases ht : vm.phase t with
    | idle => simpa only [LuaVm.step, ht] using h
    | yielded frame => simpa only [LuaVm.step, ht] using h
    | posted frame values =>
      rw [SlotOf, ht] at hslot
      simp only [LuaVm.step, ht, collect_posted frame hslot]
      apply VmInv.returns
      · intro u hu
        simpa [SlotOf, hu] using h.slots u
      · exact h.own
      · simp

omit [DecidableEq τ] in
theorem vmInv_new : VmInv (LuaVm.new : LuaVm τ α) where
  slots _ := rfl
  own := by simp [LuaVm.new]

/-- Each call that returned got its own values, without an error, and left its
thread's slot empty. -/
def OwnReturns (log : List (Returned τ α)) : Prop := ∀ x ∈ log, x.result = .ok x.produced ∧ x.slot = .nil

/-- A call whose coroutine completes at once returns, and so is in the log. -/
theorem VmInv.sync_call_logged {vm : LuaVm τ α} (h : VmInv vm) {t : τ} (ht : vm.phase t = .idle) (args : List α)
    (values : Values τ α) : (vm.step (.call t args (some values))).log =
      vm.log ++ [⟨t, vm.nextFrame, values.list, .ok values.list, .nil⟩] := by
  have hslot := h.slots t
  rw [SlotOf, ht] at hslot
  simp [LuaVm.step, ht, call_sync, LuaVm.returns, hslot]

/-- Any other returns when nginx runs its thread after the completion. -/
theorem VmInv.run_logged {vm : LuaVm τ α} (h : VmInv vm) {t : τ} {frame : Nat} {values : List (Value (Ptr τ) α)}
    (ht : vm.phase t = .posted frame values) :
    (vm.step (.run t)).log = vm.log ++ [⟨t, frame, values, .ok values, .nil⟩] := by
  have hslot := h.slots t
  rw [SlotOf, ht] at hslot
  simp [LuaVm.step, ht, collect_posted frame hslot, LuaVm.returns]

/-- In every run, each call of a wrapped coroutine method that has returned, all of which are in
the log, returned exactly the values its own coroutine produced. -/
theorem calls_return_own_values (evs : List (LuaEvent τ α)) : OwnReturns (LuaVm.run evs).log :=
  (Trace.invariant (fun _ vm => VmInv vm) vmInv_new (fun _ _ ev h => h.step ev) evs).own

/-- Thread 0 yields; meanwhile thread 1 calls and completes at once. -/
example : (LuaVm.run (τ := Nat) (α := Nat) [.call 0 [7] none, .call 1 [] (some ⟨[.nil, .data 1], by simp⟩),
    .complete 0 ⟨[.data 2, .nil, .data 3], by simp⟩, .run 0]).log.map (fun x => (x.thread, x.produced))
      = [(1, [.nil, .data 1]), (0, [.data 2, .nil, .data 3])] := rfl

end NgxLuaCpp
