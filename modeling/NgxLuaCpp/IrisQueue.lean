import NgxLuaCpp.Lib.RingBuffer
import NgxLuaCpp.Lib.Trace
/-!
# The queue of a warp's tasks

`iris_queue_list_t` chains rings of `element_count` slots, with one thread that pushes and
one that pops. A ring counts what was ever pushed and popped in counters that wrap around,
and each side keeps a shadow of the other side's counter.

Without a value: a signed overflow where it is undefined, an object constructed over
another, and one read or destroyed where there is none. Assertions are compiled out.
-/
open RingBuffer

namespace NgxLuaCpp.IrisQueue

/-! ## Counters -/

/-- The template's constants, and whether signed overflow wraps around. -/
structure Params where
  elementCount : Nat
  wrapv : Bool
  pos : 1 ≤ elementCount
  lt : elementCount < 0x10000000000000000

/-- A `size_t` as a `ptrdiff_t`. -/
def toSigned (x : Nat) : Int := if x < 0x8000000000000000 then x else x - 0x10000000000000000

namespace Params
variable (c : Params)

/-- `element_count_pow_two`. `iris_log2` rounds down. -/
def powTwo : Bool := 1 <<< c.elementCount.log2 == c.elementCount

/-- `counter_limit`, where the counters wrap if `element_count` is no power of two. -/
def counterLimit : Nat := c.elementCount * 1 <<< (63 - c.elementCount.log2)

/-- `step_counter`: the counter after `delta` more. -/
def stepCounter (count delta : Nat) : Nat :=
  let result := (count + delta) % 0x10000000000000000
  if c.powTwo then result else if result ≥ c.counterLimit then result - c.counterLimit else result

/-- `diff_counter`; none is a signed overflow, unless the compiler wraps. -/
def diffCounter (lhs rhs : Nat) : Option Int :=
  if c.powTwo then
    let diff := toSigned lhs - toSigned rhs
    if -0x8000000000000000 ≤ diff ∧ diff < 0x8000000000000000 then some diff
    else if c.wrapv then some (diff.bmod 0x10000000000000000)
    else none
  else
    -- compared as a `size_t`
    let diff := (lhs + c.counterLimit + (0x10000000000000000 - rhs)) % 0x10000000000000000
    some (toSigned (if diff ≥ c.counterLimit then diff - c.counterLimit else diff))

end Params

/-! ## One ring -/

/-- `iris_queue_t` with `enable_spsc_optimize`. -/
structure Queue (α : Type) where
  pushCount : Nat
  popCount : Nat
  pushShadow : Nat
  popShadow : Nat
  ringBuffer : Slots α

namespace Queue
variable {α : Type} (c : Params)

/-- A node as constructed at a counter. -/
def new (initCount : Nat) : Queue α := ⟨initCount, initCount, initCount, initCount, fun _ => none⟩

/-- `full`, by the exact counters. -/
def full (q : Queue α) : Bool := c.stepCounter q.popCount c.elementCount == q.pushCount

def maybeFull (q : Queue α) : Option Bool := do
  return decide ((← c.diffCounter q.pushCount q.pushShadow) ≥ toSigned c.elementCount)

def maybeEmpty (q : Queue α) : Option Bool := do
  return decide ((← c.diffCounter q.popShadow q.popCount) ≤ 0)

def refreshPopCached (q : Queue α) : Queue α := { q with pushShadow := q.popCount }

def refreshPushCached (q : Queue α) : Queue α := { q with popShadow := q.pushCount }

/-- The slot pushed to, or null. -/
def push (q : Queue α) (t : α) : Option (Option Nat × Queue α) := do
  let maybe ← q.maybeFull c
  let q := if maybe then q.refreshPopCached else q
  if maybe ∧ q.full c then return (none, q)
  let slot := q.pushCount % c.elementCount
  let ring ← construct q.ringBuffer slot t
  return (some slot, { q with ringBuffer := ring, pushCount := c.stepCounter q.pushCount 1 })

/-- `top`; none is a slot without an element. -/
def top (q : Queue α) : Option α := q.ringBuffer (q.popCount % c.elementCount)

/-- `pop`; none is a slot without an element. -/
def pop (q : Queue α) : Option (Queue α) := do
  let ring ← destroy q.ringBuffer (q.popCount % c.elementCount)
  return { q with ringBuffer := ring, popCount := c.stepCounter q.popCount 1 }

def size (q : Queue α) : Option Nat := do
  return (← c.diffCounter q.pushCount q.popCount).toNat

/-- `pop(n)`: how many it could not pop. -/
def popN (q : Queue α) (n : Nat) : Option (Nat × Queue α) := do
  let m := min n (← q.size c)
  let rindex := q.popCount % c.elementCount
  -- up to the end of the ring, then from its start
  let k := min m (c.elementCount - rindex)
  let ring ← destroyRun q.ringBuffer k rindex
  let ring ← destroyRun ring (m - k) 0
  return (n - m, { q with ringBuffer := ring, popCount := c.stepCounter q.popCount m })

/-- `empty`, which refreshes the shadow if the answer is in doubt. -/
def empty (q : Queue α) : Option (Bool × Queue α) := do
  if ← q.maybeEmpty c then
    let q := q.refreshPushCached
    return (q.popCount == q.pushCount, q)
  else return (false, q)

end Queue

/-! ## The chain -/

/-- `iris_queue_list_t`: the nodes from `pop_head` on, `push_head` the last. -/
structure QueueList (α : Type) where
  front : List (Queue α)
  pushHead : Queue α
  iteratorCounter : Nat

namespace QueueList
variable {α : Type} (c : Params)

/-- A list as constructed: one node. -/
def new : QueueList α := ⟨[], .new 0, c.elementCount⟩

def nodes (s : QueueList α) : List (Queue α) := s.front ++ [s.pushHead]

def popHead (s : QueueList α) : Queue α := s.front.headD s.pushHead

/-- The node at `pop_head` changes. -/
def setPopHead (s : QueueList α) (q : Queue α) : QueueList α :=
  match s.front with
  | [] => { s with pushHead := q }
  | _ :: rest => { s with front := q :: rest }

/-- `push`, with the slot; behind a node that is full there is a new one. -/
def push (s : QueueList α) (t : α) : Option (Option Nat × QueueList α) := do
  let (w, q) ← s.pushHead.push c t
  match w with
  | some _ => return (w, { s with pushHead := q })
  | none =>
    let (w, p) ← (Queue.new s.iteratorCounter).push c t
    return (w, ⟨s.front ++ [q], p, c.stepCounter s.iteratorCounter c.elementCount⟩)

/-- Whether the node at `pop_head` was removed. -/
def cleanupEmpty (s : QueueList α) : Option (Bool × QueueList α) :=
  match s.front with
  | [] => some (false, s)
  | p :: rest => do
    let (isEmpty, p) ← p.empty c
    return (isEmpty, { s with front := if isEmpty then rest else p :: rest })

/-- `top`, after a node in front that is empty has been removed. -/
def top (s : QueueList α) : Option (α × QueueList α) := do
  let (_, s) ← s.cleanupEmpty c
  return (← s.popHead.top c, s)

/-- `pop`; before it and after it, a node in front that is empty is removed. -/
def pop (s : QueueList α) : Option (QueueList α) := do
  let (_, s) ← s.cleanupEmpty c
  let (_, s) ← (s.setPopHead (← s.popHead.pop c)).cleanupEmpty c
  return s

/-- The loop of `pop(n)`. A round that does not end it removes a node. -/
def popLoop : Nat → QueueList α → Nat → Option (Nat × QueueList α)
  | rounds, s, n =>
    if n = 0 then some (0, s)
    else do
      let m := min n (← s.popHead.size c)
      let (_, q) ← s.popHead.popN c m
      let (removed, s) ← (s.setPopHead q).cleanupEmpty c
      if removed then match rounds with
        | 0 => none
        | rounds + 1 => popLoop rounds s (n - m)
      else return (n - m, s)

def popN (s : QueueList α) (n : Nat) : Option (Nat × QueueList α) := do
  let (_, s) ← s.cleanupEmpty c
  popLoop c s.front.length s n

def empty (s : QueueList α) : Option (Bool × QueueList α) := do
  let (isEmpty, q) ← s.popHead.empty c
  let s := s.setPopHead q
  if isEmpty then
    if s.front ≠ [] then
      let (isEmpty, p) ← s.pushHead.empty c
      return (isEmpty, { s with pushHead := p })
    else return (true, s)
  else return (false, s)

/-- The elements are in memory: their number is a `size_t`. -/
def size (s : QueueList α) : Option Nat := s.nodes.foldlM (fun counter p => do return counter + (← p.size c)) 0

end QueueList

/-! ## Calls -/

/-- A call on the queue. -/
inductive Op (α : Type) where
  | push (t : α)
  | top
  | pop
  | popN (n : Nat)
  | size
  | empty
  deriving DecidableEq

/-- What a call returns. -/
inductive Ret (α : Type) where
  /-- whether the pointer to the element is not null -/
  | pushed (b : Bool)
  | top (x : α)
  | popped
  | left (n : Nat)
  | size (n : Nat)
  | empty (b : Bool)
  deriving DecidableEq

variable {α : Type}

/-- What a call does to the list, and what it returns. -/
def QueueList.step (c : Params) (s : QueueList α) : Op α → Option (Ret α × QueueList α)
  | .push t => do
    let (w, s) ← s.push c t
    return (.pushed w.isSome, s)
  | .top => do
    let (x, s) ← s.top c
    return (.top x, s)
  | .pop => do return (.popped, ← s.pop c)
  | .popN n => do
    let (left, s) ← s.popN c n
    return (.left left, s)
  | .size => do return (.size (← s.size c), s)
  | .empty => do
    let (b, s) ← s.empty c
    return (.empty b, s)

/-- The queue after a sequence of calls, and what they returned. -/
def run (c : Params) (ops : List (Op α)) : Option (List (Ret α) × QueueList α) :=
  ops.foldlM (fun (rets, s) op => do
    let (ret, s) ← s.step c op
    return (rets ++ [ret], s)) ([], .new c)

/-- An unbounded list, first in first out. -/
def Op.onList (l : List α) : Op α → Option (Ret α × List α)
  | .push t => some (.pushed true, l ++ [t])
  | .top => l.head?.map fun x => (.top x, l)
  | .pop => if l = [] then none else some (.popped, l.tail)
  | .popN n => some (.left (n - l.length), l.drop n)
  | .size => some (.size l.length, l)
  | .empty => some (.empty l.isEmpty, l)

def runOnList (ops : List (Op α)) : Option (List (Ret α) × List α) :=
  ops.foldlM (fun (rets, l) op => do
    let (ret, l) ← op.onList l
    return (rets ++ [ret], l)) ([], [])

/-- `top` and `pop()` are called only when `empty()` is false. -/
def Legal (c : Params) (s : QueueList α) (op : Op α) : Prop :=
  op = .top ∨ op = .pop → (s.empty c).map Prod.fst = some false

end NgxLuaCpp.IrisQueue
