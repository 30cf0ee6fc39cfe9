import NgxLuaCpp.AsyncWorker
import NgxLuaCpp.Lib.Trace
/-!
# No task is lost or run twice

A queued task is at any moment in one slot's chain or in the hands of one
thread, until it is executed. A poller takes a whole chain and puts the rest
back, part of it node by node, while others chain more tasks to the slot: what
a step changes is the chain of one slot and the tasks in the caller's hands.
-/
open Calls Holders

namespace NgxLuaCpp.AsyncWorker

/-! ## Who holds the tasks -/

/-- The tasks a call has in its hands. -/
def Pc.Hand (next : TaskPtr → Option TaskPtr) : Pc → List TaskPtr → Prop
  | .queueTask task _, l | .isTerminated task _, l | .tryEmpty task _ _ _ _, l => l = [task] ∧ next task = none
  | .notStarted task, l | .chainLoad task _, l | .chain task _ _, l | .execute task, l => l = [task]
  | .giveBack _ task, l | .executeChain _ task _ _, l => Chain next (some task) l
  | .returnLoad _ task org, l => ∃ m, l = task :: m ∧ Chain next (some org) m
  | .returnOrg _ task org rest _, l => ∃ m, l = task :: org :: m ∧ Chain next rest m
  | .runs (.poll _ rest _ _), l => Chain next rest l
  | .ended dropped, l => Chain next dropped l
  | _, l => l = []

/-- Where a task can be: in the chain of a slot, or in the hands of a call. -/
inductive Place where
  | slot (i : Nat)
  | call (j : Nat)
  deriving DecidableEq

namespace Worker

/-- The head of a slot, null outside `task_heads`. -/
def head (s : Worker) (i : Nat) : Option TaskPtr := s.taskHeads.getD i none

/-- The tasks at a place, a slot's in the order of its chain. -/
def At (s : Worker) : Place → List TaskPtr → Prop
  | .slot i, l => Chain s.next (s.head i) l
  | .call j, l => match s.calls[j]? with
    | some c => c.pc.Hand s.next l
    | none => l = []

/-- Every live task is at one place, once. -/
structure Owned (s : Worker) (content : Place → List TaskPtr) : Prop where
  held : Held content s.live
  at_ : ∀ p, s.At p (content p)

end Worker

section Hand
variable {next next' : TaskPtr → Option TaskPtr} {pc : Pc} {l m : List TaskPtr}

theorem Pc.Hand.congr (h : pc.Hand next l) (heq : ∀ a ∈ l, next' a = next a) : pc.Hand next' l := by
  cases pc with
  | queueTask | isTerminated | tryEmpty =>
    obtain ⟨rfl, h⟩ := h
    exact ⟨rfl, by rw [heq _ List.mem_cons_self, h]⟩
  | giveBack | executeChain | ended => exact Chain.congr h heq
  | returnLoad | returnOrg =>
    obtain ⟨m, rfl, h⟩ := h
    exact ⟨m, rfl, h.congr fun a ha => heq a (by simp [ha])⟩
  | runs after =>
    cases after with
    | queueTask | pollOne => exact h
    | poll => exact Chain.congr h heq
  | _ => exact h

theorem Pc.Hand.unique (h : pc.Hand next l) (h' : pc.Hand next m) : l = m := by
  cases pc with
  | queueTask | isTerminated | tryEmpty => exact h.1.trans h'.1.symm
  | giveBack | executeChain | ended => exact Chain.unique h h'
  | returnLoad | returnOrg =>
    obtain ⟨k, rfl, h⟩ := h
    obtain ⟨k', rfl, h'⟩ := h'
    rw [h.unique h']
  | runs after =>
    cases after with
    | queueTask | pollOne => exact Eq.trans h (Eq.symm h')
    | poll => exact Chain.unique h h'
  | _ => exact Eq.trans h (Eq.symm h')

end Hand

namespace Worker
variable {s s' : Worker} {content : Place → List TaskPtr} {i j slot : Nat} {c : Call Pc} {pc : Pc}
  {head : Option TaskPtr} {l m : List TaskPtr} {task : TaskPtr}

theorem at_call (hj : s.calls[j]? = some c) : s.At (.call j) l ↔ c.pc.Hand s.next l := by simp [At, hj]

theorem at_call_none (hj : s.calls[j]? = none) : s.At (.call j) l ↔ l = [] := by simp [At, hj]

theorem At.unique {p : Place} (h : s.At p l) (h' : s.At p m) : l = m := by
  cases p with
  | slot i => exact Chain.unique h h'
  | call j =>
    cases hj : s.calls[j]? with
    | none => exact ((at_call_none hj).1 h).trans ((at_call_none hj).1 h').symm
    | some c => exact ((at_call hj).1 h).unique ((at_call hj).1 h')

/-- A place that nothing happens at keeps its tasks. -/
theorem At.congr {p : Place} (h : s.At p l) (hnext : ∀ a ∈ l, s'.next a = s.next a)
    (hslot : ∀ i, p = .slot i → s'.head i = s.head i) (hcall : ∀ j, p = .call j → s'.calls[j]? = s.calls[j]?) :
    s'.At p l := by
  cases p with
  | slot i =>
    simp only [At, hslot i rfl]
    exact Chain.congr h hnext
  | call j =>
    cases hj : s.calls[j]? with
    | none => exact (at_call_none ((hcall j rfl).trans hj)).2 ((at_call_none hj).1 h)
    | some c => exact (at_call ((hcall j rfl).trans hj)).2 (((at_call hj).1 h).congr hnext)

theorem head_congr (h : s'.taskHeads = s.taskHeads) (i : Nat) : s'.head i = s.head i := by
  rw [Worker.head, Worker.head, h]

section Moved
variable {p : Place} {d : Call Pc} {thread : Nat}

theorem at_moved (hj : s.calls[j]? = some c) (hcalls : s'.calls = s.calls.set j ⟨c.thread, pc⟩) :
    s'.At (.call j) l ↔ pc.Hand s'.next l := by
  apply at_call (c := ⟨c.thread, pc⟩)
  rw [hcalls, getElem?_moved hj]
  exact .inl ⟨rfl, rfl⟩

theorem calls_moved (hcalls : s'.calls = s.calls.set j d) (hp : p ≠ .call j) (k : Nat) (hk : p = .call k) :
    s'.calls[k]? = s.calls[k]? := by
  rw [hcalls, List.getElem?_set_ne]
  rintro rfl
  exact hp hk

theorem at_made (hcalls : s'.calls = s.calls ++ [⟨thread, pc⟩]) :
    s'.At (.call s.calls.length) l ↔ pc.Hand s'.next l := by
  apply at_call (c := ⟨thread, pc⟩)
  rw [hcalls, List.getElem?_concat_length]

theorem calls_made (hcalls : s'.calls = s.calls ++ [d]) (hp : p ≠ .call s.calls.length) (k : Nat) (hk : p = .call k) :
    s'.calls[k]? = s.calls[k]? := by
  rw [hcalls, getElem?_made_of_ne]
  rintro rfl
  exact hp hk

end Moved

/-- A call moves on with the tasks it has. -/
theorem Owned.keep (h : Owned s content) (pc : Pc) (hj : s.calls[j]? = some c) (hlive : s'.live = s.live)
    (hheads : ∀ i, s'.head i = s.head i) (hcalls : s'.calls = s.calls.set j ⟨c.thread, pc⟩)
    (hnext : ∀ a, a ∉ content (.call j) → s'.next a = s.next a) (hhand : pc.Hand s'.next (content (.call j))) :
    Owned s' content := by
  refine ⟨hlive ▸ h.held, ?_⟩
  intro p
  rcases eq_or_ne p (.call j) with rfl | hp
  · exact (at_moved hj hcalls).2 hhand
  · refine (h.at_ p).congr ?_ (fun i _ => hheads i) (calls_moved hcalls hp)
    intro a ha
    exact hnext a fun ha' => hp (h.held.apart _ _ a ha ha')

/-- A call exchanges tasks with a slot. -/
theorem Owned.exchange (h : Owned s content) (hj : s.calls[j]? = some c) (hslot : slot < s.taskHeads.length)
    (hlive : s'.live = s.live) (hheads : s'.taskHeads = s.taskHeads.set slot head)
    (hcalls : s'.calls = s.calls.set j ⟨c.thread, pc⟩)
    (hnext : ∀ a, a ∉ content (.call j) → s'.next a = s.next a)
    (hp : (l ++ m).Perm (content (.slot slot) ++ content (.call j))) (hchain : Chain s'.next head l)
    (hhand : pc.Hand s'.next m) : ∃ content', Owned s' content' := by
  refine ⟨Function.update (Function.update content (.slot slot) l) (.call j) m,
    hlive ▸ h.held.exchange (by simp) hp, ?_⟩
  intro p
  by_cases hpj : p = .call j
  · subst hpj
    rw [Function.update_self]
    exact (at_moved hj hcalls).2 hhand
  · rw [Function.update_of_ne hpj]
    by_cases hps : p = .slot slot
    · subst hps
      rw [Function.update_self]
      simpa [At, Worker.head, hheads, hslot] using hchain
    · rw [Function.update_of_ne hps]
      refine (h.at_ p).congr ?_ ?_ (calls_moved hcalls hpj)
      · intro a ha
        exact hnext a fun ha' => hpj (h.held.apart _ _ a ha ha')
      · rintro i rfl
        rw [Worker.head, Worker.head, hheads, List.getD_eq_getElem?_getD, List.getD_eq_getElem?_getD,
          List.getElem?_set_ne]
        rintro rfl
        exact hps rfl

/-- A task leaves the hands of a call for good. -/
theorem Owned.leave (h : Owned s content) (hj : s.calls[j]? = some c) (hnodup : s.live.Nodup)
    (hlive : s'.live = s.live.erase task) (hheads : s'.taskHeads = s.taskHeads) (hnext : s'.next = s.next)
    (hcalls : s'.calls = s.calls.set j ⟨c.thread, pc⟩) (hhas : content (.call j) = task :: m)
    (hhand : pc.Hand s.next m) : ∃ content', Owned s' content' := by
  refine ⟨Function.update content (.call j) m, hlive ▸ h.held.erase hnodup hhas, ?_⟩
  intro p
  by_cases hpj : p = .call j
  · subst hpj
    rw [Function.update_self, at_moved hj hcalls, hnext]
    exact hhand
  · rw [Function.update_of_ne hpj]
    exact (h.at_ p).congr (fun a _ => by rw [hnext]) (fun i _ => head_congr hheads i) (calls_moved hcalls hpj)

/-! ## What a step does -/

/-- All that a step of a call at `pc` of `thread` can do: the worker it leaves, and where the
call goes on. -/
inductive Does (dup : Nat) (s : Worker) (j thread : Nat) : Pc → Worker → Pc → Prop
  | handsOver {task : TaskPtr} {priority : UInt64} :
      Does dup s j thread (.queueTask task priority) (s.handOver task) (.ended none)
  | filters {task : TaskPtr} {priority priority' : UInt64} :
      Does dup s j thread (.queueTask task priority) s (.isTerminated task priority')
  | findsTerminated {task : TaskPtr} {priority : UInt64} (h : s.terminated = true) :
      Does dup s j thread (.isTerminated task priority) s (.notStarted task)
  | findsStarted {task : TaskPtr} {priority : UInt64} {p : Nat} (h : s.terminated = false) :
      Does dup s j thread (.isTerminated task priority) s (.tryEmpty task p 0 0 minDiff)
  | tries {task : TaskPtr} {p n index index' : Nat} {maxDiff maxDiff' : ℤ} :
      Does dup s j thread (.tryEmpty task p n index maxDiff) s (.tryEmpty task p (n + 1) index' maxDiff')
  | putsFirst {task : TaskPtr} {p n index slot : Nat} {maxDiff : ℤ} (hslot : s.taskHeads[slot]? = some none) :
      Does dup s j thread (.tryEmpty task p n index maxDiff) (s.setHead slot (some task)) (.ended none)
  | triedAll {task : TaskPtr} {p n index : Nat} {maxDiff : ℤ} (h : dup ≤ n) :
      Does dup s j thread (.tryEmpty task p n index maxDiff) s (.chainLoad task (p + index * s.threads))
  | executesAtOnce {task : TaskPtr} (h : s.taskHeads = []) :
      Does dup s j thread (.notStarted task) (s.executeTask task) (.runs .queueTask)
  | keepsForLater {task : TaskPtr} (h : s.taskHeads ≠ []) : Does dup s j thread (.notStarted task) s (.chainLoad task 0)
  | loads {task : TaskPtr} {slot : Nat} {node : Option TaskPtr} (hslot : s.taskHeads[slot]? = some node) :
      Does dup s j thread (.chainLoad task slot) s (.chain task slot node)
  | chains {task : TaskPtr} {slot : Nat} {node : Option TaskPtr} (hslot : s.taskHeads[slot]? = some node) :
      Does dup s j thread (.chain task slot node) ((s.setNext task node).setHead slot (some task)) (.ended none)
  | chainsAgain {task : TaskPtr} {slot : Nat} {node node' : Option TaskPtr} (hslot : s.taskHeads[slot]? = some node') :
      Does dup s j thread (.chain task slot node) (s.setNext task node) (.chain task slot node')
  | fetchesNone {size k n : Nat} : Does dup s j thread (.fetch size k n) s (.ended none)
  | fetches {size k n k' n' : Nat} : Does dup s j thread (.fetch size k n) s (.fetch size k' n')
  | fetchesOne {size k n slot : Nat} {task : TaskPtr} (hslot : s.taskHeads[slot]? = some (some task)) :
      Does dup s j thread (.fetch size k n) s (.load slot)
  | seesOne {slot : Nat} {task : TaskPtr} (hslot : s.taskHeads[slot]? = some (some task)) :
      Does dup s j thread (.load slot) s (.take slot)
  | seesNone {pc : Pc} {slot : Nat} (hpc : pc = .load slot ∨ pc = .take slot)
      (hslot : s.taskHeads[slot]? = some none) : Does dup s j thread pc s (.ended none)
  | takes {slot : Nat} {task : TaskPtr} (hslot : s.taskHeads[slot]? = some (some task)) :
      Does dup s j thread (.take slot) (s.setHead slot none) (.giveBack slot task)
  | givesBack {slot : Nat} {task : TaskPtr} (hslot : s.taskHeads[slot]? = some none) :
      Does dup s j thread (.giveBack slot task) (s.setHead slot (s.next task)) (.execute task)
  | givesBackFor {slot : Nat} {task org : TaskPtr} (hslot : s.taskHeads[slot]? = some (some org)) :
      Does dup s j thread (.giveBack slot task) (s.setHead slot (s.next task)) (.returnLoad slot task org)
  | loadsOrg {slot : Nat} {task org : TaskPtr} {node : Option TaskPtr} (hslot : s.taskHeads[slot]? = some node) :
      Does dup s j thread (.returnLoad slot task org) s (.returnOrg slot task org (s.next org) node)
  | returns {slot : Nat} {task org : TaskPtr} {rest node : Option TaskPtr} {pc : Pc}
      (hslot : s.taskHeads[slot]? = some node)
      (hpc : rest = none ∧ pc = .execute task ∨ ∃ org', rest = some org' ∧ pc = .returnLoad slot task org') :
      Does dup s j thread (.returnOrg slot task org rest node) ((s.setNext org node).setHead slot (some org)) pc
  | returnsAgain {slot : Nat} {task org : TaskPtr} {rest node node' : Option TaskPtr}
      (hslot : s.taskHeads[slot]? = some node') :
      Does dup s j thread (.returnOrg slot task org rest node) (s.setNext org node)
        (.returnOrg slot task org rest node')
  | executes {task : TaskPtr} : Does dup s j thread (.execute task) (s.executeTask task) (.runs .pollOne)
  | passes {i : Nat} {empty joins : Bool} (hslot : s.taskHeads[i]? = some none) :
      Does dup s j thread (.poll i empty joins) s (.poll (i + 1) empty joins)
  | takesChain {i : Nat} {task : TaskPtr} {empty joins : Bool} (hslot : s.taskHeads[i]? = some (some task)) :
      Does dup s j thread (.poll i empty joins) (s.setHead i none) (.executeChain i task false joins)
  | polled {i : Nat} {empty : Bool} (hslot : s.taskHeads.length ≤ i) :
      Does dup s j thread (.poll i empty false) s (.ended none)
  | pollsAgain {i : Nat} (hslot : s.taskHeads.length ≤ i) :
      Does dup s j thread (.poll i false true) s (.poll 0 true true)
  | joins {i : Nat} (hslot : s.taskHeads.length ≤ i) : Does dup s j thread (.poll i true true) s .joined
  | executesChain {i : Nat} {task : TaskPtr} {empty joins : Bool} :
      Does dup s j thread (.executeChain i task empty joins) (s.executeTask task)
        (.runs (.poll i (s.next task) empty joins))
  | ends {after : After} (hin : innermost Pc.isEnded s.calls thread j = true)
      (hafter : after = .queueTask ∨ after = .pollOne) : Does dup s j thread (.runs after) s (.ended none)
  | throws {i : Nat} {rest : Option TaskPtr} {empty joins : Bool} (hin : innermost Pc.isEnded s.calls thread j = true) :
      Does dup s j thread (.runs (.poll i rest empty joins)) s (.ended rest)
  | endsChain {i : Nat} {empty joins : Bool} (hin : innermost Pc.isEnded s.calls thread j = true) :
      Does dup s j thread (.runs (.poll i none empty joins)) s (.poll (i + 1) empty joins)
  | goesOn {i : Nat} {task : TaskPtr} {empty joins : Bool} (hin : innermost Pc.isEnded s.calls thread j = true) :
      Does dup s j thread (.runs (.poll i (some task) empty joins)) s (.executeChain i task empty joins)
  | clears : Does dup s j thread .joined { s with taskHeads := [], threads := 0 } (.ended none)
  | makes (hnone : s.taskHeads = []) :
      Does dup s j thread .start { s with taskHeads := List.replicate (s.threads * dup) none } .started
  | starts : Does dup s j thread .started { s with terminated := false } (.ended none)

/-- Every step of a call is one of these. -/
theorem stepCall_does {dup : Nat} {diff : TaskPtr → TaskPtr → ℤ} {o : Outside}
    (h : s.stepCall dup diff j c o = some s') : ∃ u pc, Does dup s j c.thread c.pc u pc ∧ s' = u.goto j c pc := by
  obtain ⟨thread, pc⟩ := c
  cases pc with
  | queueTask task priority =>
    simp only [stepCall] at h
    split at h
    · split at h
      · exact ⟨_, _, .handsOver, (Option.some.inj h).symm⟩
      · exact ⟨_, _, .filters, (Option.some.inj h).symm⟩
    · exact ⟨_, _, .filters, (Option.some.inj h).symm⟩
  | isTerminated task priority =>
    simp only [stepCall] at h
    split at h
    · next hterm => exact ⟨_, _, .findsTerminated hterm, (Option.some.inj h).symm⟩
    · next hterm =>
      split at h
      · cases h
      · exact ⟨_, _, .findsStarted (Bool.not_eq_true _ ▸ hterm), (Option.some.inj h).symm⟩
  | tryEmpty task p n index maxDiff =>
    simp only [stepCall] at h
    split at h
    · split at h
      · cases h
      · next hslot => exact ⟨_, _, .putsFirst hslot, (Option.some.inj h).symm⟩
      · split at h
        · exact ⟨_, _, .tries, (Option.some.inj h).symm⟩
        · exact ⟨_, _, .tries, (Option.some.inj h).symm⟩
    · next hn => exact ⟨_, _, .triedAll (Nat.le_of_not_lt hn), (Option.some.inj h).symm⟩
  | notStarted task =>
    simp only [stepCall, List.isEmpty_iff] at h
    split at h
    · next hempty => exact ⟨_, _, .executesAtOnce hempty, (Option.some.inj h).symm⟩
    · next hempty => exact ⟨_, _, .keepsForLater hempty, (Option.some.inj h).symm⟩
  | chainLoad task slot =>
    simp only [stepCall, Option.bind_eq_bind, Option.bind_eq_some_iff] at h
    obtain ⟨node, hslot, h⟩ := h
    exact ⟨_, _, .loads hslot, (Option.some.inj h).symm⟩
  | chain task slot node =>
    simp only [stepCall, Option.bind_eq_bind, Option.bind_eq_some_iff] at h
    obtain ⟨head, hslot, h⟩ := h
    split at h
    · next hcas =>
      rw [hcas.1] at hslot
      exact ⟨_, _, .chains hslot, (Option.some.inj h).symm⟩
    · exact ⟨_, _, .chainsAgain hslot, (Option.some.inj h).symm⟩
  | fetch prioritySize k n =>
    simp only [stepCall] at h
    split at h
    · exact ⟨_, _, .fetchesNone, (Option.some.inj h).symm⟩
    · split at h
      · split at h
        · cases h
        · exact ⟨_, _, .fetches, (Option.some.inj h).symm⟩
        · next hslot => exact ⟨_, _, .fetchesOne hslot, (Option.some.inj h).symm⟩
      · exact ⟨_, _, .fetches, (Option.some.inj h).symm⟩
  | load slot =>
    simp only [stepCall, Option.bind_eq_bind, Option.bind_eq_some_iff] at h
    obtain ⟨head, hslot, h⟩ := h
    cases head with
    | none => exact ⟨_, _, .seesNone (.inl rfl) hslot, (Option.some.inj h).symm⟩
    | some task => exact ⟨_, _, .seesOne hslot, (Option.some.inj h).symm⟩
  | take slot =>
    simp only [stepCall] at h
    split at h
    · cases h
    · next hslot => exact ⟨_, _, .seesNone (.inr rfl) hslot, (Option.some.inj h).symm⟩
    · next hslot => exact ⟨_, _, .takes hslot, (Option.some.inj h).symm⟩
  | giveBack slot task =>
    simp only [stepCall] at h
    split at h
    · cases h
    · next hslot => exact ⟨_, _, .givesBack hslot, (Option.some.inj h).symm⟩
    · next hslot => exact ⟨_, _, .givesBackFor hslot, (Option.some.inj h).symm⟩
  | returnLoad slot task org =>
    simp only [stepCall, Option.bind_eq_bind, Option.bind_eq_some_iff] at h
    obtain ⟨node, hslot, h⟩ := h
    exact ⟨_, _, .loadsOrg hslot, (Option.some.inj h).symm⟩
  | returnOrg slot task org rest node =>
    simp only [stepCall, Option.bind_eq_bind, Option.bind_eq_some_iff] at h
    obtain ⟨head, hslot, h⟩ := h
    split at h
    · next hcas =>
      rw [hcas.1] at hslot
      cases rest with
      | none => exact ⟨_, _, .returns hslot (.inl ⟨rfl, rfl⟩), (Option.some.inj h).symm⟩
      | some org' => exact ⟨_, _, .returns hslot (.inr ⟨org', rfl, rfl⟩), (Option.some.inj h).symm⟩
    · exact ⟨_, _, .returnsAgain hslot, (Option.some.inj h).symm⟩
  | execute task => exact ⟨_, _, .executes, (Option.some.inj h).symm⟩
  | poll i empty joins =>
    simp only [stepCall] at h
    split at h
    · next hslot => exact ⟨_, _, .passes hslot, (Option.some.inj h).symm⟩
    · next hslot => exact ⟨_, _, .takesChain hslot, (Option.some.inj h).symm⟩
    · next hslot =>
      have hlen := List.getElem?_eq_none_iff.1 hslot
      cases joins with
      | false => exact ⟨_, _, .polled hlen, (Option.some.inj h).symm⟩
      | true =>
        cases empty with
        | false => exact ⟨_, _, .pollsAgain hlen, (Option.some.inj h).symm⟩
        | true => exact ⟨_, _, .joins hlen, (Option.some.inj h).symm⟩
  | executeChain i task empty joins => exact ⟨_, _, .executesChain, (Option.some.inj h).symm⟩
  | runs after =>
    simp only [stepCall] at h
    split at h
    · next hin =>
      cases after with
      | queueTask => exact ⟨_, _, .ends hin (.inl rfl), (Option.some.inj h).symm⟩
      | pollOne => exact ⟨_, _, .ends hin (.inr rfl), (Option.some.inj h).symm⟩
      | poll i rest empty joins =>
        simp only at h
        split at h
        · exact ⟨_, _, .throws hin, (Option.some.inj h).symm⟩
        · cases rest with
          | none => exact ⟨_, _, .endsChain hin, (Option.some.inj h).symm⟩
          | some task => exact ⟨_, _, .goesOn hin, (Option.some.inj h).symm⟩
    · cases h
  | joined => exact ⟨_, _, .clears, (Option.some.inj h).symm⟩
  | start =>
    simp only [stepCall, List.isEmpty_iff] at h
    split at h
    · next hnone => exact ⟨_, _, .makes hnone, (Option.some.inj h).symm⟩
    · cases h
  | started => exact ⟨_, _, .starts, (Option.some.inj h).symm⟩
  | ended dropped => cases h

theorem Does.left {dup thread : Nat} {u : Worker} {from_ pc : Pc} (h : Does dup s j thread from_ u pc) :
    from_.isEnded = false ∧ (from_.waits = true → innermost Pc.isEnded s.calls thread j = true) := by
  cases h with
  | ends hin | throws hin | endsChain hin | goesOn hin => exact ⟨rfl, fun _ => hin⟩
  | seesNone hpc =>
    rcases hpc with rfl | rfl
    · exact ⟨rfl, fun h => by cases h⟩
    · exact ⟨rfl, fun h => by cases h⟩
  | _ => exact ⟨rfl, fun h => by cases h⟩

theorem Does.calls {dup thread : Nat} {u : Worker} {from_ pc : Pc} (h : Does dup s j thread from_ u pc) :
    u.calls = s.calls := by
  cases h with
  | _ => rfl

/-! ## What becomes of the tasks -/

/-- What a step of call `j` can do to the tasks. -/
inductive Effect (dup : Nat) (s : Worker) (j : Nat) (c : Call Pc) : Worker → Prop
  /-- It writes to `next` of its tasks, if at all, and keeps all of them. -/
  | keep {next : TaskPtr → Option TaskPtr} {pc : Pc} (hhand : ∀ l, l.Nodup → c.pc.Hand s.next l →
      (∀ a ∉ l, next a = s.next a) ∧ pc.Hand next l) : Effect dup s j c ({ s with next := next }.goto j c pc)
  /-- It exchanges some of its tasks with those of a slot. -/
  | exchange (next : TaskPtr → Option TaskPtr) {slot : Nat} {head : Option TaskPtr} {pc : Pc}
      (hslot : slot < s.taskHeads.length)
      (hhand : ∀ l m, (l ++ m).Nodup → Chain s.next (s.head slot) l → c.pc.Hand s.next m →
        (∀ a ∉ m, next a = s.next a) ∧ ∃ l' m', (l' ++ m').Perm (l ++ m) ∧ Chain next head l' ∧ pc.Hand next m') :
      Effect dup s j c (({ s with next := next }.setHead slot head).goto j c pc)
  /-- It executes one of its tasks, or hands it over. -/
  | execute {task : TaskPtr} {pc : Pc} (hhand : ∀ l, c.pc.Hand s.next l → ∃ m, l = task :: m ∧ pc.Hand s.next m) :
      Effect dup s j c ((s.executeTask task).goto j c pc)
  | handOver {task : TaskPtr} {pc : Pc} (hhand : ∀ l, c.pc.Hand s.next l → ∃ m, l = task :: m ∧ pc.Hand s.next m) :
      Effect dup s j c ((s.handOver task).goto j c pc)
  /-- `join` clears the slots, and `start` makes them. -/
  | clear (hpc : c.pc = .joined) : Effect dup s j c ({ s with taskHeads := [], threads := 0 }.goto j c (.ended none))
  | make (hpc : c.pc = .start) (hnone : s.taskHeads = []) :
      Effect dup s j c ({ s with taskHeads := List.replicate (s.threads * dup) none }.goto j c .started)
  | started (hpc : c.pc = .started) : Effect dup s j c ({ s with terminated := false }.goto j c (.ended none))

theorem Effect.goes {dup : Nat} (hhand : ∀ l, c.pc.Hand s.next l → pc.Hand s.next l) :
    Effect dup s j c (s.goto j c pc) := .keep fun l _ hl => ⟨fun _ _ => rfl, hhand l hl⟩

/-- The call gives its only task to a slot. -/
theorem Effect.gives {dup : Nat} (next : TaskPtr → Option TaskPtr) (hslot : slot < s.taskHeads.length)
    (hhand : ∀ m, c.pc.Hand s.next m → m = [task]) (hother : ∀ a ≠ task, next a = s.next a)
    (htask : (∀ m, c.pc.Hand s.next m → next task = s.head slot)) (hnone : ∀ next, pc.Hand next []) :
    Effect dup s j c (({ s with next := next }.setHead slot (some task)).goto j c pc) := by
  apply Effect.exchange next hslot
  intro l m hnodup hl hm
  obtain rfl := hhand m hm
  refine ⟨fun a ha => hother a (by simpa using ha), task :: l, [], ?_, ⟨rfl, ?_⟩, hnone next⟩
  · simpa using (List.perm_append_comm : ([task] ++ l).Perm (l ++ [task]))
  · rw [htask _ hm]
    apply Chain.congr hl
    rintro a ha
    apply hother
    rintro rfl
    exact List.disjoint_of_nodup_append hnodup ha List.mem_cons_self

theorem head_eq {x : Option TaskPtr} (h : s.taskHeads[slot]? = some x) : s.head slot = x := by
  rw [head, List.getD_eq_getElem?_getD, h, Option.getD_some]

/-- A call with nothing in its hands takes a slot's chain. -/
theorem Effect.takes {dup : Nat} (hslot : s.taskHeads[slot]? = some (some task))
    (hnone : ∀ m, c.pc.Hand s.next m → m = []) (hhand : ∀ l, Chain s.next (some task) l → pc.Hand s.next l) :
    Effect dup s j c ((s.setHead slot none).goto j c pc) := by
  refine Effect.exchange s.next (List.getElem?_eq_some_iff.1 hslot).1 fun l m _ hl hm => ?_
  obtain rfl := hnone m hm
  rw [head_eq hslot] at hl
  exact ⟨fun _ _ => rfl, [], l, by simp, rfl, hhand l hl⟩

/-- Seen from the tasks, each step has one of the effects. -/
theorem Does.effect {dup : Nat} {u : Worker} (h : Does dup s j c.thread c.pc u pc) :
    Effect dup s j c (u.goto j c pc) := by
  obtain ⟨thread, from_⟩ := c
  cases h with
  | handsOver => exact .handOver fun l hl => ⟨[], hl.1, rfl⟩
  | filters | tries | findsStarted => exact .goes fun l hl => hl
  | findsTerminated | triedAll => exact .goes fun l hl => hl.1
  | putsFirst hslot =>
    refine Effect.gives s.next (List.getElem?_eq_some_iff.1 hslot).1 (fun m hm => hm.1) (fun _ _ => rfl)
      (fun m hm => ?_) fun _ => rfl
    rw [head_eq hslot]
    exact hm.2
  | executesAtOnce => exact .execute fun l hl => ⟨[], hl, rfl⟩
  | keepsForLater | loads => exact .goes fun l hl => hl
  | @chains task slot node hslot =>
    refine Effect.gives (Function.update s.next task node) (List.getElem?_eq_some_iff.1 hslot).1
      (fun m hm => hm) (fun a ha => Function.update_of_ne ha _ _) (fun m _ => ?_) fun _ => rfl
    rw [Function.update_self, head_eq hslot]
  | chainsAgain =>
    refine .keep fun l _ hl => ⟨fun a ha => ?_, hl⟩
    obtain rfl := hl
    exact Function.update_of_ne (by simpa using ha) _ _
  | fetchesNone => exact .goes fun l hl => chain_none.2 hl
  | fetches | fetchesOne | seesOne => exact .goes fun l hl => hl
  | seesNone hpc =>
    rcases hpc with rfl | rfl
    · exact .goes fun l hl => chain_none.2 hl
    · exact .goes fun l hl => chain_none.2 hl
  | takes hslot => exact Effect.takes hslot (fun m hm => hm) fun l hl => hl
  | @givesBack slot task hslot =>
    refine Effect.exchange s.next (List.getElem?_eq_some_iff.1 hslot).1 fun l m _ hl hm => ?_
    obtain ⟨k, rfl, hk⟩ := chain_some.1 hm
    rw [head_eq hslot] at hl
    obtain rfl := chain_none.1 hl
    exact ⟨fun _ _ => rfl, k, [task], by simp, hk, rfl⟩
  | @givesBackFor slot task org hslot =>
    refine Effect.exchange s.next (List.getElem?_eq_some_iff.1 hslot).1 fun l m _ hl hm => ?_
    obtain ⟨k, rfl, hk⟩ := chain_some.1 hm
    rw [head_eq hslot] at hl
    refine ⟨fun _ _ => rfl, k, task :: l, ?_, hk, ⟨l, rfl, hl⟩⟩
    exact List.perm_append_comm.trans List.perm_middle.symm
  | loadsOrg =>
    refine .goes fun l hl => ?_
    obtain ⟨m, rfl, hm⟩ := hl
    obtain ⟨k, rfl, hk⟩ := chain_some.1 hm
    exact ⟨k, rfl, hk⟩
  | @returns slot task org rest node pc hslot hpc =>
    -- `org` goes back to the slot and the rest of the chain stays
    have hother : ∀ a ≠ org, Function.update s.next org node a = s.next a := fun a ha => Function.update_of_ne ha _ _
    have hrest : ∀ next k, Chain next rest k → pc.Hand next (task :: k) := by
      intro next k hk
      rcases hpc with ⟨rfl, rfl⟩ | ⟨org', rfl, rfl⟩
      · rw [chain_none.1 hk]
        rfl
      · exact ⟨k, rfl, hk⟩
    refine Effect.exchange _ (List.getElem?_eq_some_iff.1 hslot).1 fun l m hnodup hl hm => ?_
    obtain ⟨k, rfl, hk⟩ := hm
    have horg : org ∉ l ∧ org ∉ k := by
      rw [List.nodup_append] at hnodup
      simp only [List.nodup_cons] at hnodup
      exact ⟨fun ho => hnodup.2.2 org ho org (by simp) rfl, hnodup.2.1.2.1⟩
    refine ⟨fun a ha => hother a (by simp at ha; exact ha.2.1), org :: l, task :: k, ?_, ⟨rfl, ?_⟩, hrest _ _ ?_⟩
    · exact List.perm_middle.symm.trans ((List.Perm.swap task org k).append_left l)
    · rw [Function.update_self, ← head_eq hslot]
      exact hl.congr fun a ha => Function.update_of_ne (ne_of_mem_of_not_mem ha horg.1) _ _
    · exact hk.congr fun a ha => hother a (ne_of_mem_of_not_mem ha horg.2)
  | @returnsAgain slot task org rest node =>
    have hother : ∀ a ≠ org, Function.update s.next org node a = s.next a := fun a ha => Function.update_of_ne ha _ _
    refine .keep fun l hnodup hl => ?_
    obtain ⟨k, rfl, hk⟩ := hl
    simp only [List.nodup_cons] at hnodup
    refine ⟨fun a ha => hother a (by simp at ha; exact ha.2.1), k, rfl, ?_⟩
    exact hk.congr fun a ha => hother a (ne_of_mem_of_not_mem ha hnodup.2.1)
  | executes => exact .execute fun l hl => ⟨[], hl, rfl⟩
  | passes | pollsAgain | joins => exact .goes fun l hl => hl
  | takesChain hslot => exact Effect.takes hslot (fun m hm => hm) fun l hl => hl
  | polled => exact .goes fun l hl => chain_none.2 hl
  | executesChain => exact .execute fun l hl => chain_some.1 hl
  | ends _ hafter =>
    rcases hafter with rfl | rfl
    · exact .goes fun l hl => chain_none.2 hl
    · exact .goes fun l hl => chain_none.2 hl
  | throws | goesOn => exact .goes fun l hl => hl
  | endsChain => exact .goes fun l hl => chain_none.1 hl
  | clears => exact .clear rfl
  | makes hnone => exact .make rfl hnone
  | starts => exact .started rfl

/-! ## The invariant -/

/-- Where every task queued is: executed, handed over or live. -/
def Accounted (s : Worker) : Prop := (s.executed ++ s.handed ++ s.live.map s.ident).Perm (List.range s.queued)

/-- What the loop of `join` has found. -/
def Swept (s : Worker) : Pc → Prop
  | .poll i true true => ∀ k < i, s.head k = none
  | .executeChain _ _ empty true | .runs (.poll _ _ empty true) => empty = false
  | .joined => ∀ k, s.head k = none
  | _ => True

/-- While a call is in `join`, the calls before it are over and those after it are by its tasks. -/
structure Joins (s : Worker) (j : Nat) (c : Call Pc) : Prop where
  before : ∀ (i : Nat) (d : Call Pc), i < j → s.calls[i]? = some d → d.pc.isEnded = true
  after : ∀ (i : Nat) (d : Call Pc), j < i → s.calls[i]? = some d → d.thread = c.thread
  swept : s.Swept c.pc

/-- Where the tasks are, what became of those that are gone, and what `join` relies on. -/
structure Inv (s : Worker) : Prop where
  owned : ∃ content, Owned s content
  accounted : Accounted s
  nested : Nested Pc.isEnded Pc.waits s.calls
  joins : ∀ (j : Nat) (c : Call Pc), s.calls[j]? = some c → c.pc.joins = true → Joins s j c

theorem Accounted.nodup (h : Accounted s) : (s.executed ++ s.handed ++ s.live.map s.ident).Nodup :=
  h.nodup_iff.2 List.nodup_range

theorem Accounted.live_nodup (h : Accounted s) : s.live.Nodup := h.nodup.of_append_right.of_map

theorem Owned.mem_live {p : Place} (h : Owned s content) (hmem : task ∈ content p) : task ∈ s.live :=
  (h.held.mem task).2 ⟨p, hmem⟩

/-- The tasks stay at one place each. -/
theorem Effect.owned {dup : Nat} (h : Effect dup s j c s') (hown : Owned s content) (hj : s.calls[j]? = some c)
    (hnodup : s.live.Nodup) (hclear : c.pc = .joined → ∀ i, s.head i = none) : ∃ content', Owned s' content' := by
  have hhas : c.pc.Hand s.next (content (.call j)) := (at_call hj).1 (hown.at_ _)
  cases h with
  | keep hhand =>
    obtain ⟨hnext, hpc⟩ := hhand _ (hown.held.nodup _) hhas
    exact ⟨content, hown.keep _ hj rfl (fun _ => rfl) rfl hnext hpc⟩
  | @exchange next slot head pc hslot hhand =>
    have hapart : (content (.slot slot) ++ content (.call j)).Nodup := by
      refine List.Nodup.append (hown.held.nodup _) (hown.held.nodup _) fun a ha ha' => ?_
      cases hown.held.apart _ _ a ha ha'
    obtain ⟨hnext, l, m, hp, hchain, hpc⟩ := hhand _ _ hapart (hown.at_ (.slot slot)) hhas
    exact hown.exchange hj hslot rfl rfl rfl hnext hp hchain hpc
  | execute hhand =>
    obtain ⟨m, hm, hpc⟩ := hhand _ hhas
    exact hown.leave hj hnodup rfl rfl rfl rfl hm hpc
  | handOver hhand =>
    obtain ⟨m, hm, hpc⟩ := hhand _ hhas
    exact hown.leave hj hnodup rfl rfl rfl rfl hm hpc
  | clear hpc =>
    rw [hpc] at hhas
    refine ⟨content, hown.keep (.ended none) hj rfl (fun i => ?_) rfl (fun _ _ => rfl) (chain_none.2 hhas)⟩
    exact (hclear hpc i).symm
  | make hpc hnone =>
    rw [hpc] at hhas
    refine ⟨content, hown.keep .started hj rfl (fun i => ?_) rfl (fun _ _ => rfl) hhas⟩
    simp only [goto, Worker.head, hnone, List.getD_eq_getElem?_getD, List.getElem?_replicate]
    split <;> rfl
  | started hpc =>
    rw [hpc] at hhas
    exact ⟨content, hown.keep (.ended none) hj rfl (fun _ => rfl) rfl (fun _ _ => rfl) (chain_none.2 hhas)⟩

/-- A task that leaves the worker is counted where it went. -/
theorem Effect.accounted {dup : Nat} (h : Effect dup s j c s') (hown : Owned s content) (hj : s.calls[j]? = some c)
    (hacc : Accounted s) : Accounted s' := by
  have hhas : c.pc.Hand s.next (content (.call j)) := (at_call hj).1 (hown.at_ _)
  have hleaves : ∀ task, (∃ m, content (.call j) = task :: m) →
      (s.live.map s.ident).Perm (s.ident task :: (s.live.erase task).map s.ident) := by
    rintro task ⟨m, hm⟩
    exact (List.perm_cons_erase (hown.mem_live (p := .call j) (by simp [hm]))).map s.ident
  cases h with
  | @execute task pc hhand =>
    obtain ⟨m, hm, -⟩ := hhand _ hhas
    refine List.Perm.trans ?_ (((hleaves task ⟨m, hm⟩).append_left _).symm.trans hacc)
    simp only [goto, executeTask, List.append_assoc, List.singleton_append]
    exact List.perm_middle.symm.append_left _
  | @handOver task pc hhand =>
    obtain ⟨m, hm, -⟩ := hhand _ hhas
    refine List.Perm.trans ?_ (((hleaves task ⟨m, hm⟩).append_left _).symm.trans hacc)
    simp only [goto, Worker.handOver, List.append_assoc, List.singleton_append]
    rfl
  | _ => exact hacc

/-- A step of a call that is not in `join` does not enter it. -/
theorem Does.joined {dup : Nat} {u : Worker} (h : Does dup s j c.thread c.pc u pc) (hjoins : pc.joins = true) :
    c.pc.joins = true ∧ (s.Swept c.pc → (u.goto j c pc).Swept pc) := by
  obtain ⟨thread, from_⟩ := c
  cases h with
  | @passes i empty joins hslot =>
    refine ⟨hjoins, fun hswept => ?_⟩
    obtain rfl : joins = true := hjoins
    cases empty with
    | false => trivial
    | true =>
      intro k hk
      rcases Nat.lt_succ_iff_lt_or_eq.1 hk with hk | rfl
      · exact hswept k hk
      · exact head_eq (s := s) hslot
  | takesChain =>
    refine ⟨hjoins, fun _ => ?_⟩
    obtain rfl := hjoins
    rfl
  | pollsAgain => exact ⟨rfl, fun _ k hk => absurd hk (Nat.not_lt_zero k)⟩
  | @joins i hlen =>
    refine ⟨rfl, fun hswept k => ?_⟩
    rcases Nat.lt_or_ge k i with hk | hk
    · exact hswept k hk
    · change s.taskHeads.getD k none = none
      rw [List.getD_eq_getElem?_getD, List.getElem?_eq_none (hlen.trans hk), Option.getD_none]
  | executesChain =>
    refine ⟨hjoins, fun hswept => ?_⟩
    obtain rfl := hjoins
    exact hswept
  | endsChain =>
    refine ⟨hjoins, fun hswept => ?_⟩
    obtain rfl := hjoins
    obtain rfl := hswept
    trivial
  | goesOn =>
    refine ⟨hjoins, fun hswept => ?_⟩
    obtain rfl := hjoins
    exact hswept
  | returns _ hpc =>
    rcases hpc with ⟨-, rfl⟩ | ⟨org', -, rfl⟩
    · cases hjoins
    · cases hjoins
  | _ => cases hjoins

theorem not_ended_of_joins (hjoins : c.pc.joins = true) : c.pc.isEnded = false := by
  obtain ⟨thread, pc⟩ := c
  cases pc with
  | ended dropped => cases hjoins
  | _ => rfl

theorem Inv.stepCall {dup : Nat} {diff : TaskPtr → TaskPtr → ℤ} {o : Outside} (h : Inv s) (hj : s.calls[j]? = some c)
    (hstep : s.stepCall dup diff j c o = some s') : Inv s' := by
  obtain ⟨content, hown⟩ := h.owned
  obtain ⟨u, pc, hdoes, rfl⟩ := stepCall_does hstep
  have heffect := hdoes.effect
  obtain ⟨hleft, hwaits⟩ := hdoes.left
  have hcalls : (u.goto j c pc).calls = s.calls.set j ⟨c.thread, pc⟩ := by rw [goto, hdoes.calls]
  refine ⟨heffect.owned hown hj h.accounted.live_nodup ?_, heffect.accounted hown hj h.accounted, ?_, ?_⟩
  · intro hpc
    have hswept := (h.joins j c hj (by rw [hpc]; rfl)).swept
    rwa [hpc] at hswept
  · rw [hcalls]
    exact h.nested.moved hj hleft hwaits
  · intro i d hi hd
    have hget : ∀ (k : Nat) (e : Call Pc), (u.goto j c pc).calls[k]? = some e ↔
        k = j ∧ e = ⟨c.thread, pc⟩ ∨ k ≠ j ∧ s.calls[k]? = some e := by
      intro k e
      rw [hcalls, getElem?_moved hj]
    rcases (hget i d).1 hi with ⟨rfl, rfl⟩ | ⟨hij, hi⟩
    · obtain ⟨hc, hswept⟩ := hdoes.joined hd
      have hJ := h.joins i c hj hc
      refine ⟨?_, ?_, hswept hJ.swept⟩
      · intro k e hk he
        rcases (hget k e).1 he with ⟨rfl, -⟩ | ⟨-, he⟩
        · exact absurd hk (lt_irrefl _)
        · exact hJ.before k e hk he
      · intro k e hk he
        rcases (hget k e).1 he with ⟨rfl, -⟩ | ⟨-, he⟩
        · exact absurd hk (lt_irrefl _)
        · exact hJ.after k e hk he
    · have hJ := h.joins i d hi hd
      have hlt : i < j := by
        rcases lt_or_gt_of_ne hij with hlt | hlt
        · exact hlt
        · rw [hJ.before j c hlt hj] at hleft
          cases hleft
      have hthread := hJ.after j c hlt hj
      refine ⟨?_, ?_, ?_⟩
      · intro k e hk he
        rcases (hget k e).1 he with ⟨rfl, -⟩ | ⟨-, he⟩
        · exact absurd (hk.trans hlt) (lt_irrefl _)
        · exact hJ.before k e hk he
      · intro k e hk he
        rcases (hget k e).1 he with ⟨rfl, rfl⟩ | ⟨-, he⟩
        · exact hthread
        · exact hJ.after k e hk he
      · -- `join` waits for the task that made this call
        have hwait := h.nested i j d c hlt hi hj hthread.symm
        rw [hleft, not_ended_of_joins hd] at hwait
        have hswept := hJ.swept
        cases hpc : d.pc with
        | runs after =>
          rw [hpc] at hswept hd
          cases after with
          | queueTask | pollOne => cases hd
          | poll k rest empty joins =>
            obtain rfl : joins = true := hd
            exact hswept
        | _ => simp [hpc, Pc.waits] at hwait

/-- A thread makes a call that holds nothing yet. -/
theorem Owned.made {thread : Nat} (h : Owned s content) (hlive : s'.live = s.live) (hheads : s'.taskHeads = s.taskHeads)
    (hnext : s'.next = s.next) (hcalls : s'.calls = s.calls ++ [⟨thread, pc⟩]) (hhand : pc.Hand s.next []) :
    Owned s' content := by
  refine ⟨hlive ▸ h.held, ?_⟩
  intro p
  by_cases hp : p = .call s.calls.length
  · subst hp
    have hnone : content (.call s.calls.length) = [] := (at_call_none (by simp)).1 (h.at_ _)
    rw [hnone, at_made hcalls, hnext]
    exact hhand
  · exact (h.at_ p).congr (fun a _ => by rw [hnext]) (fun i _ => head_congr hheads i) (calls_made hcalls hp)

/-- A call comes with a new task. -/
theorem Owned.queue {thread : Nat} {priority : UInt64} (h : Owned s content) (htask : task ∉ s.live)
    (hlive : s'.live = task :: s.live) (hheads : s'.taskHeads = s.taskHeads)
    (hnext : s'.next = Function.update s.next task none)
    (hcalls : s'.calls = s.calls ++ [⟨thread, .queueTask task priority⟩]) : ∃ content', Owned s' content' := by
  have hnone : content (.call s.calls.length) = [] := (at_call_none (by simp)).1 (h.at_ _)
  refine ⟨Function.update content (.call s.calls.length) [task], hlive ▸ h.held.insert hnone htask, ?_⟩
  intro p
  by_cases hp : p = .call s.calls.length
  · subst hp
    rw [Function.update_self, at_made hcalls]
    exact ⟨rfl, by rw [hnext, Function.update_self]⟩
  · rw [Function.update_of_ne hp]
    refine (h.at_ p).congr ?_ (fun i _ => head_congr hheads i) (calls_made hcalls hp)
    intro a ha
    rw [hnext, Function.update_of_ne (ne_of_mem_of_not_mem (h.mem_live ha) htask)]

theorem Accounted.queue (h : Accounted s) (htask : task ∉ s.live) (hlive : s'.live = task :: s.live)
    (hident : s'.ident = Function.update s.ident task s.queued) (hqueued : s'.queued = s.queued + 1)
    (hexecuted : s'.executed = s.executed) (hhanded : s'.handed = s.handed) : Accounted s' := by
  have hmap : s.live.map (Function.update s.ident task s.queued) = s.live.map s.ident :=
    List.map_congr_left fun a ha => Function.update_of_ne (ne_of_mem_of_not_mem ha htask) _ _
  rw [Accounted, hlive, hident, hqueued, hexecuted, hhanded, List.map_cons, Function.update_self, hmap, List.range_succ]
  exact List.perm_middle.trans ((h.cons _).trans (List.perm_append_singleton _ _).symm)

theorem Inv.made {thread : Nat} (h : Inv s) (pc : Pc) (hcall : s.canCall thread = true)
    (hheads : s'.taskHeads = s.taskHeads)
    (hcalls : s'.calls = s.calls ++ [⟨thread, pc⟩]) (howned : ∃ content, Owned s' content) (haccounted : Accounted s')
    (hjoins : pc.joins = true → (∀ (i : Nat) (d : Call Pc), s.calls[i]? = some d → d.pc.isEnded = true) ∧ s'.Swept pc) :
    Inv s' := by
  simp only [canCall, Bool.and_eq_true, List.all_eq_true, Bool.or_eq_true, Bool.not_eq_true', beq_iff_eq] at hcall
  have hswept : ∀ pc : Pc, s.Swept pc → s'.Swept pc := by
    intro pc hpc
    have hhead : s'.head = s.head := funext (head_congr hheads)
    unfold Swept at hpc ⊢
    rwa [hhead]
  refine ⟨howned, haccounted, hcalls ▸ h.nested.made hcall.1, ?_⟩
  intro i d hi hd
  have hget : ∀ (k : Nat) (e : Call Pc), s'.calls[k]? = some e ↔
      k = s.calls.length ∧ e = ⟨thread, pc⟩ ∨ k < s.calls.length ∧ s.calls[k]? = some e := by
    intro k e
    rw [hcalls, getElem?_made]
  rcases (hget i d).1 hi with ⟨rfl, rfl⟩ | ⟨hlt, hi⟩
  · obtain ⟨hover, hnew⟩ := hjoins hd
    refine ⟨?_, ?_, hnew⟩
    · intro k e hk he
      rcases (hget k e).1 he with ⟨rfl, -⟩ | ⟨-, he⟩
      · exact absurd hk (lt_irrefl _)
      · exact hover k e he
    · intro k e hk he
      rcases (hget k e).1 he with ⟨rfl, -⟩ | ⟨hk', -⟩
      · exact absurd hk (lt_irrefl _)
      · exact absurd (hk.trans hk') (lt_irrefl _)
  · have hJ := h.joins i d hi hd
    refine ⟨?_, ?_, hswept _ hJ.swept⟩
    · intro k e hk he
      rcases (hget k e).1 he with ⟨rfl, -⟩ | ⟨-, he⟩
      · exact absurd (hk.trans hlt) (lt_irrefl _)
      · exact hJ.before k e hk he
    · intro k e hk he
      rcases (hget k e).1 he with ⟨rfl, rfl⟩ | ⟨-, he⟩
      · rcases hcall.2 d (List.mem_of_getElem? hi) with hd' | hd'
        · rw [hd] at hd'
          cases hd'
        · exact hd'.symm
      · exact hJ.after k e hk he

/-- A call begins, and with `queue_task` a task. -/
theorem Inv.startCall {thread : Nat} {entry : Entry} (h : Inv s) (hcall : s.canCall thread = true)
    (hstart : s.startCall thread entry = some s') : Inv s' := by
  obtain ⟨content, hown⟩ := h.owned
  have hmade : ∀ pc : Pc, pc.Hand s.next [] →
      (pc.joins = true → (∀ (i : Nat) (d : Call Pc), s.calls[i]? = some d → d.pc.isEnded = true) ∧
        (s.makeCall thread pc).Swept pc) → Inv (s.makeCall thread pc) := by
    intro pc hhand hjoins
    exact h.made pc hcall rfl rfl ⟨content, hown.made rfl rfl rfl rfl hhand⟩ h.accounted hjoins
  cases entry with
  | queueTask task priority =>
    simp only [Worker.startCall, List.contains_iff_mem] at hstart
    split at hstart
    · cases hstart
    · next htask =>
      obtain rfl := Option.some.inj hstart
      exact h.made (.queueTask task priority) hcall rfl rfl (hown.queue htask rfl rfl rfl rfl)
        (h.accounted.queue htask rfl rfl rfl rfl rfl) nofun
  | join =>
    simp only [Worker.startCall] at hstart
    split at hstart
    · next hover =>
      obtain rfl := Option.some.inj hstart
      refine hmade _ rfl fun _ => ⟨fun i d hd => ?_, fun k hk => absurd hk (Nat.not_lt_zero k)⟩
      exact List.all_eq_true.1 hover d (List.mem_of_getElem? hd)
    · cases hstart
  | _ =>
    obtain rfl := Option.some.inj hstart
    exact hmade _ rfl nofun

theorem inv_new : Inv new := by
  refine ⟨⟨fun _ => [], held_nil, ?_⟩, List.Perm.refl _, nested_nil, ?_⟩
  · intro p
    cases p with
    | slot i => rfl
    | call j => rfl
  · intro j c hj
    cases hj

/-- What the slots, the links, the calls and the tasks are decides all of the invariant. -/
theorem Inv.outside (h : Inv s) (threads internal : Nat) (threshold : UInt64) (terminated : Bool)
    (index : Nat → Option Nat) :
    Inv { s with
      threads := threads, internalThreads := internal, priorityTaskThreshold := threshold, terminated := terminated
      threadIndex := index } := by
  obtain ⟨content, hown⟩ := h.owned
  refine ⟨⟨content, hown.held, fun p => ?_⟩, h.accounted, h.nested, fun j c hj hc => ?_⟩
  · exact (hown.at_ p).congr (fun _ _ => rfl) (fun _ _ => rfl) fun _ _ => rfl
  · have hJ := h.joins j c hj hc
    exact ⟨hJ.before, hJ.after, hJ.swept⟩

/-- Every action keeps the invariant. -/
theorem Inv.step (dup : Nat) (diff : TaskPtr → TaskPtr → ℤ) (a : Action) (h : Inv s) : Inv (s.step dup diff a) := by
  unfold Worker.step
  cases hact : s.act dup diff a with
  | none => exact h
  | some s' =>
    rw [Option.getD_some]
    cases a with
    | call thread entry =>
      simp only [act] at hact
      split at hact
      · next hcall => exact h.startCall hcall hact
      · cases hact
    | step j o =>
      simp only [act, Option.bind_eq_bind, Option.bind_eq_some_iff] at hact
      obtain ⟨c, hj, hstep⟩ := hact
      exact h.stepCall hj hstep
    | resize | append =>
      simp only [act] at hact
      split at hact
      · obtain rfl := Option.some.inj hact
        exact h.outside _ _ _ _ _
      · cases hact
    | _ =>
      obtain rfl := Option.some.inj hact
      exact h.outside _ _ _ _ _

theorem inv_run (dup : Nat) (diff : TaskPtr → TaskPtr → ℤ) (acts : List Action) : Inv (run dup diff acts) :=
  Trace.invariant (fun _ s => Inv s) inv_new (fun _ _ a h => h.step dup diff a) acts

/-! ## Every task once -/

/-- Who can have a task. -/
inductive Keeper where
  | slot (i : Nat)
  | thread (t : Nat)

/-- A keeper has what is at its slot, and what the calls of its thread have in hand. -/
def Stands (s : Worker) : Place → Keeper → Prop
  | .slot i, .slot i' => i = i'
  | .call j, .thread t => ∃ c, s.calls[j]? = some c ∧ c.thread = t ∧ c.pc.isEnded = false
  | _, _ => False

/-- Task `id` is at place `p`. -/
def IsAt (s : Worker) (id : Nat) (p : Place) : Prop := ∃ l, s.At p l ∧ ∃ task ∈ l, s.ident task = id

/-- The task is where this keeper has it. -/
def Keeps (s : Worker) (id : Nat) (k : Keeper) : Prop := ∃ p, s.Stands p k ∧ s.IsAt id p

/-- Task `id` is in the chain that a call left behind when a task threw. -/
def Dropped (s : Worker) (id : Nat) : Prop :=
  ∃ (j : Nat) (c : Call Pc), s.calls[j]? = some c ∧ c.pc.isEnded = true ∧ s.IsAt id (.call j)

/-- A step that takes `join` out of its loop. -/
def JoinReturns (s : Worker) (a : Action) : Prop :=
  ∃ (j : Nat) (o : Outside) (c : Call Pc), a = .step j o ∧ s.calls[j]? = some c ∧ c.pc = .joined

variable {id : Nat}

theorem isAt_iff {p : Place} (hown : Owned s content) : s.IsAt id p ↔ ∃ task ∈ content p, s.ident task = id := by
  constructor
  · rintro ⟨l, hl, h⟩
    rwa [hl.unique (hown.at_ p)] at h
  · intro h
    exact ⟨_, hown.at_ p, h⟩

theorem Accounted.cases (h : Accounted s) (hid : id < s.queued) (hexecuted : id ∉ s.executed)
    (hhanded : id ∉ s.handed) :
    ∃ task ∈ s.live, s.ident task = id := by
  have hmem : id ∈ s.executed ++ s.handed ++ s.live.map s.ident := h.mem_iff.2 (List.mem_range.2 hid)
  simpa [hexecuted, hhanded] using hmem

theorem Inv.place_unique {p q : Place} (h : Inv s) (hp : s.IsAt id p) (hq : s.IsAt id q) : p = q := by
  obtain ⟨content, hown⟩ := h.owned
  obtain ⟨a, ha, hida⟩ := (isAt_iff hown).1 hp
  obtain ⟨b, hb, hidb⟩ := (isAt_iff hown).1 hq
  have hinj := List.inj_on_of_nodup_map h.accounted.nodup.of_append_right (hown.mem_live ha) (hown.mem_live hb)
  obtain rfl := hinj (hida.trans hidb.symm)
  exact hown.held.apart p q a ha hb

theorem Inv.exists_place (h : Inv s) (hid : id < s.queued) (hexecuted : id ∉ s.executed) (hhanded : id ∉ s.handed) :
    ∃ p, s.IsAt id p := by
  obtain ⟨content, hown⟩ := h.owned
  obtain ⟨task, htask, hident⟩ := h.accounted.cases hid hexecuted hhanded
  obtain ⟨p, hp⟩ := (hown.held.mem task).1 htask
  exact ⟨p, (isAt_iff hown).2 ⟨task, hp, hident⟩⟩

/-- A task at a call is in its hands. -/
theorem IsAt.call (h : s.IsAt id (.call j)) : ∃ c, s.calls[j]? = some c ∧ ¬ c.pc.Hand s.next [] := by
  obtain ⟨l, hl, task, htask, -⟩ := h
  cases hj : s.calls[j]? with
  | none =>
    rw [(at_call_none hj).1 hl] at htask
    cases htask
  | some c =>
    refine ⟨c, rfl, fun hnil => ?_⟩
    rw [((at_call hj).1 hl).unique hnil] at htask
    cases htask

theorem IsAt.head_ne_none (h : s.IsAt id (.slot i)) : s.head i ≠ none := by
  obtain ⟨l, hl, task, htask, -⟩ := h
  intro hnone
  rw [At, hnone, chain_none] at hl
  rw [hl] at htask
  cases htask

/-- A task that is not gone and was not dropped has one keeper. -/
theorem Inv.kept (h : Inv s) (hid : id < s.queued) (hexecuted : id ∉ s.executed) (hhanded : id ∉ s.handed)
    (hdropped : ¬ s.Dropped id) : ∃! k, s.Keeps id k := by
  obtain ⟨p, hp⟩ := h.exists_place hid hexecuted hhanded
  have hsame : ∀ k, s.Keeps id k → s.Stands p k := by
    rintro k ⟨q, hq, hat⟩
    rwa [h.place_unique hp hat]
  cases p with
  | slot i =>
    refine ⟨.slot i, ⟨.slot i, rfl, hp⟩, fun k hk => ?_⟩
    have hstands := hsame k hk
    cases k with
    | slot i' => exact congrArg Keeper.slot (Eq.symm hstands)
    | thread t => cases hstands
  | call j =>
    obtain ⟨c, hc, -⟩ := hp.call
    have hover : c.pc.isEnded = false := by
      cases ho : c.pc.isEnded with
      | false => rfl
      | true => exact absurd ⟨j, c, hc, ho, hp⟩ hdropped
    refine ⟨.thread c.thread, ⟨.call j, ⟨c, hc, rfl, hover⟩, hp⟩, fun k hk => ?_⟩
    have hstands := hsame k hk
    cases k with
    | slot i => cases hstands
    | thread t =>
      obtain ⟨c', hc', rfl, -⟩ := hstands
      rw [hc] at hc'
      cases hc'
      rfl

/-- After the loop of `join`, nothing is left but what a call dropped. -/
theorem Inv.joined (h : Inv s) (hj : s.calls[j]? = some c) (hpc : c.pc = .joined) (hid : id < s.queued)
    (hhanded : id ∉ s.handed) (hdropped : ¬ s.Dropped id) : s.executed.count id = 1 := by
  have hnodup := h.accounted.nodup.of_append_left.of_append_left
  refine List.count_eq_one_of_mem hnodup ?_
  by_contra hexecuted
  obtain ⟨p, hp⟩ := h.exists_place hid hexecuted hhanded
  have hJ := h.joins j c hj (by rw [hpc]; rfl)
  cases p with
  | slot i =>
    have hswept := hJ.swept
    rw [hpc] at hswept
    exact hp.head_ne_none (hswept i)
  | call k =>
    obtain ⟨d, hd, hhand⟩ := hp.call
    have hover : d.pc.isEnded = true := by
      rcases lt_trichotomy k j with hkj | rfl | hjk
      · exact hJ.before k d hkj hd
      · rw [hj] at hd
        cases hd
        rw [hpc] at hhand
        exact absurd rfl hhand
      · have hnested := h.nested j k c d hjk hj hd (hJ.after k d hjk hd).symm
        simpa [hpc, Pc.isEnded, Pc.waits] using hnested
    exact hdropped ⟨k, d, hd, hover, hp⟩

/-- No task is executed twice or executed and handed over, a task that is neither, and that
no exception left behind, has one keeper, and `join` leaves no such task. -/
theorem tasks_conserved (dup : Nat) (diff : TaskPtr → TaskPtr → ℤ) (acts : List Action) :
    ((run dup diff acts).executed ++ (run dup diff acts).handed).Nodup ∧
      (∀ id < (run dup diff acts).queued, id ∉ (run dup diff acts).executed → id ∉ (run dup diff acts).handed →
        ¬ (run dup diff acts).Dropped id → ∃! k, (run dup diff acts).Keeps id k) ∧
      ∀ a, (run dup diff acts).JoinReturns a → ∀ id < (run dup diff acts).queued, id ∉ (run dup diff acts).handed →
        ¬ (run dup diff acts).Dropped id → (run dup diff (acts ++ [a])).executed.count id = 1 := by
  have h := inv_run dup diff acts
  refine ⟨h.accounted.nodup.of_append_left, ?_, ?_⟩
  · intro id hid hexecuted hhanded hdropped
    exact h.kept hid hexecuted hhanded hdropped
  · rintro a ⟨j, o, c, rfl, hj, hpc⟩ id hid hhanded hdropped
    have hsame : (run dup diff (acts ++ [.step j o])).executed = (run dup diff acts).executed := by
      rw [run, List.foldl_concat, ← run, step, act, hj, Option.bind_eq_bind, Option.bind_some, stepCall, hpc]
      rfl
    rw [hsame]
    exact h.joined hj hpc hid hhanded hdropped

/-- A thread executes one task while another queues two more, and `join` executes these. -/
def joinRun : List Action :=
  [.resize 1, .call 0 .start, .step 0 {}, .step 0 {}, .call 0 (.queueTask 8 0), .step 1 {}, .step 1 {}, .step 1 {},
    .call 1 .pollOne, .step 2 {}, .step 2 {}, .step 2 {},
    .call 0 (.queueTask 16 0), .step 3 {}, .step 3 {}, .step 3 {}, .call 0 (.queueTask 24 1), .step 4 {}, .step 4 {},
    .step 4 {}, .step 4 {}, .step 2 {}, .step 2 {}, .step 2 {}, .step 2 {}, .step 2 {}, .terminate,
    .call 0 .join] ++ List.replicate 20 (.step 5 {})

example : (run 4 (· - ·) joinRun).executed = [0, 1, 2] ∧ (run 4 (· - ·) joinRun).calls.all (·.pc.isEnded) = true := by
  decide +kernel

/-- The handler takes the one task queued. -/
def takenRun : List Action :=
  [.setPriorityTaskHandler 0, .resize 1, .call 0 .start, .step 0 {}, .step 0 {},
    .call 0 (.queueTask 8 0xffffffffffffffff), .step 1 { taken := true }]

/-- Of two tasks in a chain that `poll` takes, the first throws. -/
def thrownRun : List Action :=
  [.resize 1, .call 0 .start, .step 0 {}, .step 0 {}, .terminate,
    .call 0 (.queueTask 8 0), .step 1 {}, .step 1 {}, .step 1 {}, .step 1 {}, .step 1 {},
    .call 0 (.queueTask 16 0), .step 2 {}, .step 2 {}, .step 2 {}, .step 2 {}, .step 2 {},
    .call 0 .poll, .step 3 {}, .step 3 {}, .step 3 { throws := true }]

/-- Where the slots are empty and all calls over, nobody keeps a task. -/
theorem not_keeps (hheads : s.taskHeads.all (·.isNone) = true) (hcalls : s.calls.all (·.pc.isEnded) = true)
    (k : Keeper) :
    ¬ s.Keeps id k := by
  rintro ⟨p, hp, hat⟩
  cases p with
  | slot i =>
    apply hat.head_ne_none
    rw [head, List.getD_eq_getElem?_getD]
    cases hi : s.taskHeads[i]? with
    | none => rfl
    | some x => simpa using List.all_eq_true.1 hheads x (List.mem_of_getElem? hi)
  | call j =>
    cases k with
    | slot i => exact hp
    | thread t =>
      obtain ⟨c, hc, -, hover⟩ := hp
      rw [List.all_eq_true.1 hcalls c (List.mem_of_getElem? hc)] at hover
      cases hover

/-- Neither the task the handler took nor the one left behind is executed, and nobody has them. -/
theorem tasks_without_keeper :
    (0 < (run 4 (· - ·) takenRun).queued ∧ 0 ∉ (run 4 (· - ·) takenRun).executed ∧
      ∀ k, ¬ (run 4 (· - ·) takenRun).Keeps 0 k) ∧
    (0 < (run 4 (· - ·) thrownRun).queued ∧ 0 ∉ (run 4 (· - ·) thrownRun).executed ∧
      ∀ k, ¬ (run 4 (· - ·) thrownRun).Keeps 0 k) :=
  ⟨⟨by decide +kernel, by decide +kernel, not_keeps (by decide +kernel) (by decide +kernel)⟩,
    by decide +kernel, by decide +kernel, not_keeps (by decide +kernel) (by decide +kernel)⟩

end Worker
end NgxLuaCpp.AsyncWorker
