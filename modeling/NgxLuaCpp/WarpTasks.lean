import NgxLuaCpp.WarpRuns
/-!
# What becomes of a warp's tasks

A call at the queues has the warp for its thread, and so has a task that runs,
as long as no task yields the warp itself: then all tasks of a warp run on one
thread at a time. Each task that is posted waits in one place, and is taken
once, in the order its queue was filled.
-/
open Calls Trace

namespace NgxLuaCpp.Warps

/-! ## Exclusion -/

/-- The call takes or leaves the warp, or is at the queues. -/
def Pc.holds : Pc → Bool
  | .find .. => true
  | pc => pc.owns

/-- The call runs a task, or the function of `queue_routine` under its guard. -/
def Pc.runsTask : Pc → Bool
  | .runs (.task ..) | .runs (.func _) => true
  | _ => false

/-- The call yields the warp before it ends, if its thread still has it. -/
def Pc.willYield : Pc → Bool
  | .post _ yields | .flushLoad yields | .flushExchange yields | .flushQueue yields | .runs (.queue yields) => yields
  | .yieldLoad _ | .yieldStore | .recheck _ => true
  | .doubleCheck preempted | .markExecuting preempted | .markPending preempted | .find preempted _ _
  | .check preempted _ _ | .runs (.task preempted _ _) | .runs (.func preempted) => preempted
  | _ => false

theorem Pc.active_of_holds {pc : Pc} (h : pc.holds = true) : pc.isEnded = false ∧ pc.waits = false := by
  cases pc with
  | find => exact ⟨rfl, rfl⟩
  | _ => exact Pc.active_of_owns h

theorem Pc.waits_of_runsTask {pc : Pc} (h : pc.runsTask = true) : pc.isEnded = false ∧ pc.waits = true := by
  cases pc with
  | runs => exact ⟨rfl, rfl⟩
  | _ => cases h

namespace Warp

/-- A task yields the warp it runs on. -/
def yieldsInTask (w : Warp) : Action → Bool
  | .call thread .yield => w.calls.any fun c => c.thread == thread && c.pc.runsTask
  | _ => false

/-- What the calls rely on, whatever the tasks do. -/
structure Guarded (w : Warp) : Prop where
  nested : Nested Pc.isEnded Pc.waits w.calls
  holder : ∀ (i : Nat) (d : Call Pc), w.calls[i]? = some d → d.pc.holds = true → w.threadWarp = some d.thread

/-- A task has the warp, and the calls it makes do not yield it. -/
structure Kept (w : Warp) : Prop where
  running : ∀ (i : Nat) (d : Call Pc), w.calls[i]? = some d → d.pc.runsTask = true → w.threadWarp = some d.thread
  inner : ∀ (i k : Nat) (c d : Call Pc), i < k → w.calls[i]? = some c → w.calls[k]? = some d → c.thread = d.thread →
    c.pc.runsTask = true → d.pc.willYield = false

variable {w w' : Warp} {j : Nat} {c : Call Pc} {pc : Pc} {throws : Bool}

theorem preempted_of_unguarded {preempted : Bool} (h : (unguarded preempted).willYield = true) :
    preempted = true := by
  cases preempted with
  | true => rfl
  | false => cases h

theorem preempted_of_executed {preempted : Bool} (h : (executed preempted).willYield = true) :
    preempted = true := by
  cases preempted with
  | true => rfl
  | false => cases h

theorem runsTask_unguarded {preempted : Bool} : (unguarded preempted).runsTask = false := by
  cases preempted with
  | _ => rfl

theorem runsTask_executed {preempted : Bool} : (executed preempted).runsTask = false := by
  cases preempted with
  | _ => rfl

theorem holds_unguarded {preempted : Bool} : (unguarded preempted).holds = false := by
  cases preempted with
  | _ => rfl

theorem holds_executed {preempted : Bool} : (executed preempted).holds = false := by
  cases preempted with
  | _ => rfl

/-- What a step of call `j` may do to the warp's thread. -/
structure Turns (w : Warp) (j : Nat) (c : Call Pc) (pc : Pc) (w' : Warp) : Prop extends Moves w j c pc w' where
  takes : pc.holds = true ∨ pc.runsTask = true → w'.threadWarp = some c.thread
  gives : w'.threadWarp = w.threadWarp ∨ w.threadWarp = none ∨ c.pc = .yieldStore
  yields : pc.willYield = true → c.pc.willYield = true ∨ w.threadWarp = none

/-- A call comes to hold the warp, or to run a task, only where its thread has the warp. -/
theorem Does.holder {u : Warp} {thread : Nat} {pc pc' : Pc} (hdoes : Does w j thread throws pc u pc')
    (hown : pc.holds = true → w.threadWarp = some thread) (h : pc'.holds = true ∨ pc'.runsTask = true) :
    u.threadWarp = some thread := by
  cases hdoes with
  | yields ht | hasAlready ht | goesOn ht => exact ht
  | preempts => rfl
  | rechecks | marksExecuting | takes | turns | finds => exact hown rfl
  | checksAgain => exact hown rfl
  | @guardFails body | @preemptFails body =>
    cases body with
    | _ => simp [guarded, unguarded, Pc.holds, Pc.owns, Pc.runsTask] at h
  | flushed | marksAgain | marksPending | taskThrows | returns =>
    simp [holds_unguarded, runsTask_unguarded] at h
  | stops => simp [holds_executed, runsTask_executed] at h
  | _ => simp [Pc.holds, Pc.owns, Pc.runsTask] at h

/-- Only the guard that takes the warp makes a call one that will yield it. -/
theorem Does.will_yield {u : Warp} {thread : Nat} {pc pc' : Pc} (hdoes : Does w j thread throws pc u pc')
    (h : pc'.willYield = true) : pc.willYield = true ∨ w.threadWarp = none := by
  cases hdoes with
  | preempts hnone => exact .inr hnone
  | flushed | marksAgain | marksPending | taskThrows => exact .inl (preempted_of_unguarded h)
  | finds | stops => exact .inl (preempted_of_executed h)
  | returns _ hrunning =>
    rcases hrunning with rfl | rfl
    · exact .inl (preempted_of_unguarded h)
    · exact .inl (preempted_of_unguarded h)
  | checksAgain hpc =>
    rcases hpc with rfl | rfl
    · exact .inl h
    · exact .inl h
  | @guardFails body | @hasAlready body | @preemptFails body =>
    cases body with
    | _ => cases h
  | idles | idlesPending | yieldsNot | givesUp => cases h
  | yields | flushesInstead | rechecks => exact .inl rfl
  | _ => exact .inl h

theorem Guarded.turns (h : Guarded w) (hj : w.calls[j]? = some c) (hstep : w.stepCall j c throws = some w') :
    ∃ pc, Turns w j c pc w' := by
  obtain ⟨u, pc', hdoes, rfl⟩ := stepCall_does hstep
  have m := hdoes.moves hj fun hc => h.holder j c hj (by rw [hc]; rfl)
  refine ⟨pc', m, hdoes.holder (h.holder j c hj), ?_, hdoes.will_yield⟩
  obtain ⟨thread, pc⟩ := c
  cases hdoes with
  | givesUp => exact .inr (.inr rfl)
  | preempts hnone => exact .inr (.inl hnone)
  | _ => exact .inl rfl

/-- What a call has had, and not yielded, its thread still has. -/
theorem Turns.stays (t : Turns w j c pc w') (h : Guarded w) {thread : Nat} (hold : w.threadWarp = some thread)
    (hne : c.thread = thread → c.pc ≠ .yieldStore) : w'.threadWarp = some thread := by
  rcases t.gives with heq | hnone | hyield
  · rw [heq, hold]
  · rw [hold] at hnone
    cases hnone
  · have hown := h.holder j c t.at_ (by rw [hyield]; rfl)
    rw [hold] at hown
    exact absurd hyield (hne (Option.some.inj hown).symm)

theorem Turns.guarded (t : Turns w j c pc w') (h : Guarded w) : Guarded w' := by
  refine ⟨?_, ?_⟩
  · rw [t.calls]
    exact h.nested.moved t.at_ t.left t.waits
  · intro i d hi hd
    rw [t.calls, getElem?_moved t.at_] at hi
    rcases hi with ⟨rfl, rfl⟩ | ⟨hij, hi⟩
    · exact t.takes (.inl hd)
    · apply t.stays h (h.holder i d hi hd)
      intro ht hyield
      obtain ⟨hover, hwaits⟩ := Pc.active_of_holds hd
      exact hij (h.nested.active hi t.at_ ht.symm hover hwaits t.left (by rw [hyield]; rfl))

/-- A step that turns so leaves each running task the warp. -/
theorem Turns.kept (t : Turns w j c pc w') (h : Guarded w) (hk : Kept w) : Kept w' := by
  refine ⟨?_, ?_⟩
  · intro i d hi hd
    rw [t.calls, getElem?_moved t.at_] at hi
    rcases hi with ⟨rfl, rfl⟩ | ⟨hij, hi⟩
    · exact t.takes (.inr hd)
    · apply t.stays h (hk.running i d hi hd)
      intro ht hyield
      obtain ⟨hover, -⟩ := Pc.waits_of_runsTask hd
      rcases lt_or_gt_of_ne hij with hlt | hgt
      · have hfalse := hk.inner i j d c hlt hi t.at_ ht.symm hd
        rw [hyield] at hfalse
        cases hfalse
      · have hnested := h.nested j i c d hgt t.at_ hi ht
        rw [hyield] at hnested
        rcases hnested with hd' | hc | hc
        · rw [hover] at hd'
          cases hd'
        · cases hc
        · cases hc
  · intro i k a d hik hi hk' ht ha
    rw [t.calls, getElem?_moved t.at_] at hi hk'
    rcases hi with ⟨rfl, rfl⟩ | ⟨hij, hi⟩
    · rcases hk' with ⟨rfl, -⟩ | ⟨-, hd⟩
      · exact absurd hik (lt_irrefl _)
      · -- a call that waits for its task is the last of its thread
        have hended : d.pc.isEnded = true := by
          rcases h.nested i k c d hik t.at_ hd ht with hd' | hc | hc
          · exact hd'
          · rw [t.left] at hc
            cases hc
          · exact innermost_iff.1 (t.waits hc) k d hik hd ht.symm
        cases hpc : d.pc with
        | ended => rfl
        | _ =>
          rw [hpc] at hended
          cases hended
    · rcases hk' with ⟨rfl, rfl⟩ | ⟨-, hd⟩
      · rw [Bool.eq_false_iff]
        intro hyields
        rcases t.yields hyields with hc | hnone
        · rw [hk.inner i k a c hik hi t.at_ ht ha] at hc
          cases hc
        · rw [hk.running i a hi ha] at hnone
          cases hnone
      · exact hk.inner i k a d hik hi hd ht ha

/-- A new call leaves the warp to those that have it. -/
theorem Guarded.made {thread : Nat} (h : Guarded w) (hfree : free Pc.isEnded Pc.waits w.calls thread = true)
    (hcalls : w'.calls = w.calls ++ [⟨thread, pc⟩]) (howner : w'.threadWarp = w.threadWarp)
    (hholds : pc.holds = false) : Guarded w' := by
  refine ⟨hcalls ▸ h.nested.made hfree, ?_⟩
  intro i d hi hd
  rw [hcalls, getElem?_made] at hi
  rcases hi with ⟨-, rfl⟩ | ⟨-, hi⟩
  · rw [hholds] at hd
    cases hd
  · rw [howner, h.holder i d hi hd]

theorem Kept.made {thread : Nat} (h : Kept w) (hcalls : w'.calls = w.calls ++ [⟨thread, pc⟩])
    (howner : w'.threadWarp = w.threadWarp) (hruns : pc.runsTask = false)
    (hyields : pc.willYield = true → ∀ d ∈ w.calls, d.thread = thread → d.pc.runsTask = false) : Kept w' := by
  refine ⟨?_, ?_⟩
  · intro i d hi hd
    rw [hcalls, getElem?_made] at hi
    rcases hi with ⟨-, rfl⟩ | ⟨-, hi⟩
    · rw [hruns] at hd
      cases hd
    · rw [howner, h.running i d hi hd]
  · intro i k a d hik hi hk ht ha
    rw [hcalls, getElem?_made] at hi hk
    rcases hk with ⟨rfl, rfl⟩ | ⟨hk, hd⟩
    · rcases hi with ⟨rfl, -⟩ | ⟨-, hi⟩
      · exact absurd hik (lt_irrefl _)
      · rw [Bool.eq_false_iff]
        intro hwill
        rw [hyields hwill a (List.mem_of_getElem? hi) ht] at ha
        cases ha
    · rcases hi with ⟨rfl, -⟩ | ⟨-, hi⟩
      · exact absurd (hik.trans hk) (lt_irrefl _)
      · exact h.inner i k a d hik hi hd ht ha

/-- How a call begins: it has nothing yet, and yields only where it is a `yield`. -/
theorem startCall_made {thread : Nat} {entry : Entry} (hstart : w.startCall thread entry = some w') :
    w'.threadWarp = w.threadWarp ∧ ∃ pc : Pc, w'.calls = w.calls ++ [⟨thread, pc⟩] ∧
      pc.holds = false ∧ pc.runsTask = false ∧ (pc.willYield = true → entry = .yield) := by
  cases entry with
  | execute =>
    simp only [Warp.startCall] at hstart
    split at hstart
    · cases hstart
    · obtain rfl := Option.some.inj hstart
      exact ⟨rfl, _, rfl, rfl, rfl, fun hyield => by cases hyield⟩
  | external func =>
    simp only [Warp.startCall] at hstart
    split at hstart
    · obtain rfl := Option.some.inj hstart
      exact ⟨rfl, _, rfl, rfl, rfl, fun hyield => by cases hyield⟩
    · cases hstart
  | yield =>
    obtain rfl := Option.some.inj hstart
    exact ⟨rfl, _, rfl, rfl, rfl, fun _ => rfl⟩
  | _ =>
    obtain rfl := Option.some.inj hstart
    exact ⟨rfl, _, rfl, rfl, rfl, fun hyield => by cases hyield⟩

/-- Every action keeps what the calls rely on. -/
theorem Guarded.step (h : Guarded w) (a : Action) : Guarded (w.step a) := by
  unfold Warp.step
  cases hact : w.act a with
  | none => exact h
  | some w' =>
    rw [Option.getD_some]
    cases a with
    | makeCurrent thread index =>
      obtain rfl := Option.some.inj hact
      exact ⟨h.nested, h.holder⟩
    | call thread entry =>
      simp only [act] at hact
      split at hact
      · next hfree =>
        obtain ⟨howner, pc, hcalls, hholds, -⟩ := startCall_made hact
        exact h.made hfree hcalls howner hholds
      · cases hact
    | step j throws =>
      simp only [act, Option.bind_eq_bind, Option.bind_eq_some_iff] at hact
      obtain ⟨c, hj, hstep⟩ := hact
      obtain ⟨pc, t⟩ := h.turns hj hstep
      exact t.guarded h

/-- An action that does not yield in a task leaves each running task the warp. -/
theorem Kept.step (hk : Kept w) (h : Guarded w) (a : Action) (hyields : w.yieldsInTask a = false) :
    Kept (w.step a) := by
  unfold Warp.step
  cases hact : w.act a with
  | none => exact hk
  | some w' =>
    rw [Option.getD_some]
    cases a with
    | makeCurrent thread index =>
      obtain rfl := Option.some.inj hact
      exact ⟨hk.running, hk.inner⟩
    | call thread entry =>
      simp only [act] at hact
      split at hact
      · next hfree =>
        obtain ⟨howner, pc, hcalls, -, hruns, hyield⟩ := startCall_made hact
        refine hk.made hcalls howner hruns fun hwill d hd ht => ?_
        obtain rfl := hyield hwill
        have hnone := List.any_eq_false.1 hyields d hd
        simpa [ht] using hnone
      · cases hact
    | step j throws =>
      simp only [act, Option.bind_eq_bind, Option.bind_eq_some_iff] at hact
      obtain ⟨c, hj, hstep⟩ := hact
      obtain ⟨pc, t⟩ := h.turns hj hstep
      exact t.kept h hk

theorem guarded_run (strand : Bool) (threadCount : Nat) (acts : List Action) :
    Guarded (run strand threadCount acts) := by
  refine invariant (fun _ w => Guarded w) ⟨nested_nil, by simp [new]⟩ (fun _ w a h => ?_) acts
  exact h.step a

theorem kept_run {strand : Bool} {threadCount : Nat} {acts : List Action}
    (h : Each (fun pre a => (run strand threadCount pre).yieldsInTask a = false) acts) :
    Kept (run strand threadCount acts) := by
  induction acts using List.reverseRecOn with
  | nil => exact ⟨by simp [run, new], by simp [run, new]⟩
  | append_singleton acts a ih =>
    obtain ⟨hacts, ha⟩ := each_concat.1 h
    rw [run_concat]
    exact (ih hacts).step (guarded_run strand threadCount acts) a ha

/-- Calls at the queues or running tasks are on the one thread the warp is on. -/
def Exclusive (w : Warp) : Prop :=
  ∀ c ∈ w.calls, c.pc.holds = true ∨ c.pc.runsTask = true → w.threadWarp = some c.thread

/-- Where no task yields its warp, all that runs on the warp runs on one thread. -/
theorem tasks_exclusive (strand : Bool) (threadCount : Nat) (acts : List Action)
    (h : Each (fun pre a => (run strand threadCount pre).yieldsInTask a = false) acts) :
    Throughout (fun pre => Exclusive (run strand threadCount pre)) acts := by
  rintro pre ⟨post, rfl⟩ c hc hon
  have hpre : Each (fun pre a => (run strand threadCount pre).yieldsInTask a = false) pre := by
    intro before a after heq
    apply h before a (after ++ post)
    rw [heq, List.append_assoc, List.cons_append]
  obtain ⟨i, hi⟩ := List.mem_iff_getElem?.1 hc
  rcases hon with hholds | hruns
  · exact (guarded_run strand threadCount pre).holder i c hi hholds
  · exact (kept_run hpre).running i c hi hruns

/-- Two tasks, one posted before the other runs. -/
theorem two_tasks_exclusive :
    Throughout (fun pre => Exclusive (run false 2 pre)) (firstRuns ++ List.replicate 14 (.step 2 false)) :=
  tasks_exclusive false 2 _ (by decide +kernel)

end Warp

/-! ## Order -/

namespace Storage

/-- A strand has one queue, or else there is one for each thread. -/
def lane (b : Nat) : Storage → List Nat
  | chain executing queueing => if b = 0 then executing ++ queueing.reverse else []
  | grid buffers => buffers[b]?.getD []

/-- The queue that a thread pushes to. -/
def pushLane (threadIndex : Option Nat) : Storage → Nat
  | chain .. => 0
  | grid _ => threadIndex.getD 0

/-- The queue that the loop takes from at buffer `i`. -/
def takeLane (i : Nat) : Storage → Nat
  | chain .. => 0
  | grid _ => i

/-- All tasks queued. -/
def tasks : Storage → Multiset Nat
  | chain executing queueing => executing + queueing
  | grid buffers => Monitor.weight Multiset.ofList buffers

variable {st rest : Storage} {task i counter b : Nat} {index : Option Nat}

theorem lane_push (h : st.push task index = some rest) :
    rest.lane b = st.lane b ++ if b = st.pushLane index then [task] else [] := by
  cases st with
  | chain executing queueing =>
    obtain rfl := Option.some.inj h
    by_cases hb : b = 0
    · simp [lane, pushLane, hb]
    · simp [lane, pushLane, hb]
  | grid buffers =>
    obtain ⟨i, rfl, h⟩ := Option.bind_eq_some_iff.1 h
    obtain ⟨buffer, hi, h⟩ := Option.bind_eq_some_iff.1 h
    obtain rfl := Option.some.inj h
    rcases eq_or_ne b i with rfl | hb
    · simp [lane, pushLane, hi, List.getElem?_set_self (List.getElem?_eq_some_iff.1 hi).1]
    · simp [lane, pushLane, hb, List.getElem?_set_ne hb.symm]

/-- The task found is the first of its queue. -/
theorem lane_find (h : st.find i counter = .task task rest) :
    st.lane b = (if b = st.takeLane i then [task] else []) ++ rest.lane b := by
  cases st with
  | chain executing queueing =>
    by_cases hb : b = 0
    · cases executing with
      | cons a executing =>
        cases h
        simp [lane, takeLane, hb]
      | nil =>
        simp only [find] at h
        split at h
        · next a executing hrev =>
          cases h
          simp [lane, takeLane, hb, hrev]
        · cases h
    · have hrest : rest.lane b = [] := by
        cases executing with
        | cons a executing =>
          cases h
          exact if_neg hb
        | nil =>
          simp only [find] at h
          split at h
          · cases h
            exact if_neg hb
          · cases h
      rw [hrest]
      simp [lane, takeLane, hb]
  | grid buffers =>
    simp only [find] at h
    split at h
    · next a buffer hi =>
      obtain ⟨rfl, rfl⟩ := Found.task.inj h
      rcases eq_or_ne b i with rfl | hb
      · simp [lane, takeLane, hi, List.getElem?_set_self (List.getElem?_eq_some_iff.1 hi).1]
      · simp [lane, takeLane, hb, List.getElem?_set_ne hb.symm]
    · cases h
    · split at h
      all_goals cases h

theorem tasks_set {buffers : List (List Nat)} {buffer buffer' : List Nat} (hi : buffers[i]? = some buffer) :
    (grid (buffers.set i buffer')).tasks + buffer = (grid buffers).tasks + buffer' := Monitor.weight_moved hi

theorem tasks_push (h : st.push task index = some rest) : rest.tasks = st.tasks + {task} := by
  cases st with
  | chain executing queueing =>
    obtain rfl := Option.some.inj h
    rw [tasks, tasks, ← Multiset.cons_coe, ← Multiset.singleton_add]
    abel
  | grid buffers =>
    obtain ⟨i, -, h⟩ := Option.bind_eq_some_iff.1 h
    obtain ⟨buffer, hi, h⟩ := Option.bind_eq_some_iff.1 h
    obtain rfl := Option.some.inj h
    apply add_right_cancel (b := (buffer : Multiset Nat))
    rw [tasks_set hi, ← Multiset.coe_add, Multiset.coe_singleton]
    abel

/-- The task found is one of those there. -/
theorem tasks_find (h : st.find i counter = .task task rest) : st.tasks = {task} + rest.tasks := by
  cases st with
  | chain executing queueing =>
    cases executing with
    | cons a executing =>
      cases h
      rw [tasks, tasks, ← Multiset.cons_coe, ← Multiset.singleton_add, add_assoc]
    | nil =>
      simp only [find] at h
      split at h
      · next a executing hrev =>
        cases h
        rw [tasks, tasks, ← Multiset.coe_reverse queueing, hrev, ← Multiset.cons_coe, ← Multiset.singleton_add]
        simp
      · cases h
  | grid buffers =>
    simp only [find] at h
    split at h
    · next a buffer hi =>
      obtain ⟨rfl, rfl⟩ := Found.task.inj h
      apply add_right_cancel (b := (buffer : Multiset Nat))
      rw [← tasks_set hi, ← Multiset.cons_coe, ← Multiset.singleton_add]
      abel
    · cases h
    · split at h
      all_goals cases h

end Storage

/-! ## What a run does with the tasks -/

/-- The task that the call has with it. -/
def Pc.carries : Pc → Multiset Nat
  | .post task _ => {task}
  | .guard (.routine func) | .preempt (.routine func) | .recheck (.routine func) => {func}
  | _ => 0

namespace Warp

/-- The task that the step puts in queue `b`. -/
def posts (b : Nat) (w : Warp) : Action → List Nat
  | .step j _ =>
    match w.calls[j]? with
    | some ⟨thread, .post task _⟩ =>
      if (w.storage.push task (w.threadIndex thread)).isSome && b == w.storage.pushLane (w.threadIndex thread) then
        [task]
      else []
    | _ => []
  | _ => []

/-- The task that the step takes from queue `b` to run it. -/
def takes (b : Nat) (w : Warp) : Action → List Nat
  | .step j _ =>
    match w.calls[j]? with
    | some ⟨_, .find _ i counter⟩ =>
      match w.storage.find i counter with
      | .task task _ => if b = w.storage.takeLane i then [task] else []
      | _ => []
    | _ => []
  | _ => []

/-- The task that the action gives the warp. -/
def asks (w : Warp) (a : Action) : List Nat :=
  match a with
  | .call _ (.queueRoutinePost task) | .call _ (.queueRoutine task) => if (w.act a).isSome then [task] else []
  | _ => []

/-- The task that the step begins to run. -/
def starts (w : Warp) : Action → List Nat
  | .step j _ =>
    match w.calls[j]? with
    | some ⟨_, .find _ i counter⟩ =>
      match w.storage.find i counter with
      | .task task _ => [task]
      | _ => []
    | some ⟨thread, .preempt (.routine func)⟩ => if w.threadWarp = some thread then [func] else []
    | some ⟨_, .recheck (.routine func)⟩ => if w.suspendCount = 0 then [func] else []
    | _ => []
  | _ => []

variable {w w' : Warp} {j : Nat} {c : Call Pc} {pc : Pc} {throws : Bool}

/-- What a step of call `j` does with the tasks. -/
structure Effect (w : Warp) (j : Nat) (throws : Bool) (c : Call Pc) (w' : Warp) (pc : Pc) : Prop where
  calls : w'.calls = w.calls.set j ⟨c.thread, pc⟩
  lanes : ∀ b, takes b w (.step j throws) ++ w'.storage.lane b = w.storage.lane b ++ posts b w (.step j throws)
  tasks : c.pc.carries + w.externals + w.storage.tasks =
    (w.starts (.step j throws) : Multiset Nat) + (pc.carries + w'.externals + w'.storage.tasks)

/-- Where a step neither fills the queues nor begins to run a task. -/
def quiet : Pc → Bool
  | .post .. | .find .. | .preempt (.routine _) | .recheck (.routine _) => false
  | _ => true

theorem silent_of_quiet (hj : w.calls[j]? = some c) (h : quiet c.pc = true) :
    (∀ b, takes b w (.step j throws) = [] ∧ posts b w (.step j throws) = []) ∧ w.starts (.step j throws) = [] := by
  obtain ⟨thread, pc⟩ := c
  cases pc with
  | post | find => cases h
  | preempt body | recheck body =>
    cases body with
    | execute => simp [takes, posts, starts, hj]
    | routine => cases h
  | _ => simp [takes, posts, starts, hj]

theorem Effect.of_quiet (hj : w.calls[j]? = some c) (h : quiet c.pc = true)
    (hcalls : w'.calls = w.calls.set j ⟨c.thread, pc⟩) (hexternals : w'.externals = w.externals)
    (hstorage : w'.storage = w.storage) (hcarries : pc.carries = c.pc.carries) : Effect w j throws c w' pc := by
  have ⟨hlanes, hstarts⟩ : (∀ b, takes b w (.step j throws) = [] ∧ posts b w (.step j throws) = []) ∧
      w.starts (.step j throws) = [] := silent_of_quiet hj h
  refine ⟨hcalls, fun b => ?_, ?_⟩
  · rw [(hlanes b).1, (hlanes b).2, hstorage, List.nil_append, List.append_nil]
  · rw [hstarts, hstorage, hexternals, hcarries, Multiset.coe_nil, zero_add]

/-- The same where the step begins to run the function it has. -/
theorem Effect.of_begins {func : Nat} (hj : w.calls[j]? = some c)
    (hc : c.pc = .preempt (.routine func) ∨ c.pc = .recheck (.routine func))
    (hcalls : w'.calls = w.calls.set j ⟨c.thread, pc⟩) (hexternals : w'.externals = w.externals)
    (hstorage : w'.storage = w.storage)
    (hcarries : {func} = (w.starts (.step j throws) : Multiset Nat) + pc.carries) : Effect w j throws c w' pc := by
  obtain ⟨thread, pc'⟩ := c
  refine ⟨hcalls, fun b => ?_, ?_⟩
  · rcases hc with rfl | rfl
    · simp [takes, posts, hj, hstorage]
    · simp [takes, posts, hj, hstorage]
  · rw [hexternals, hstorage, ← add_assoc, ← add_assoc, ← hcarries]
    rcases hc with rfl | rfl
    · rfl
    · rfl

theorem carries_unguarded {preempted : Bool} : (unguarded preempted).carries = 0 := by
  cases preempted with
  | _ => rfl

theorem carries_executed {preempted : Bool} : (executed preempted).carries = 0 := by
  cases preempted with
  | _ => rfl

/-- Seen from the tasks, each step has one of the effects. -/
theorem Does.effect {u : Warp} (hj : w.calls[j]? = some c) (hdoes : Does w j c.thread throws c.pc u pc) :
    Effect w j throws c (u.goto j c pc) pc := by
  obtain ⟨thread, from_⟩ := c
  cases hdoes with
  | @pushes task yields storage hpush =>
    refine ⟨rfl, fun b => ?_, ?_⟩
    · change Warp.takes b w _ ++ storage.lane b = _
      rw [Storage.lane_push hpush]
      simp [Warp.takes, posts, hj, hpush]
    · change _ = _ + (_ + _ + storage.tasks)
      rw [Storage.tasks_push hpush]
      simp only [starts, hj, Pc.carries, goto, Multiset.coe_nil]
      abel
  | @handsOver task yields buffers hgrid hnone =>
    have hpush : w.storage.push task none = none := by
      rw [hgrid]
      rfl
    refine ⟨rfl, fun b => ?_, ?_⟩
    · simp [Warp.takes, posts, hj, hnone, hpush, goto, handOver]
    · simp only [starts, hj, Pc.carries, goto, handOver, ← Multiset.coe_add, Multiset.coe_singleton, Multiset.coe_nil]
      abel
  | @takes _ _ _ task rest hfind =>
    refine ⟨rfl, fun b => ?_, ?_⟩
    · change Warp.takes b w _ ++ rest.lane b = _
      rw [Storage.lane_find hfind]
      simp [Warp.takes, posts, hj, hfind]
    · change _ = _ + (_ + _ + rest.tasks)
      rw [Storage.tasks_find hfind]
      simp only [starts, hj, hfind, Pc.carries, goto, Multiset.coe_singleton]
      abel
  | turns hfind =>
    refine ⟨rfl, fun b => ?_, ?_⟩
    · simp [Warp.takes, posts, hj, hfind, goto]
    · simp [starts, hj, hfind, Pc.carries, goto]
  | finds hfind =>
    refine ⟨rfl, fun b => ?_, ?_⟩
    · simp [Warp.takes, posts, hj, hfind, goto]
    · simp only [starts, hj, hfind, goto, carries_executed, Multiset.coe_nil, zero_add]
      rfl
  | @hasAlready body hown =>
    cases body with
    | execute => exact .of_quiet hj rfl rfl rfl rfl rfl
    | routine func => exact .of_begins hj (.inl rfl) rfl rfl rfl (by simp [starts, hj, hown, guarded, Pc.carries])
  | @preempts body hnone =>
    cases body with
    | execute => exact .of_quiet hj rfl rfl rfl rfl rfl
    | routine func => exact .of_begins hj (.inl rfl) rfl rfl rfl (by simp [starts, hj, hnone, Pc.carries])
  | @preemptFails body hother _ =>
    cases body with
    | execute => exact .of_quiet hj rfl rfl rfl rfl rfl
    | routine func => exact .of_begins hj (.inl rfl) rfl rfl rfl (by simp [starts, hj, hother, guarded, Pc.carries])
  | @rechecks body =>
    by_cases hs : w.suspendCount = 0
    · cases body with
      | execute => exact .of_quiet hj rfl rfl rfl rfl (by simp [hs, guarded, Pc.carries])
      | routine func => exact .of_begins hj (.inr rfl) rfl rfl rfl (by simp [starts, hj, hs, guarded, Pc.carries])
    · cases body with
      | execute => exact .of_quiet hj rfl rfl rfl rfl (by simp [hs, guarded, unguarded, Pc.carries])
      | routine func => exact .of_begins hj (.inr rfl) rfl rfl rfl (by simp [starts, hj, hs, guarded, Pc.carries])
  | @guards body | @guardFails body =>
    cases body with
    | _ => exact .of_quiet hj rfl rfl rfl rfl rfl
  | flushed | marksAgain | marksPending | taskThrows => exact .of_quiet hj rfl rfl rfl rfl carries_unguarded
  | stops => exact .of_quiet hj rfl rfl rfl rfl carries_executed
  | idles hpc | idlesPending hpc | checksAgain hpc =>
    rcases hpc with rfl | rfl
    · exact .of_quiet hj rfl rfl rfl rfl rfl
    · exact .of_quiet hj rfl rfl rfl rfl rfl
  | returns _ hrunning =>
    rcases hrunning with rfl | rfl
    · exact .of_quiet hj rfl rfl rfl rfl carries_unguarded
    · exact .of_quiet hj rfl rfl rfl rfl carries_unguarded
  | _ => exact .of_quiet hj rfl rfl rfl rfl rfl

theorem stepCall_effect (hj : w.calls[j]? = some c) (hstep : w.stepCall j c throws = some w') :
    ∃ pc, Effect w j throws c w' pc := by
  obtain ⟨u, pc, hdoes, rfl⟩ := stepCall_does hstep
  exact ⟨pc, hdoes.effect hj⟩

/-- A step that cannot be taken does nothing with the tasks. -/
theorem silent_of_none (hj : w.calls[j]? = some c) (hstep : w.stepCall j c throws = none) :
    (∀ b, takes b w (.step j throws) = [] ∧ posts b w (.step j throws) = []) ∧ w.starts (.step j throws) = [] := by
  obtain ⟨thread, pc⟩ := c
  cases pc with
  | post task yields =>
    have hpush : w.storage.push task (w.threadIndex thread) = none := by
      cases hpush : w.storage.push task (w.threadIndex thread) with
      | none => rfl
      | some storage =>
        simp only [Warp.stepCall, Warp.post] at hstep
        split at hstep
        · cases hstep
        · simp [hpush] at hstep
    simp [takes, posts, starts, hj, hpush]
  | find preempted i counter =>
    simp only [Warp.stepCall] at hstep
    split at hstep
    all_goals cases hstep
  | preempt body =>
    simp only [Warp.stepCall] at hstep
    split at hstep
    · cases hstep
    · split at hstep
      all_goals cases hstep
  | recheck body => cases hstep
  | _ => exact silent_of_quiet hj rfl

/-- All the tasks that are posted and not begun. -/
def waiting (w : Warp) : Multiset Nat := load Pc.carries w.calls + w.externals + w.storage.tasks

theorem Effect.waiting (e : Effect w j throws c w' pc) (hj : w.calls[j]? = some c) :
    w.waiting = (w.starts (.step j throws) : Multiset Nat) + w'.waiting := by
  have hmoved : load Pc.carries (w.calls.set j ⟨c.thread, pc⟩) + c.pc.carries = load Pc.carries w.calls + pc.carries :=
    load_moved hj
  rw [← e.calls] at hmoved
  apply add_right_cancel (b := pc.carries)
  calc w.waiting + pc.carries
      = load Pc.carries w'.calls + c.pc.carries + w.externals + w.storage.tasks := by
        rw [Warp.waiting, hmoved]
        abel
    _ = load Pc.carries w'.calls + (c.pc.carries + w.externals + w.storage.tasks) := by abel
    _ = w.starts (.step j throws) + w'.waiting + pc.carries := by
        rw [e.tasks, Warp.waiting]
        abel

/-- What a call that begins brings. -/
theorem startCall_waiting {thread : Nat} {entry : Entry} (hstart : w.startCall thread entry = some w') :
    w'.storage = w.storage ∧ w'.waiting = w.waiting +
      match entry with
      | .queueRoutinePost task | .queueRoutine task => {task}
      | _ => 0 := by
  cases entry with
  | queueRoutinePost | queueRoutine =>
    obtain rfl := Option.some.inj hstart
    refine ⟨rfl, ?_⟩
    simp only [waiting, makeCall, load_made, Pc.carries]
    abel
  | execute =>
    simp only [Warp.startCall] at hstart
    split at hstart
    · cases hstart
    · obtain rfl := Option.some.inj hstart
      exact ⟨rfl, by simp [waiting, makeCall, load_made, Pc.carries]⟩
  | external func =>
    simp only [Warp.startCall] at hstart
    split at hstart
    · next hmem =>
      obtain rfl := Option.some.inj hstart
      refine ⟨rfl, ?_⟩
      have herase : ((w.externals.erase func : List Nat) : Multiset Nat) + {func} = w.externals := by
        rw [add_comm, Multiset.singleton_add, Multiset.cons_coe, Multiset.coe_eq_coe]
        exact (List.perm_cons_erase (List.contains_iff_mem.1 hmem)).symm
      simp only [waiting, makeCall, load_made, Pc.carries, ← herase]
      abel
    · cases hstart
  | _ =>
    obtain rfl := Option.some.inj hstart
    exact ⟨rfl, by simp [waiting, makeCall, load_made, Pc.carries]⟩

/-- Each queue is filled at the end and emptied at the front. -/
theorem lanes_step (w : Warp) (a : Action) (b : Nat) :
    takes b w a ++ (w.step a).storage.lane b = w.storage.lane b ++ posts b w a := by
  unfold Warp.step
  cases a with
  | makeCurrent thread index => simp [act, takes, posts]
  | call thread entry =>
    cases hact : w.act (.call thread entry) with
    | none => simp [takes, posts]
    | some w' =>
      simp only [act] at hact
      split at hact
      · rw [Option.getD_some, (startCall_waiting hact).1]
        simp [takes, posts]
      · cases hact
  | step j throws =>
    cases hj : w.calls[j]? with
    | none => simp [act, takes, posts, hj]
    | some c =>
      cases hstep : w.stepCall j c throws with
      | none =>
        have hsilent := (silent_of_none hj hstep).1 b
        simp [act, hj, hstep, hsilent]
      | some w' =>
        obtain ⟨pc, e⟩ := stepCall_effect hj hstep
        simpa [act, hj, hstep] using e.lanes b

/-- An action moves tasks between those asked for, those waiting and those started. -/
theorem waiting_step (w : Warp) (a : Action) :
    (w.asks a : Multiset Nat) + w.waiting = w.starts a + (w.step a).waiting := by
  unfold Warp.step
  cases a with
  | makeCurrent thread index =>
    change 0 + w.waiting = 0 + w.waiting
    rfl
  | call thread entry =>
    cases hact : w.act (.call thread entry) with
    | none =>
      cases entry with
      | _ => simp [asks, starts, hact]
    | some w' =>
      have hstart := hact
      simp only [act] at hstart
      split at hstart
      · rw [Option.getD_some, (startCall_waiting hstart).2]
        cases entry with
        | _ => simp [asks, starts, hact, add_comm]
      · cases hstart
  | step j throws =>
    cases hj : w.calls[j]? with
    | none => simp [act, asks, starts, hj]
    | some c =>
      cases hstep : w.stepCall j c throws with
      | none => simp [act, asks, hj, hstep, (silent_of_none hj hstep).2]
      | some w' =>
        obtain ⟨pc, e⟩ := stepCall_effect hj hstep
        rw [e.waiting hj]
        simp [act, asks, hj, hstep]

/-- From each queue the tasks are taken in the order they were put there, each once. -/
theorem taken_in_order (strand : Bool) (threadCount : Nat) (acts : List Action) (b : Nat) :
    outputs step (takes b) (new strand threadCount) acts ++ (run strand threadCount acts).storage.lane b =
      outputs step (posts b) (new strand threadCount) acts := by
  induction acts using List.reverseRecOn with
  | nil =>
    cases strand with
    | true =>
      by_cases hb : b = 0
      · simp [outputs, run, new, Storage.lane, hb]
      · simp [outputs, run, new, Storage.lane, hb]
    | false =>
      by_cases hb : b < threadCount
      · simp [outputs, run, new, Storage.lane, hb]
      · simp [outputs, run, new, Storage.lane, hb]
  | append_singleton acts a ih =>
    calc _ = outputs step (takes b) (new strand threadCount) acts ++
          (takes b (run strand threadCount acts) a ++ ((run strand threadCount acts).step a).storage.lane b) := by
          rw [outputs_concat, run_concat, List.append_assoc]
          rfl
      _ = outputs step (posts b) (new strand threadCount) acts ++ posts b (run strand threadCount acts) a := by
          rw [lanes_step, ← List.append_assoc, ih]
      _ = _ := by
          rw [outputs_concat]
          rfl

/-- At every moment of a run, what was posted is what was begun and what still waits. -/
theorem warp_keeps_tasks (strand : Bool) (threadCount : Nat) (acts : List Action) :
    (outputs step asks (new strand threadCount) acts : Multiset Nat) =
      outputs step starts (new strand threadCount) acts + (run strand threadCount acts).waiting := by
  induction acts using List.reverseRecOn with
  | nil =>
    cases strand with
    | true => rfl
    | false => simp [outputs, run, new, waiting, load, Storage.tasks, Monitor.weight, List.map_replicate]
  | append_singleton acts a ih =>
    rw [outputs_concat, outputs_concat, ← Multiset.coe_add, ← Multiset.coe_add, ih, run_concat]
    have hstep := waiting_step (run strand threadCount acts) a
    calc _ = (outputs step starts (new strand threadCount) acts : Multiset Nat) +
          (asks (run strand threadCount acts) a + (run strand threadCount acts).waiting) := by
          rw [add_assoc, add_comm (waiting _)]
          rfl
      _ = _ := by
          rw [hstep, ← add_assoc]
          rfl

end Warp
end NgxLuaCpp.Warps
