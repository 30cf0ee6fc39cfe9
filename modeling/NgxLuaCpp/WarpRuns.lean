import NgxLuaCpp.Warp
import NgxLuaCpp.Lib.Trace
/-!
# No task is stranded

While a warp has tasks, `queueing` is pending, or a call is on its way to
`flush`, or an execution has yet to come by their queue; and while `queueing` is
pending, someone will act on it. The one way out of this is an execution that is
cut short: `execute` then yields without a flush.
-/
open Calls Trace

namespace NgxLuaCpp.Warps

/-! ## Who sees to the tasks -/

namespace Storage

/-- There are tasks in buffer `b`, or in the chains of a strand. -/
def Full (b : Nat) : Storage → Prop
  | chain executing queueing => executing ≠ [] ∨ queueing ≠ []
  | grid buffers => ∃ buffer, buffers[b]? = some buffer ∧ buffer ≠ []

theorem empty_iff {st : Storage} : st.empty = true ↔ ∀ b, ¬ st.Full b := by
  cases st with
  | chain executing queueing => simp [empty, Full]
  | grid buffers =>
    simp only [empty, List.all_eq_true, List.isEmpty_iff]
    constructor
    · rintro h b ⟨buffer, hb, hne⟩
      exact hne (h buffer (List.mem_of_getElem? hb))
    · intro h buffer hmem
      obtain ⟨b, hb⟩ := List.mem_iff_getElem?.1 hmem
      by_contra hne
      exact h b ⟨buffer, hb, hne⟩

section Find
variable {st rest : Storage} {i counter i' counter' task b : Nat}

/-- Where tasks stay after one is taken, there were tasks. -/
theorem full_of_task (h : st.find i counter = .task task rest) (hb : rest.Full b) : st.Full b := by
  cases st with
  | chain executing queueing =>
    cases executing with
    | cons a executing => exact .inl (List.cons_ne_nil a executing)
    | nil =>
      refine .inr ?_
      rintro rfl
      cases h
  | grid buffers =>
    simp only [find] at h
    split at h
    · next a buffer hi =>
      obtain ⟨-, rfl⟩ := Found.task.inj h
      obtain ⟨buffer', hb, hne⟩ := hb
      rcases eq_or_ne i b with rfl | hib
      · exact ⟨_, hi, List.cons_ne_nil a buffer⟩
      · rw [List.getElem?_set_ne hib] at hb
        exact ⟨buffer', hb, hne⟩
    · cases h
    · split at h
      all_goals cases h

/-- A buffer the loop has yet to come by stays so, unless it is empty. -/
theorem covers_next (h : st.find i counter = .next i' counter') (hb : st.Full b) (hi : i ≤ b ∨ counter ≠ 0) :
    i' ≤ b ∨ counter' ≠ 0 := by
  cases st with
  | chain executing queueing =>
    cases executing with
    | cons a executing => cases h
    | nil =>
      simp only [find] at h
      split at h
      all_goals cases h
  | grid buffers =>
    simp only [find] at h
    split at h
    · cases h
    · next hempty =>
      obtain ⟨rfl, rfl⟩ := Found.next.inj h
      refine hi.imp_left fun hle => ?_
      obtain ⟨buffer, hb, hne⟩ := hb
      rcases hle.eq_or_lt with rfl | hlt
      · rw [hempty] at hb
        exact absurd (Option.some.inj hb).symm hne
      · exact hlt
    · split at h
      · cases h
      · obtain ⟨rfl, -⟩ := Found.next.inj h
        exact .inl (Nat.zero_le b)

/-- Where the loop finds nothing, there are no tasks in the buffers from there on. -/
theorem not_full (h : st.find i counter = .nothing) (hi : i ≤ b ∨ counter ≠ 0) : ¬ st.Full b := by
  cases st with
  | chain executing queueing =>
    cases executing with
    | cons a executing => cases h
    | nil =>
      simp only [find] at h
      split at h
      · cases h
      · next hnil =>
        rintro (hne | hne)
        · exact hne rfl
        · exact hne (List.reverse_eq_nil_iff.1 hnil)
  | grid buffers =>
    simp only [find] at h
    split at h
    · cases h
    · cases h
    · next hout =>
      split at h
      · next hcounter =>
        rintro ⟨buffer, hb, -⟩
        have hle : buffers.length ≤ b :=
          (List.getElem?_eq_none_iff.1 hout).trans (hi.resolve_right (not_not.2 hcounter))
        rw [List.getElem?_eq_none hle] at hb
        cases hb
      · cases h

end Find
end Storage

/-- The call has the warp, whatever other threads do. -/
def Pc.owns : Pc → Bool
  | .yieldStore | .recheck _ | .doubleCheck _ | .markExecuting _ | .markPending _ => true
  | _ => false

/-- The call acts on `queueing` being pending. -/
def Pc.backs : Pc → Bool
  | .flushQueue _ | .yieldExchange | .resumeExchange | .execute | .guard .execute | .preempt .execute => true
  | _ => false

/-- An execution has yet to come by buffer `b`. -/
def Pc.Covers (b : Nat) : Pc → Prop
  | .find _ i counter => i ≤ b ∨ counter ≠ 0
  | .runs (.task ..) | .check .. => True
  | _ => False

theorem Pc.active_of_owns {pc : Pc} (h : pc.owns = true) : pc.isEnded = false ∧ pc.waits = false := by
  cases pc with
  | ended | runs => cases h
  | _ => exact ⟨rfl, rfl⟩

namespace Warp

/-- The call is on its way to mark the warp pending. -/
def Flushes (w : Warp) (c : Call Pc) : Prop :=
  match c.pc with
  | .flushLoad _ | .flushExchange _ => True
  | .yieldLoad true => w.threadWarp ≠ some c.thread
  | _ => False

def Backed (w : Warp) : Prop :=
  w.queuedExecutes ≠ 0 ∨ w.suspendCount ≠ 0 ∨ w.threadWarp ≠ none ∨ Any (fun c => c.pc.backs = true) w.calls

def Covered (w : Warp) (b : Nat) : Prop :=
  w.queueing = .pending ∨ Any w.Flushes w.calls ∨ Any (fun c => c.pc.Covers b) w.calls

/-- Who sees to the tasks, and that the calls are nested as the threads make them. -/
structure Inv (w : Warp) : Prop where
  nested : Nested Pc.isEnded Pc.waits w.calls
  owner : ∀ (i : Nat) (d : Call Pc), w.calls[i]? = some d → d.pc.owns = true → w.threadWarp = some d.thread
  backed : w.queueing = .pending → Backed w
  marked : w.queueing = .executing → w.threadWarp ≠ none ∨ Any (fun c => c.pc = .yieldExchange) w.calls
  covered : ∀ b, w.storage.Full b → Covered w b

/-! ## Executions cut short -/

/-- The call executes tasks, and one runs or has just returned. -/
def executes (c : Call Pc) : Bool :=
  match c.pc with
  | .runs (.task ..) | .check .. => true
  | _ => false

/-- The execution in call `j` ends with this step, before its queue does: a task threw, or has
suspended the warp, or has yielded it and this execution had not taken it. -/
def stops (w : Warp) (j : Nat) (c : Call Pc) (throws : Bool) : Bool :=
  match c.pc with
  | .runs (.task ..) => throws && innermost Pc.isEnded w.calls c.thread j
  | .check preempted _ _ => if w.threadWarp = some c.thread then w.suspendCount != 0 else !preempted
  | _ => false

/-- The action stops an execution with tasks left, `queueing` not pending and no other
execution under way. -/
def cutsShort (w : Warp) : Action → Bool
  | .step j throws => match w.calls[j]? with
    | some c => w.stops j c throws && !w.storage.empty && w.queueing != .pending &&
      (w.calls.eraseIdx j).all fun d => !executes d
    | none => false
  | _ => false

/-! ## What a step does -/

/-- What the next step of call `j` does, as `thread` makes it: the call goes from its place to
another, in a warp that has changed to the one given. -/
inductive Does (w : Warp) (j thread : Nat) (throws : Bool) : Pc → Warp → Pc → Prop
  | pushes {task : Nat} {yields : Bool} {storage : Storage}
      (h : w.storage.push task (w.threadIndex thread) = some storage) :
      Does w j thread throws (.post task yields) { w with storage := storage } (.flushLoad yields)
  | handsOver {task : Nat} {yields : Bool} {buffers : List (List Nat)} (hgrid : w.storage = .grid buffers)
      (h : w.threadIndex thread = none) :
      Does w j thread throws (.post task yields) (w.handOver task) (.runs (.queue yields))
  | flushes {yields : Bool} (h : w.queueing ≠ .pending) :
      Does w j thread throws (.flushLoad yields) w (.flushExchange yields)
  | flushed {yields : Bool} (h : w.queueing = .pending) :
      Does w j thread throws (.flushLoad yields) w (unguarded yields)
  | marks {yields : Bool} (h : w.queueing = .idle) :
      Does w j thread throws (.flushExchange yields) { w with queueing := .pending } (.flushQueue yields)
  | marksAgain {yields : Bool} (h : w.queueing ≠ .idle) :
      Does w j thread throws (.flushExchange yields) { w with queueing := .pending } (unguarded yields)
  | queues {yields : Bool} :
      Does w j thread throws (.flushQueue yields) { w with queuedExecutes := w.queuedExecutes + 1 }
        (.runs (.queue yields))
  | yields {flushes : Bool} (h : w.threadWarp = some thread) : Does w j thread throws (.yieldLoad flushes) w .yieldStore
  | yieldsNot (h : w.threadWarp ≠ some thread) : Does w j thread throws (.yieldLoad false) w .ended
  | flushesInstead (h : w.threadWarp ≠ some thread) : Does w j thread throws (.yieldLoad true) w (.flushLoad false)
  | givesUp : Does w j thread throws .yieldStore { w with threadWarp := none } .yieldExchange
  | idles {pc : Pc} (hpc : pc = .yieldExchange ∨ pc = .resumeExchange) (h : w.queueing ≠ .pending) :
      Does w j thread throws pc { w with queueing := .idle } .ended
  | idlesPending {pc : Pc} (hpc : pc = .yieldExchange ∨ pc = .resumeExchange) (h : w.queueing = .pending) :
      Does w j thread throws pc { w with queueing := .idle } (.flushLoad false)
  | suspends : Does w j thread throws .suspend { w with suspendCount := w.suspendCount + 1 } .ended
  | resumes (h : 1 < w.suspendCount) :
      Does w j thread throws .resume { w with suspendCount := w.suspendCount - 1 } .ended
  | resumesLast (h : w.suspendCount = 1) :
      Does w j thread throws .resume { w with suspendCount := w.suspendCount - 1 } .resumeExchange
  | guards {body : Body} (h : w.suspendCount = 0) : Does w j thread throws (.guard body) w (.preempt body)
  | guardFails {body : Body} (h : w.suspendCount ≠ 0) :
      Does w j thread throws (.guard body) w (guarded body false false)
  | hasAlready {body : Body} (h : w.threadWarp = some thread) :
      Does w j thread throws (.preempt body) w (guarded body true false)
  | preempts {body : Body} (h : w.threadWarp = none) :
      Does w j thread throws (.preempt body) { w with threadWarp := some thread } (.recheck body)
  | preemptFails {body : Body} (hother : w.threadWarp ≠ some thread) (hheld : w.threadWarp ≠ none) :
      Does w j thread throws (.preempt body) w (guarded body false false)
  | rechecks {body : Body} :
      Does w j thread throws (.recheck body) w (guarded body (decide (w.suspendCount = 0)) true)
  | executes (h : w.suspendCount = 0) : Does w j thread throws .execute w (.guard .execute)
  | executesNot (h : w.suspendCount ≠ 0) : Does w j thread throws .execute w .ended
  | checksAgain {preempted : Bool} {pc : Pc}
      (hpc : pc = .markExecuting preempted ∨ pc = .markPending preempted) :
      Does w j thread throws (.doubleCheck preempted) w pc
  | marksExecuting {preempted : Bool} :
      Does w j thread throws (.markExecuting preempted) { w with queueing := .executing } (.find preempted 0 0)
  | marksPending {preempted : Bool} :
      Does w j thread throws (.markPending preempted) { w with queueing := .pending } (unguarded preempted)
  | takes {preempted : Bool} {i counter task : Nat} {rest : Storage} (h : w.storage.find i counter = .task task rest) :
      Does w j thread throws (.find preempted i counter) { w with storage := rest } (.runs (.task preempted i counter))
  | turns {preempted : Bool} {i counter i' counter' : Nat} (h : w.storage.find i counter = .next i' counter') :
      Does w j thread throws (.find preempted i counter) w (.find preempted i' counter')
  | finds {preempted : Bool} {i counter : Nat} (h : w.storage.find i counter = .nothing) :
      Does w j thread throws (.find preempted i counter) w (executed preempted)
  | stops {preempted : Bool} {i counter : Nat} (h : w.suspendCount ≠ 0 ∨ w.threadWarp ≠ some thread) :
      Does w j thread throws (.check preempted i counter) w (executed preempted)
  | goesOn {preempted : Bool} {i counter : Nat} (h : w.threadWarp = some thread) :
      Does w j thread throws (.check preempted i counter) w (.find preempted i (counter + 1))
  | taskEnds {preempted : Bool} {i counter : Nat} (hin : innermost Pc.isEnded w.calls thread j = true)
      (h : throws = false) :
      Does w j thread throws (.runs (.task preempted i counter)) w (.check preempted i counter)
  | taskThrows {preempted : Bool} {i counter : Nat} (hin : innermost Pc.isEnded w.calls thread j = true)
      (h : throws = true) :
      Does w j thread throws (.runs (.task preempted i counter)) w (unguarded preempted)
  | returns {running : Running} {preempted : Bool} (hin : innermost Pc.isEnded w.calls thread j = true)
      (h : running = .func preempted ∨ running = .queue preempted) :
      Does w j thread throws (.runs running) w (unguarded preempted)

variable {w w' : Warp} {j b : Nat} {c : Call Pc} {pc : Pc} {throws : Bool}

theorem post_cases {thread task : Nat} {yields : Bool} {pc' : Pc} (h : w.post thread task yields = some (w', pc')) :
    Does w j thread throws (.post task yields) w' pc' := by
  unfold post at h
  split at h
  · next hgrid hnone =>
    cases h
    exact .handsOver hgrid hnone
  · simp only [Option.bind_eq_bind, Option.bind_eq_some_iff] at h
    obtain ⟨storage, hpush, h⟩ := h
    cases h
    exact .pushes hpush

/-- Every step of a call is one of these. -/
theorem stepCall_does (hstep : w.stepCall j c throws = some w') :
    ∃ u pc', Does w j c.thread throws c.pc u pc' ∧ w' = u.goto j c pc' := by
  obtain ⟨thread, pc⟩ := c
  cases pc with
  | post task yields =>
    simp only [Warp.stepCall, Option.bind_eq_bind, Option.bind_eq_some_iff] at hstep
    obtain ⟨⟨u, pc'⟩, hpost, hstep⟩ := hstep
    exact ⟨u, pc', post_cases hpost, (Option.some.inj hstep).symm⟩
  | flushLoad yields =>
    obtain rfl := Option.some.inj hstep
    split
    · next hp => exact ⟨_, _, .flushed hp, rfl⟩
    · next hp => exact ⟨_, _, .flushes hp, rfl⟩
  | flushExchange yields =>
    obtain rfl := Option.some.inj hstep
    split
    · next hidle => exact ⟨_, _, .marks hidle, rfl⟩
    · next hidle => exact ⟨_, _, .marksAgain hidle, rfl⟩
  | flushQueue yields => exact ⟨_, _, .queues, (Option.some.inj hstep).symm⟩
  | yieldLoad flushes =>
    obtain rfl := Option.some.inj hstep
    split
    · next hown => exact ⟨_, _, .yields hown, rfl⟩
    · next hother =>
      cases flushes with
      | true => exact ⟨_, _, .flushesInstead hother, rfl⟩
      | false => exact ⟨_, _, .yieldsNot hother, rfl⟩
  | yieldStore => exact ⟨_, _, .givesUp, (Option.some.inj hstep).symm⟩
  | yieldExchange =>
    obtain rfl := Option.some.inj hstep
    by_cases hp : w.queueing = QueueState.pending
    · exact ⟨_, _, .idlesPending (.inl rfl) hp, by rw [if_pos hp]⟩
    · exact ⟨_, _, .idles (.inl rfl) hp, by rw [if_neg hp]⟩
  | resumeExchange =>
    obtain rfl := Option.some.inj hstep
    by_cases hp : w.queueing = QueueState.pending
    · exact ⟨_, _, .idlesPending (.inr rfl) hp, by rw [if_pos hp]⟩
    · exact ⟨_, _, .idles (.inr rfl) hp, by rw [if_neg hp]⟩
  | suspend => exact ⟨_, _, .suspends, (Option.some.inj hstep).symm⟩
  | resume =>
    simp only [Warp.stepCall] at hstep
    split at hstep
    · cases hstep
    · next hne =>
      obtain rfl := Option.some.inj hstep
      by_cases hone : w.suspendCount = 1
      · exact ⟨_, _, .resumesLast hone, by rw [if_pos hone]⟩
      · exact ⟨_, _, .resumes (by omega), by rw [if_neg hone]⟩
  | guard body =>
    obtain rfl := Option.some.inj hstep
    split
    · next hfree => exact ⟨_, _, .guards hfree, rfl⟩
    · next hne => exact ⟨_, _, .guardFails hne, rfl⟩
  | preempt body =>
    simp only [Warp.stepCall] at hstep
    split at hstep
    · next hown => exact ⟨_, _, .hasAlready hown, (Option.some.inj hstep).symm⟩
    · next hother =>
      split at hstep
      · next hnone => exact ⟨_, _, .preempts hnone, (Option.some.inj hstep).symm⟩
      · next hheld => exact ⟨_, _, .preemptFails hother hheld, (Option.some.inj hstep).symm⟩
  | recheck body => exact ⟨_, _, .rechecks, (Option.some.inj hstep).symm⟩
  | execute =>
    obtain rfl := Option.some.inj hstep
    split
    · next hfree => exact ⟨_, _, .executes hfree, rfl⟩
    · next hne => exact ⟨_, _, .executesNot hne, rfl⟩
  | doubleCheck preempted =>
    obtain rfl := Option.some.inj hstep
    split
    · exact ⟨_, _, .checksAgain (.inl rfl), rfl⟩
    · exact ⟨_, _, .checksAgain (.inr rfl), rfl⟩
  | markExecuting preempted => exact ⟨_, _, .marksExecuting, (Option.some.inj hstep).symm⟩
  | markPending preempted => exact ⟨_, _, .marksPending, (Option.some.inj hstep).symm⟩
  | find preempted i counter =>
    simp only [Warp.stepCall] at hstep
    split at hstep
    · next hfind => exact ⟨_, _, .takes hfind, (Option.some.inj hstep).symm⟩
    · next hfind => exact ⟨_, _, .turns hfind, (Option.some.inj hstep).symm⟩
    · next hfind => exact ⟨_, _, .finds hfind, (Option.some.inj hstep).symm⟩
  | check preempted i counter =>
    simp only [Warp.stepCall] at hstep
    split at hstep
    · next hends => exact ⟨_, _, .stops hends, (Option.some.inj hstep).symm⟩
    · next hgoes => exact ⟨_, _, .goesOn (not_not.1 (not_or.1 hgoes).2), (Option.some.inj hstep).symm⟩
  | runs running =>
    simp only [Warp.stepCall] at hstep
    split at hstep
    · next hin =>
      cases running with
      | task preempted i counter =>
        cases throws with
        | true => exact ⟨_, _, .taskThrows hin rfl, (Option.some.inj hstep).symm⟩
        | false => exact ⟨_, _, .taskEnds hin rfl, (Option.some.inj hstep).symm⟩
      | func preempted => exact ⟨_, _, .returns hin (.inl rfl), (Option.some.inj hstep).symm⟩
      | queue preempted => exact ⟨_, _, .returns hin (.inr rfl), (Option.some.inj hstep).symm⟩
    · cases hstep
  | ended => cases hstep

/-! ## A call moves on -/

theorem Backed.calls (h : Backed w) (hqueued : w'.queuedExecutes = w.queuedExecutes)
    (hsuspend : w'.suspendCount = w.suspendCount) (howner : w'.threadWarp = w.threadWarp)
    (hbacks : Any (fun d => d.pc.backs = true) w.calls → Any (fun d => d.pc.backs = true) w'.calls) : Backed w' := by
  unfold Backed
  rw [hqueued, hsuspend, howner]
  exact h.imp_right fun hb => hb.imp_right fun hb => hb.imp_right hbacks

/-- Call `j` goes on at `pc`, and takes or leaves the warp for its thread alone. -/
structure Moves (w : Warp) (j : Nat) (c : Call Pc) (pc : Pc) (w' : Warp) : Prop where
  at_ : w.calls[j]? = some c
  calls : w'.calls = w.calls.set j ⟨c.thread, pc⟩
  left : c.pc.isEnded = false
  waits : c.pc.waits = true → innermost Pc.isEnded w.calls c.thread j = true
  owner : w'.threadWarp = w.threadWarp ∨ c.pc.waits = false ∧
    (w.threadWarp = none ∧ w'.threadWarp = some c.thread ∨ w.threadWarp = some c.thread ∧ w'.threadWarp = none)

theorem Does.moves {u : Warp} (hj : w.calls[j]? = some c) (hdoes : Does w j c.thread throws c.pc u pc)
    (hown : c.pc = .yieldStore → w.threadWarp = some c.thread) : Moves w j c pc (u.goto j c pc) := by
  obtain ⟨thread, from_⟩ := c
  refine ⟨hj, ?_, ?_, ?_, ?_⟩
  · cases hdoes with
    | _ => rfl
  · cases hdoes with
    | idles hpc | idlesPending hpc =>
      rcases hpc with rfl | rfl
      · rfl
      · rfl
    | _ => rfl
  · intro hwaits
    cases hdoes with
    | taskEnds hin | taskThrows hin | returns hin => exact hin
    | idles hpc | idlesPending hpc =>
      rcases hpc with rfl | rfl
      · cases hwaits
      · cases hwaits
    | _ => cases hwaits
  · cases hdoes with
    | givesUp => exact .inr ⟨rfl, .inr ⟨hown rfl, rfl⟩⟩
    | preempts hnone => exact .inr ⟨rfl, .inl ⟨hnone, rfl⟩⟩
    | _ => exact .inl rfl

theorem Moves.other_thread (m : Moves w j c pc w') (h : Inv w) (hc : c.pc.waits = false) {i : Nat} {d : Call Pc}
    (hij : i ≠ j) (hi : w.calls[i]? = some d) (hover : d.pc.isEnded = false) (hwaits : d.pc.waits = false) :
    d.thread ≠ c.thread := by
  intro ht
  exact hij (h.nested.active hi m.at_ ht hover hwaits m.left hc)

theorem Moves.flushes (m : Moves w j c pc w') (h : Inv w) (hf : Any w.Flushes w.calls)
    (hc : w.Flushes c → w'.Flushes ⟨c.thread, pc⟩) : Any w'.Flushes w'.calls := by
  rw [m.calls]
  refine hf.moved m.at_ hc fun i d hij hi hd => ?_
  obtain ⟨thread, pc'⟩ := d
  cases pc' with
  | flushLoad | flushExchange => trivial
  | yieldLoad flushes =>
    cases flushes with
    | false => exact hd
    | true =>
      rcases m.owner with heq | ⟨hc, ⟨-, hnew⟩ | ⟨-, hnew⟩⟩
      · simpa only [Flushes, heq] using hd
      · have hne := m.other_thread h hc hij hi rfl rfl
        simpa only [Flushes, hnew, ne_eq, Option.some.injEq] using hne.symm
      · simp [Flushes, hnew]
  | _ => exact hd

theorem Moves.covers (m : Moves w j c pc w') (hf : Any (fun d => d.pc.Covers b) w.calls)
    (hc : c.pc.Covers b → pc.Covers b) : Any (fun d => d.pc.Covers b) w'.calls := by
  rw [m.calls]
  exact hf.moved m.at_ hc fun _ _ _ _ hd => hd

theorem Moves.backs (m : Moves w j c pc w') (hb : Any (fun d => d.pc.backs = true) w.calls)
    (hc : c.pc.backs = true → pc.backs = true) : Any (fun d => d.pc.backs = true) w'.calls := by
  rw [m.calls]
  exact hb.moved m.at_ hc fun _ _ _ _ hd => hd

/-- The invariant after a step, but for what `queueing` and the queues ask for. -/
theorem Moves.inv (m : Moves w j c pc w') (h : Inv w) (howns : pc.owns = true → w'.threadWarp = some c.thread)
    (hbacked : w'.queueing = .pending → Backed w')
    (hmarked : w'.queueing = .executing → w'.threadWarp ≠ none ∨ Any (fun d => d.pc = .yieldExchange) w'.calls)
    (hcovered : ∀ b, w'.storage.Full b → Covered w' b) : Inv w' := by
  refine ⟨?_, ?_, hbacked, hmarked, hcovered⟩
  · rw [m.calls]
    exact h.nested.moved m.at_ m.left m.waits
  · intro i d hi hd
    rw [m.calls, getElem?_moved m.at_] at hi
    rcases hi with ⟨rfl, rfl⟩ | ⟨hij, hi⟩
    · exact howns hd
    · have howner := h.owner i d hi hd
      obtain ⟨hover, hwaits⟩ := Pc.active_of_owns hd
      rcases m.owner with heq | ⟨hc, ⟨hnone, -⟩ | ⟨hold, -⟩⟩
      · rw [heq, howner]
      · rw [howner] at hnone
        cases hnone
      · rw [howner] at hold
        exact absurd (Option.some.inj hold) (m.other_thread h hc hij hi hover hwaits)

/-- A step that leaves `queueing` and queues no task. -/
theorem Moves.inv_same (m : Moves w j c pc w') (h : Inv w) (hqueueing : w'.queueing = w.queueing)
    (hstorage : ∀ b, w'.storage.Full b → w.storage.Full b) (howns : pc.owns = true → w'.threadWarp = some c.thread)
    (hbacked : w.queueing = .pending → Backed w') (hyields : c.pc ≠ .yieldExchange)
    (howner : w.threadWarp ≠ none → w'.threadWarp ≠ none ∨ pc = .yieldExchange)
    (hflushes : ¬ w.Flushes c) (hcovers : ∀ b, c.pc.Covers b → pc.Covers b) : Inv w' := by
  refine m.inv h howns (fun hp => hbacked (hqueueing ▸ hp)) (fun he => ?_) fun b hb => ?_
  · rcases h.marked (hqueueing ▸ he) with ht | hy
    · refine (howner ht).imp_right fun hpc => ?_
      rw [m.calls]
      exact any_moved m.at_ hpc
    · rw [m.calls]
      exact .inr (hy.moved m.at_ (fun hc => absurd hc hyields) fun _ _ _ _ hd => hd)
  · rw [Covered, hqueueing]
    refine (h.covered b (hstorage b hb)).imp_right fun hc => ?_
    exact hc.imp (fun hf => m.flushes h hf fun hc => absurd hc hflushes) fun hv => m.covers hv (hcovers b)

/-- A step that only moves the call. -/
theorem Inv.goes (h : Inv w) (m : Moves w j c pc (w.goto j c pc)) (howns : pc.owns = true → w.threadWarp = some c.thread)
    (hbacks : c.pc.backs = true → pc.backs = true ∨ w.suspendCount ≠ 0 ∨ w.threadWarp ≠ none)
    (hyields : c.pc ≠ .yieldExchange)
    (hflushes : w.Flushes c → w.queueing = .pending ∨ w.Flushes ⟨c.thread, pc⟩)
    (hcovers : ∀ b, w.storage.Full b → c.pc.Covers b → w.queueing = .pending ∨ w.Flushes ⟨c.thread, pc⟩ ∨ pc.Covers b ∨
      Any (fun d => d.pc.Covers b) (w.goto j c pc).calls) :
    Inv (w.goto j c pc) := by
  have hj := m.at_
  refine m.inv h howns ?_ ?_ ?_
  · intro hp
    rcases h.backed hp with hq | hs | ht | hb
    · exact .inl hq
    · exact .inr (.inl hs)
    · exact .inr (.inr (.inl ht))
    · by_cases hc : c.pc.backs = true
      · rcases hbacks hc with hpc | hs | ht
        · exact .inr (.inr (.inr (any_moved hj hpc)))
        · exact .inr (.inl hs)
        · exact .inr (.inr (.inl ht))
      · exact .inr (.inr (.inr (m.backs hb fun hc' => absurd hc' hc)))
  · intro he
    refine (h.marked he).imp_right fun hy => ?_
    exact hy.moved hj (fun hc => absurd hc hyields) fun _ _ _ _ hd => hd
  · intro b hb
    rcases h.covered b hb with hp | hf | hcov
    · exact .inl hp
    · by_cases hc : w.Flushes c
      · exact (hflushes hc).imp_right fun hpc => .inl (any_moved hj hpc)
      · exact .inr (.inl (m.flushes h hf fun hc' => absurd hc' hc))
    · by_cases hc : c.pc.Covers b
      · rcases hcovers b hb hc with hp | hpc | hpc | hany
        · exact .inl hp
        · exact .inr (.inl (any_moved hj hpc))
        · exact .inr (.inr (any_moved hj hpc))
        · exact .inr (.inr hany)
      · exact .inr (.inr (m.covers hcov fun hc' => absurd hc' hc))

theorem not_owns_unguarded {preempted : Bool} : (unguarded preempted).owns = false := by
  cases preempted with
  | _ => rfl

theorem not_owns_executed {preempted : Bool} : (executed preempted).owns = false := by
  cases preempted with
  | _ => rfl

/-- An execution that ends leaves no task, or its call flushes, or another goes on, unless it is cut short. -/
theorem covered_of_stops (hj : w.calls[j]? = some c) (hstops : w.stops j c throws = true)
    (hcut : w.cutsShort (.step j throws) = false) (hb : w.storage.Full b) :
    w.queueing = .pending ∨ Any (fun d => d.pc.Covers b) (w.goto j c pc).calls := by
  have hfull : w.storage.empty = false := by
    rw [Bool.eq_false_iff]
    intro he
    exact Storage.empty_iff.1 he b hb
  simp only [cutsShort, hj, hstops, hfull, Bool.not_false, Bool.true_and] at hcut
  by_cases hp : w.queueing = .pending
  · exact .inl hp
  · have hother : ((w.calls.eraseIdx j).all fun d => !executes d) = false := by
      simpa [hp] using hcut
    obtain ⟨d, hd, hexecutes⟩ := List.all_eq_false.1 hother
    obtain ⟨k, hkj, hk⟩ := List.mem_eraseIdx_iff_getElem?.1 hd
    refine .inr ⟨k, d, (getElem?_moved hj).2 (.inr ⟨hkj, hk⟩), ?_⟩
    obtain ⟨thread, pc'⟩ := d
    cases pc' with
    | check => trivial
    | runs running =>
      cases running with
      | task => trivial
      | _ => simp [executes] at hexecutes
    | _ => simp [executes] at hexecutes

/-- A step of a call keeps the invariant, unless it cuts an execution short. -/
theorem Inv.stepCall (h : Inv w) (hj : w.calls[j]? = some c)
    (hcut : w.cutsShort (.step j throws) = false) (hstep : w.stepCall j c throws = some w') : Inv w' := by
  obtain ⟨u, pc', hdoes, rfl⟩ := stepCall_does hstep
  have m := hdoes.moves hj fun hc => h.owner j c hj (by rw [hc]; rfl)
  obtain ⟨thread, pc⟩ := c
  have hown : pc.owns = true → w.threadWarp = some thread := h.owner j _ hj
  cases hdoes with
  | pushes =>
    refine m.inv h nofun (fun hp => ?_) (fun he => ?_) fun b _ => .inr (.inl (any_moved hj trivial))
    · exact (h.backed hp).calls rfl rfl rfl fun hb => m.backs hb nofun
    · exact (h.marked he).imp_right fun hy => hy.moved hj nofun fun _ _ _ _ hd => hd
  | handsOver =>
    refine m.inv_same h rfl (fun _ => id) nofun (fun hp => ?_) nofun .inl nofun nofun
    exact (h.backed hp).calls rfl rfl rfl fun hb => m.backs hb nofun
  | flushes => exact h.goes m nofun nofun nofun (fun _ => .inr trivial) nofun
  | flushed hp =>
    exact h.goes m (by simp [not_owns_unguarded]) nofun nofun (fun _ => .inl hp) (fun _ _ _ => .inl hp)
  | marks => exact m.inv h nofun (fun _ => .inr (.inr (.inr (any_moved hj rfl)))) nofun fun b _ => .inl rfl
  | marksAgain hidle =>
    refine m.inv h (by simp [not_owns_unguarded]) (fun _ => ?_) nofun fun b _ => .inl rfl
    -- whoever marked the warp before acts on it
    cases hq : w.queueing with
    | idle => exact absurd hq hidle
    | pending => exact (h.backed hq).calls rfl rfl rfl fun hb => m.backs hb nofun
    | executing =>
      rcases h.marked hq with ht | hy
      · exact .inr (.inr (.inl ht))
      · refine .inr (.inr (.inr (hy.moved hj nofun fun i d _ _ hd => ?_)))
        rw [hd]
        rfl
  | queues => exact m.inv_same h rfl (fun _ => id) nofun (fun _ => .inl (Nat.succ_ne_zero _)) nofun .inl nofun nofun
  | @yields flushes ht =>
    refine h.goes m (fun _ => ht) nofun nofun (fun hf => ?_) nofun
    cases flushes with
    | false => cases hf
    | true => exact absurd ht hf
  | yieldsNot => exact h.goes m nofun nofun nofun nofun nofun
  | flushesInstead => exact h.goes m nofun nofun nofun (fun _ => .inr trivial) nofun
  | givesUp =>
    refine m.inv_same h rfl (fun _ => id) nofun (fun _ => ?_) nofun (fun _ => .inr rfl) nofun nofun
    exact .inr (.inr (.inr (any_moved hj rfl)))
  | idlesPending => exact m.inv h nofun nofun nofun fun b _ => .inr (.inl (any_moved hj trivial))
  | idles hpc hp =>
    refine m.inv h nofun nofun nofun fun b hb => ?_
    rcases h.covered b hb with hq | hf | hv
    · exact absurd hq hp
    · rcases hpc with rfl | rfl
      · exact .inr (.inl (m.flushes h hf nofun))
      · exact .inr (.inl (m.flushes h hf nofun))
    · rcases hpc with rfl | rfl
      · exact .inr (.inr (m.covers hv nofun))
      · exact .inr (.inr (m.covers hv nofun))
  | suspends =>
    exact m.inv_same h rfl (fun _ => id) nofun (fun _ => .inr (.inl (Nat.succ_ne_zero _))) nofun .inl nofun nofun
  | resumes hmore =>
    have hleft : w.suspendCount - 1 ≠ 0 := by omega
    exact m.inv_same h rfl (fun _ => id) nofun (fun _ => .inr (.inl hleft)) nofun .inl nofun nofun
  | resumesLast =>
    refine m.inv_same h rfl (fun _ => id) nofun (fun _ => ?_) nofun .inl nofun nofun
    exact .inr (.inr (.inr (any_moved hj rfl)))
  | @guards body =>
    cases body with
    | execute => exact h.goes m nofun (fun _ => .inl rfl) nofun nofun nofun
    | routine func => exact h.goes m nofun nofun nofun nofun nofun
  | @guardFails body hne =>
    cases body with
    | execute => exact h.goes m nofun (fun _ => .inr (.inl hne)) nofun nofun nofun
    | routine func => exact h.goes m nofun nofun nofun nofun nofun
  | @hasAlready body ht =>
    have hheld : w.threadWarp ≠ none := by simp [ht]
    cases body with
    | execute => exact h.goes m (fun _ => ht) (fun _ => .inr (.inr hheld)) nofun nofun nofun
    | routine func => exact h.goes m nofun nofun nofun nofun nofun
  | preempts =>
    exact m.inv_same h rfl (fun _ => id) (fun _ => rfl) (fun _ => .inr (.inr (.inl nofun))) nofun (fun _ => .inl nofun)
      nofun nofun
  | @preemptFails body _ hheld =>
    cases body with
    | execute => exact h.goes m nofun (fun _ => .inr (.inr hheld)) nofun nofun nofun
    | routine func => exact h.goes m nofun nofun nofun nofun nofun
  | rechecks => exact h.goes m (fun _ => hown rfl) nofun nofun nofun nofun
  | executes => exact h.goes m nofun (fun _ => .inl rfl) nofun nofun nofun
  | executesNot hne => exact h.goes m nofun (fun _ => .inr (.inl hne)) nofun nofun nofun
  | checksAgain => exact h.goes m (fun _ => hown rfl) nofun nofun nofun nofun
  | marksExecuting =>
    refine m.inv h nofun nofun (fun _ => .inl ?_) fun b _ => .inr (.inr (any_moved hj (.inl (Nat.zero_le b))))
    exact ne_of_eq_of_ne (hown rfl) nofun
  | marksPending =>
    refine m.inv h (by simp [not_owns_unguarded]) (fun _ => .inr (.inr (.inl ?_))) nofun fun b _ => .inl rfl
    exact ne_of_eq_of_ne (hown rfl) nofun
  | takes hfind =>
    refine m.inv_same h rfl (fun _ => Storage.full_of_task hfind) nofun (fun hp => ?_) nofun .inl nofun
      fun _ _ => trivial
    exact (h.backed hp).calls rfl rfl rfl fun hb => m.backs hb nofun
  | turns hfind =>
    refine h.goes m nofun nofun nofun nofun fun b hb hc => .inr (.inr (.inl ?_))
    exact Storage.covers_next hfind hb hc
  | finds hfind =>
    refine h.goes m (by simp [not_owns_executed]) nofun nofun nofun fun b hb hc => ?_
    exact absurd hb (Storage.not_full hfind hc)
  | @stops preempted i counter hends =>
    refine h.goes m (by simp [not_owns_executed]) nofun nofun nofun fun b hb _ => ?_
    by_cases ht : w.threadWarp = some thread
    · have hstops : w.stops j ⟨thread, .check preempted i counter⟩ throws = true := by
        simpa [Warp.stops, ht] using hends
      exact (covered_of_stops hj hstops hcut hb).imp_right fun hany => .inr (.inr hany)
    · cases preempted with
      | true => exact .inr (.inl ht)
      | false =>
        have hstops : w.stops j ⟨thread, .check false i counter⟩ throws = true := by simp [Warp.stops, ht]
        exact (covered_of_stops hj hstops hcut hb).imp_right fun hany => .inr (.inr hany)
  | goesOn =>
    exact h.goes m nofun nofun nofun nofun fun b _ _ => .inr (.inr (.inl (.inr (Nat.succ_ne_zero _))))
  | taskEnds => exact h.goes m nofun nofun nofun nofun fun b _ _ => .inr (.inr (.inl trivial))
  | @taskThrows preempted i counter hin hthrows =>
    refine h.goes m (by simp [not_owns_unguarded]) nofun nofun nofun fun b hb _ => ?_
    have hstops : w.stops j ⟨thread, .runs (.task preempted i counter)⟩ throws = true := by
      simpa [Warp.stops, hthrows] using hin
    exact (covered_of_stops hj hstops hcut hb).imp_right fun hany => .inr (.inr hany)
  | returns _ hrunning =>
    rcases hrunning with rfl | rfl
    · exact h.goes m (by simp [not_owns_unguarded]) nofun nofun nofun nofun
    · exact h.goes m (by simp [not_owns_unguarded]) nofun nofun nofun nofun

/-! ## Runs -/

/-- A new call takes nothing from the others. -/
theorem Inv.made {thread : Nat} (h : Inv w) (hfree : free Pc.isEnded Pc.waits w.calls thread = true)
    (hcalls : w'.calls = w.calls ++ [⟨thread, pc⟩]) (hstorage : w'.storage = w.storage)
    (howner : w'.threadWarp = w.threadWarp) (hqueueing : w'.queueing = w.queueing) (howns : pc.owns = false)
    (hbacked : Backed w → Backed w') : Inv w' := by
  refine ⟨hcalls ▸ h.nested.made hfree, ?_, fun hp => hbacked (h.backed (hqueueing ▸ hp)), ?_, ?_⟩
  · intro i d hi hd
    rw [hcalls, getElem?_made] at hi
    rcases hi with ⟨-, rfl⟩ | ⟨-, hi⟩
    · rw [howns] at hd
      cases hd
    · rw [howner, h.owner i d hi hd]
  · intro he
    rw [hcalls, howner]
    exact (h.marked (hqueueing ▸ he)).imp_right Any.made
  · intro b hb
    have hflushes : w'.Flushes = w.Flushes := by
      funext d
      rw [Flushes, Flushes, howner]
    rw [Covered, hqueueing, hcalls, hflushes]
    exact (h.covered b (hstorage ▸ hb)).imp_right fun hc => hc.imp Any.made Any.made

/-- A call that begins keeps the invariant. -/
theorem Inv.startCall {thread : Nat} {entry : Entry} (h : Inv w)
    (hfree : free Pc.isEnded Pc.waits w.calls thread = true)
    (hstart : w.startCall thread entry = some w') : Inv w' := by
  have hmade : ∀ pc : Pc, pc.owns = false → Inv (w.makeCall thread pc) := by
    intro pc howns
    exact h.made hfree rfl rfl rfl rfl howns fun hb => hb.calls rfl rfl rfl Any.made
  cases entry with
  | execute =>
    simp only [Warp.startCall] at hstart
    split at hstart
    · cases hstart
    · obtain rfl := Option.some.inj hstart
      exact h.made hfree rfl rfl rfl rfl rfl fun _ => .inr (.inr (.inr (any_made rfl)))
  | external func =>
    simp only [Warp.startCall] at hstart
    split at hstart
    · obtain rfl := Option.some.inj hstart
      exact h.made hfree rfl rfl rfl rfl rfl fun hb => hb.calls rfl rfl rfl Any.made
    · cases hstart
  | _ =>
    obtain rfl := Option.some.inj hstart
    exact hmade _ rfl

theorem inv_new (strand : Bool) (threadCount : Nat) : Inv (new strand threadCount) := by
  refine ⟨nested_nil, nofun, nofun, nofun, ?_⟩
  intro b hb
  cases strand with
  | true => simp [new, Storage.Full] at hb
  | false =>
    obtain ⟨buffer, hb, hne⟩ := hb
    rw [List.getElem?_replicate] at hb
    split at hb
    · cases hb
      exact absurd rfl hne
    · cases hb

/-- An action keeps the invariant, unless it cuts an execution short. -/
theorem Inv.step (h : Inv w) (a : Action) (hcut : w.cutsShort a = false) : Inv (w.step a) := by
  unfold Warp.step
  cases hact : w.act a with
  | none => exact h
  | some w' =>
    rw [Option.getD_some]
    cases a with
    | makeCurrent thread index =>
      obtain rfl := Option.some.inj hact
      exact ⟨h.nested, h.owner, h.backed, h.marked, h.covered⟩
    | call thread entry =>
      simp only [act] at hact
      split at hact
      · next hfree => exact h.startCall hfree hact
      · cases hact
    | step j throws =>
      simp only [act, Option.bind_eq_bind, Option.bind_eq_some_iff] at hact
      obtain ⟨c, hj, hstep⟩ := hact
      exact h.stepCall hj hcut hstep

variable {strand : Bool} {threadCount : Nat}

theorem run_concat {acts : List Action} {a : Action} :
    run strand threadCount (acts ++ [a]) = (run strand threadCount acts).step a := by
  rw [run, List.foldl_concat, ← run]

/-- The call is in `flush`, `resume`, `yield` or `execute`. One that has yet to push, or has the
worker take what it queues, is not. -/
def inside (c : Call Pc) : Bool :=
  match c.pc with
  | .post .. | .suspend | .guard (.routine _) | .preempt (.routine _) | .recheck (.routine _) | .runs (.func _)
  | .runs (.queue _) | .ended => false
  | _ => true

/-- Tasks that nothing holds up have an `execute_t` queued for them. -/
def Served (w : Warp) : Prop :=
  w.storage.empty = false → w.suspendCount = 0 → w.threadWarp = none → (∀ c ∈ w.calls, inside c = false) →
    w.queueing = .pending ∧ w.queuedExecutes ≠ 0

theorem inside_of_flushes (h : w.Flushes c) : inside c = true := by
  obtain ⟨thread, pc⟩ := c
  cases pc with
  | flushLoad | flushExchange | yieldLoad => rfl
  | _ => cases h

theorem inside_of_covers (h : c.pc.Covers b) : inside c = true := by
  obtain ⟨thread, pc⟩ := c
  cases pc with
  | find | check => rfl
  | runs running =>
    cases running with
    | task => rfl
    | _ => cases h
  | _ => cases h

theorem inside_of_backs (h : c.pc.backs = true) : inside c = true := by
  obtain ⟨thread, pc⟩ := c
  cases pc with
  | flushQueue | yieldExchange | resumeExchange | execute => rfl
  | guard body | preempt body =>
    cases body with
    | execute => rfl
    | routine => cases h
  | _ => cases h

/-- Tasks that nothing holds up are served. -/
theorem Inv.served (h : Inv w) : Served w := by
  intro hempty hresumed hfree houtside
  have hnone : ∀ P : Call Pc → Prop, (∀ d, P d → inside d = true) → ¬ Any P w.calls := by
    rintro P hinside ⟨i, d, hi, hd⟩
    have hin := hinside d hd
    rw [houtside d (List.mem_of_getElem? hi)] at hin
    cases hin
  obtain ⟨b, hb⟩ : ∃ b, w.storage.Full b := by
    by_contra hall
    rw [Storage.empty_iff.2 (not_exists.1 hall)] at hempty
    cases hempty
  have hpending : w.queueing = .pending := by
    rcases h.covered b hb with hp | hf | hv
    · exact hp
    · exact absurd hf (hnone _ fun _ => inside_of_flushes)
    · exact absurd hv (hnone _ fun _ => inside_of_covers)
  refine ⟨hpending, ?_⟩
  rcases h.backed hpending with hq | hs | ht | hany
  · exact hq
  · exact absurd hresumed hs
  · exact absurd hfree ht
  · exact absurd hany (hnone _ fun _ => inside_of_backs)

/-- In a run that cuts no execution short, no task is ever stranded. -/
theorem no_task_stranded (strand : Bool) (threadCount : Nat) (acts : List Action)
    (h : Each (fun pre a => (run strand threadCount pre).cutsShort a = false) acts) :
    Throughout (fun pre => Served (run strand threadCount pre)) acts := by
  have hinv : Throughout (fun pre => Inv (run strand threadCount pre)) acts := by
    induction acts using List.reverseRecOn with
    | nil => exact throughout_nil.2 (inv_new strand threadCount)
    | append_singleton acts a ih =>
      obtain ⟨hacts, ha⟩ := each_concat.1 h
      have hthrough := ih hacts
      refine throughout_concat.2 ⟨hthrough, ?_⟩
      rw [run_concat]
      exact (hthrough acts (List.prefix_refl _)).step a ha
  exact fun pre hpre => (hinv pre hpre).served

/-- A thread of the worker posts two tasks and executes the first. -/
def firstRuns : List Action :=
  [.makeCurrent 1 (some 0), .call 1 (.queueRoutinePost 1), .step 0 false, .step 0 false, .step 0 false, .step 0 false,
    .step 0 false, .call 1 (.queueRoutinePost 2), .step 1 false, .step 1 false,
    .call 1 .execute, .step 2 false, .step 2 false, .step 2 false, .step 2 false, .step 2 false, .step 2 false,
    .step 2 false]

/-- The first task ends, then the second, and the warp is given up. -/
theorem two_tasks_served :
    Throughout (fun pre => Served (run false 2 pre)) (firstRuns ++ List.replicate 14 (.step 2 false)) :=
  no_task_stranded false 2 _ (by decide +kernel)

/-- The first task suspends the warp, and a resume comes after the execution. -/
theorem second_task_stranded : ¬ Served (run false 2
    (firstRuns ++ [.call 1 .suspend, .step 3 false] ++ List.replicate 6 (.step 2 false) ++
      [.call 1 .resume, .step 4 false, .step 4 false])) := by
  intro h
  have hserved := h (by decide +kernel) (by decide +kernel) (by decide +kernel) (by decide +kernel)
  exact absurd hserved.1 (by decide +kernel)

end Warp
end NgxLuaCpp.Warps
