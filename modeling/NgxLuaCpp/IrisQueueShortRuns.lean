import NgxLuaCpp.IrisQueueRuns
/-!
# Short runs

While no counter has come near the limit, shadows lie behind the counters they stand for
and no difference is mistaken for another. So every comparison comes out right in a run that is short
for the size of its rings.
-/

namespace NgxLuaCpp.IrisQueue
open Trace RingBuffer

/-- Differences of counters up to here are exact or, where they should be, negative. -/
def Params.room (c : Params) : Nat :=
  if c.powTwo then 0x7fffffffffffffff
  else min (c.counterLimit - 0x8000000000000000) (0xffffffffffffffff - c.counterLimit)

variable {α : Type} {c : Params} {b : Nat}

theorem Params.room_lt (c : Params) : c.room < 0x8000000000000000 := by
  have hbounds := c.counterLimit_bounds
  unfold room
  split
  all_goals omega

/-- Low counters are subtracted as they are. -/
theorem diffCounter_low (hb : b ≤ c.room) {lhs rhs : Nat} (hl : lhs ≤ b) (hr : rhs ≤ b) :
    ∃ d ∈ c.diffCounter lhs rhs, d.toNat = lhs - rhs ∧ (lhs ≤ rhs → d ≤ 0) := by
  have hbounds := c.counterLimit_bounds
  have hlt := c.room_lt
  unfold Params.diffCounter Params.room toSigned at *
  cases hpow : c.powTwo with
  | true =>
    simp only [hpow, if_true] at *
    rw [if_pos (by omega), if_pos (by omega), if_pos (by omega)]
    exact ⟨_, rfl, by omega, by omega⟩
  | false =>
    simp only [hpow, Bool.false_eq_true, if_false] at *
    obtain ⟨hroom, hroom'⟩ := Nat.le_min.1 hb
    refine ⟨_, rfl, ?_⟩
    rcases Nat.lt_or_ge lhs rhs with hlt' | hge
    · -- the limit less the distance, which is negative as a `ptrdiff_t`
      have hmod : (lhs + c.counterLimit + (0x10000000000000000 - rhs)) % 0x10000000000000000 =
          c.counterLimit - (rhs - lhs) := by omega
      rw [hmod]
      split_ifs
      all_goals omega
    · have hmod : (lhs + c.counterLimit + (0x10000000000000000 - rhs)) % 0x10000000000000000 =
          c.counterLimit + (lhs - rhs) := by omega
      rw [hmod]
      split_ifs
      all_goals omega

theorem stepCounter_low (hb : b ≤ c.room) {count delta : Nat} (h : count + delta ≤ b) :
    c.stepCounter count delta = count + delta := by
  have hbounds := c.counterLimit_bounds
  have hlt := c.room_lt
  unfold Params.stepCounter
  dsimp only
  rw [Nat.mod_eq_of_lt (by omega)]
  split
  · rfl
  · rw [if_neg (by omega)]

/-! ## One ring -/

namespace Queue

/-- No counter is past `b`, nor the consumer's shadow past the count it shadows. -/
structure Low (b : Nat) (q : Queue α) : Prop where
  push_le : q.pushCount ≤ b
  pop_le : q.popCount ≤ b
  pushShadow_le : q.pushShadow ≤ b
  popShadow_le : q.popShadow ≤ q.pushCount

variable {q q' : Queue α} {b' : Nat}

theorem low_new (init : Nat) : Low init (.new init : Queue α) := ⟨le_rfl, le_rfl, le_rfl, le_rfl⟩

theorem Low.mono (h : Low b q) (hb : b ≤ b') : Low b' q :=
  ⟨h.push_le.trans hb, h.pop_le.trans hb, h.pushShadow_le.trans hb, h.popShadow_le⟩

theorem Low.push (h : Low b q) (hb : b + 1 ≤ c.room) {t : α} {w : Option Nat} (hpush : q.push c t = some (w, q')) :
    Low (b + 1) q' := by
  unfold Queue.push at hpush
  obtain ⟨maybe, -, hpush⟩ := Option.bind_eq_some_iff.1 hpush
  have hrefreshed : Low b (if maybe then q.refreshPopCached else q) := by
    split
    · exact ⟨h.push_le, h.pop_le, h.pop_le, h.popShadow_le⟩
    · exact h
  generalize (if maybe then q.refreshPopCached else q) = q₁ at hpush hrefreshed
  dsimp only at hpush
  split at hpush
  · obtain ⟨-, rfl⟩ := Prod.mk.inj (Option.some.inj hpush)
    exact hrefreshed.mono (Nat.le_succ b)
  · obtain ⟨ring, -, hpush⟩ := Option.bind_eq_some_iff.1 hpush
    obtain ⟨-, rfl⟩ := Prod.mk.inj (Option.some.inj hpush)
    have hstep : c.stepCounter q₁.pushCount 1 = q₁.pushCount + 1 :=
      stepCounter_low hb (Nat.succ_le_succ hrefreshed.push_le)
    refine ⟨hstep.trans_le (Nat.succ_le_succ hrefreshed.push_le), Nat.le_succ_of_le hrefreshed.pop_le,
      Nat.le_succ_of_le hrefreshed.pushShadow_le, ?_⟩
    exact (Nat.le_succ_of_le hrefreshed.popShadow_le).trans hstep.ge

theorem Low.pop (h : Low b q) (hb : b + 1 ≤ c.room) (hpop : q.pop c = some q') : Low (b + 1) q' := by
  unfold Queue.pop at hpop
  obtain ⟨ring, -, hpop⟩ := Option.bind_eq_some_iff.1 hpop
  obtain rfl := Option.some.inj hpop
  have hstep : c.stepCounter q.popCount 1 = q.popCount + 1 := stepCounter_low hb (Nat.succ_le_succ h.pop_le)
  exact ⟨Nat.le_succ_of_le h.push_le, hstep.trans_le (Nat.succ_le_succ h.pop_le), Nat.le_succ_of_le h.pushShadow_le,
    h.popShadow_le⟩

theorem Low.popN (h : Low b q) (hb : b ≤ c.room) {n left : Nat} (hpop : q.popN c n = some (left, q')) : Low b q' := by
  have hsize : q.size c = some (q.pushCount - q.popCount) := by
    obtain ⟨d, hd, heq, -⟩ := diffCounter_low hb h.push_le h.pop_le
    unfold Queue.size
    rw [Option.mem_def.1 hd, ← heq]
    rfl
  unfold Queue.popN at hpop
  obtain ⟨size, hsize', hpop⟩ := Option.bind_eq_some_iff.1 hpop
  obtain rfl := Option.some.inj (hsize.symm.trans hsize')
  obtain ⟨ring, -, hpop⟩ := Option.bind_eq_some_iff.1 hpop
  obtain ⟨ring', -, hpop⟩ := Option.bind_eq_some_iff.1 hpop
  obtain ⟨-, rfl⟩ := Prod.mk.inj (Option.some.inj hpop)
  have hpush := h.push_le
  have hpop := h.pop_le
  have hle : q.popCount + min n (q.pushCount - q.popCount) ≤ b := by omega
  exact ⟨h.push_le, (stepCounter_low hb hle).trans_le hle, h.pushShadow_le, h.popShadow_le⟩

theorem Low.empty (h : Low b q) {e : Bool} (hempty : q.empty c = some (e, q')) : Low b q' := by
  unfold Queue.empty at hempty
  obtain ⟨maybe, -, hempty⟩ := Option.bind_eq_some_iff.1 hempty
  split at hempty
  · obtain ⟨-, rfl⟩ := Prod.mk.inj (Option.some.inj hempty)
    exact ⟨h.push_le, h.pop_le, h.pushShadow_le, le_rfl⟩
  · obtain ⟨-, rfl⟩ := Prod.mk.inj (Option.some.inj hempty)
    exact h

theorem Low.sized (h : Low b q) (hb : b ≤ c.room) : Sized c q := by
  obtain ⟨d, hd, -⟩ := diffCounter_low hb h.push_le h.pop_le
  exact Option.isSome_iff_exists.2 ⟨d, hd⟩

theorem Low.settled (h : Low b q) (hb : b ≤ c.room) : Settled c q := by
  obtain ⟨d, hd, -, hle⟩ := diffCounter_low hb (h.popShadow_le.trans h.push_le) h.pop_le
  exact ⟨d, hd, fun heq => hle (h.popShadow_le.trans heq.ge)⟩

theorem Low.drains (h : Low b q) (hb : b ≤ c.room) : Drains c q := by
  obtain ⟨d, hd, -⟩ := diffCounter_low hb (h.popShadow_le.trans h.push_le) h.pop_le
  obtain ⟨d', hd', -, hle⟩ := diffCounter_low hb (h.popShadow_le.trans h.push_le) h.push_le
  exact ⟨h.sized hb, Option.isSome_iff_exists.2 ⟨d, hd⟩, d', hd', hle h.popShadow_le⟩

end Queue

/-! ## The chain -/

namespace QueueList

structure Low (b : Nat) (s : QueueList α) : Prop where
  front : ∀ q ∈ s.front, q.Low b
  pushHead : s.pushHead.Low b
  counter_le : s.iteratorCounter ≤ b

variable {s s' : QueueList α} {b' : Nat}

theorem Low.mono (h : Low b s) (hb : b ≤ b') : Low b' s :=
  ⟨fun q hq => (h.front q hq).mono hb, h.pushHead.mono hb, h.counter_le.trans hb⟩

theorem Low.popHead (h : Low b s) : s.popHead.Low b := by
  unfold QueueList.popHead
  cases hfront : s.front with
  | nil => exact h.pushHead
  | cons p rest =>
    apply h.front
    rw [hfront]
    exact List.mem_cons_self

theorem Low.setPopHead (h : Low b s) {q : Queue α} (hq : q.Low b) : Low b (s.setPopHead q) := by
  unfold QueueList.setPopHead
  split
  · exact ⟨h.front, hq, h.counter_le⟩
  · next p rest hfront =>
    have hrest := h.front
    rw [hfront, List.forall_mem_cons] at hrest
    exact ⟨List.forall_mem_cons.2 ⟨hq, hrest.2⟩, h.pushHead, h.counter_le⟩

theorem Low.cleanupEmpty (h : Low b s) {removed : Bool} (hclean : s.cleanupEmpty c = some (removed, s')) :
    Low b s' := by
  unfold QueueList.cleanupEmpty at hclean
  split at hclean
  · obtain ⟨-, rfl⟩ := Prod.mk.inj (Option.some.inj hclean)
    exact h
  · next p rest hfront =>
    have hrest := h.front
    rw [hfront, List.forall_mem_cons] at hrest
    obtain ⟨⟨isEmpty, p'⟩, hempty, hclean⟩ := Option.bind_eq_some_iff.1 hclean
    obtain ⟨-, rfl⟩ := Prod.mk.inj (Option.some.inj hclean)
    refine ⟨?_, h.pushHead, h.counter_le⟩
    dsimp only
    split
    · exact hrest.2
    · exact List.forall_mem_cons.2 ⟨hrest.1.empty hempty, hrest.2⟩

theorem Low.push (h : Low b s) (hb : b + (c.elementCount + 1) ≤ c.room) {t : α} {w : Option Nat}
    (hpush : s.push c t = some (w, s')) : Low (b + (c.elementCount + 1)) s' := by
  have hb1 : b + 1 ≤ c.room := by omega
  unfold QueueList.push at hpush
  obtain ⟨⟨w₁, q⟩, hq, hpush⟩ := Option.bind_eq_some_iff.1 hpush
  have hqlow := h.pushHead.push hb1 hq
  cases w₁ with
  | some slot =>
    obtain ⟨-, rfl⟩ := Prod.mk.inj (Option.some.inj hpush)
    exact Low.mono ⟨fun q hq => (h.front q hq).mono (Nat.le_succ b), hqlow, Nat.le_succ_of_le h.counter_le⟩ (by omega)
  | none =>
    obtain ⟨⟨w₂, p⟩, hp, hpush⟩ := Option.bind_eq_some_iff.1 hpush
    obtain ⟨-, rfl⟩ := Prod.mk.inj (Option.some.inj hpush)
    have hplow := ((Queue.low_new s.iteratorCounter).mono h.counter_le).push hb1 hp
    have hcounter : s.iteratorCounter + c.elementCount ≤ b + (c.elementCount + 1) := by
      have hle := h.counter_le
      omega
    refine ⟨fun r hr => ?_, hplow.mono (by omega), (stepCounter_low hb hcounter).trans_le hcounter⟩
    rcases List.mem_append.1 hr with hr | hr
    · exact (h.front r hr).mono (by omega)
    · rw [List.mem_singleton.1 hr]
      exact hqlow.mono (by omega)

theorem Low.pop (h : Low b s) (hb : b + 1 ≤ c.room) (hpop : s.pop c = some s') : Low (b + 1) s' := by
  unfold QueueList.pop at hpop
  obtain ⟨⟨removed, s₁⟩, hclean, hpop⟩ := Option.bind_eq_some_iff.1 hpop
  have h₁ := h.cleanupEmpty hclean
  obtain ⟨q, hq, hpop⟩ := Option.bind_eq_some_iff.1 hpop
  obtain ⟨⟨removed', s₂⟩, hclean', hpop⟩ := Option.bind_eq_some_iff.1 hpop
  obtain rfl := Option.some.inj hpop
  exact ((h₁.mono (Nat.le_succ b)).setPopHead (h₁.popHead.pop hb hq)).cleanupEmpty hclean'

theorem Low.popLoop (hb : b ≤ c.room) {rounds n left : Nat} (h : Low b s)
    (hpop : popLoop c rounds s n = some (left, s')) : Low b s' := by
  induction rounds generalizing s n with
  | zero =>
    unfold QueueList.popLoop at hpop
    split at hpop
    · obtain ⟨-, rfl⟩ := Prod.mk.inj (Option.some.inj hpop)
      exact h
    · obtain ⟨size, -, hpop⟩ := Option.bind_eq_some_iff.1 hpop
      obtain ⟨⟨m, q⟩, hq, hpop⟩ := Option.bind_eq_some_iff.1 hpop
      obtain ⟨⟨removed, s₁⟩, hclean, hpop⟩ := Option.bind_eq_some_iff.1 hpop
      have h₁ := (h.setPopHead (h.popHead.popN hb hq)).cleanupEmpty hclean
      cases removed with
      | true => cases hpop
      | false =>
        obtain ⟨-, rfl⟩ := Prod.mk.inj (Option.some.inj hpop)
        exact h₁
  | succ rounds ih =>
    unfold QueueList.popLoop at hpop
    split at hpop
    · obtain ⟨-, rfl⟩ := Prod.mk.inj (Option.some.inj hpop)
      exact h
    · obtain ⟨size, -, hpop⟩ := Option.bind_eq_some_iff.1 hpop
      obtain ⟨⟨m, q⟩, hq, hpop⟩ := Option.bind_eq_some_iff.1 hpop
      obtain ⟨⟨removed, s₁⟩, hclean, hpop⟩ := Option.bind_eq_some_iff.1 hpop
      have h₁ := (h.setPopHead (h.popHead.popN hb hq)).cleanupEmpty hclean
      cases removed with
      | true => exact ih h₁ hpop
      | false =>
        obtain ⟨-, rfl⟩ := Prod.mk.inj (Option.some.inj hpop)
        exact h₁

theorem Low.empty (h : Low b s) {e : Bool} (hempty : s.empty c = some (e, s')) : Low b s' := by
  unfold QueueList.empty at hempty
  obtain ⟨⟨isEmpty, q⟩, hq, hempty⟩ := Option.bind_eq_some_iff.1 hempty
  have h₁ := h.setPopHead (h.popHead.empty hq)
  dsimp only at hempty
  split at hempty
  · split at hempty
    · obtain ⟨⟨isEmpty', p⟩, hp, hempty⟩ := Option.bind_eq_some_iff.1 hempty
      obtain ⟨-, rfl⟩ := Prod.mk.inj (Option.some.inj hempty)
      exact ⟨h₁.front, h₁.pushHead.empty hp, h₁.counter_le⟩
    · obtain ⟨-, rfl⟩ := Prod.mk.inj (Option.some.inj hempty)
      exact h₁
  · obtain ⟨-, rfl⟩ := Prod.mk.inj (Option.some.inj hempty)
    exact h₁

/-- A call moves no counter by more than a node. -/
theorem Low.step (h : Low b s) (hb : b + (c.elementCount + 1) ≤ c.room) {op : Op α} {ret : Ret α}
    (hstep : s.step c op = some (ret, s')) : Low (b + (c.elementCount + 1)) s' := by
  have hle : b ≤ b + (c.elementCount + 1) := Nat.le_add_right _ _
  cases op with
  | push t =>
    obtain ⟨⟨w, s₁⟩, hpush, hstep⟩ := Option.bind_eq_some_iff.1 hstep
    obtain ⟨-, rfl⟩ := Prod.mk.inj (Option.some.inj hstep)
    exact h.push hb hpush
  | top =>
    obtain ⟨⟨x, s₁⟩, htop, hstep⟩ := Option.bind_eq_some_iff.1 hstep
    obtain ⟨-, rfl⟩ := Prod.mk.inj (Option.some.inj hstep)
    obtain ⟨⟨removed, s₂⟩, hclean, htop⟩ := Option.bind_eq_some_iff.1 htop
    obtain ⟨y, -, htop⟩ := Option.bind_eq_some_iff.1 htop
    obtain ⟨-, rfl⟩ := Prod.mk.inj (Option.some.inj htop)
    exact (h.cleanupEmpty hclean).mono hle
  | pop =>
    obtain ⟨s₁, hpop, hstep⟩ := Option.bind_eq_some_iff.1 hstep
    obtain ⟨-, rfl⟩ := Prod.mk.inj (Option.some.inj hstep)
    exact (h.pop (by omega) hpop).mono (by omega)
  | popN n =>
    obtain ⟨⟨left, s₁⟩, hpop, hstep⟩ := Option.bind_eq_some_iff.1 hstep
    obtain ⟨-, rfl⟩ := Prod.mk.inj (Option.some.inj hstep)
    obtain ⟨⟨removed, s₂⟩, hclean, hpop⟩ := Option.bind_eq_some_iff.1 hpop
    exact ((h.cleanupEmpty hclean).popLoop (hle.trans hb) hpop).mono hle
  | size =>
    obtain ⟨n, -, hstep⟩ := Option.bind_eq_some_iff.1 hstep
    obtain ⟨-, rfl⟩ := Prod.mk.inj (Option.some.inj hstep)
    exact h.mono hle
  | empty =>
    obtain ⟨⟨e, s₁⟩, hempty, hstep⟩ := Option.bind_eq_some_iff.1 hstep
    obtain ⟨-, rfl⟩ := Prod.mk.inj (Option.some.inj hstep)
    exact (h.empty hempty).mono hle

theorem Low.comparable (h : Low b s) (hb : b ≤ c.room) (op : Op α) : Comparable c s op := by
  cases op with
  | push t =>
    obtain ⟨d, hd, -⟩ := diffCounter_low hb h.pushHead.push_le h.pushHead.pushShadow_le
    exact Option.isSome_iff_exists.2 ⟨d, hd⟩
  | top => exact h.popHead.settled hb
  | empty => exact h.popHead.settled hb
  | pop => exact ⟨h.popHead.settled hb, fun p hp => (h.front p (List.mem_of_mem_head? hp)).drains hb⟩
  | popN n => exact ⟨h.pushHead.sized hb, fun p hp => (h.front p hp).drains hb⟩
  | size =>
    intro q hq
    rcases List.mem_append.1 hq with hq | hq
    · exact (h.front q hq).sized hb
    · rw [List.mem_singleton.1 hq]
      exact h.pushHead.sized hb

end QueueList

/-! ## Runs -/

/-- What counters can come to in so many calls. -/
def Params.reach (c : Params) (calls : Nat) : Nat := c.elementCount + calls * (c.elementCount + 1)

theorem reach_succ (c : Params) (n : Nat) : c.reach (n + 1) = c.reach n + (c.elementCount + 1) := by
  unfold Params.reach
  rw [Nat.succ_mul]
  omega

theorem low_run {ops : List (Op α)} (h : c.reach ops.length ≤ c.room) {rets : List (Ret α)} {s : QueueList α}
    (hrun : run c ops = some (rets, s)) : s.Low (c.reach ops.length) := by
  induction ops using List.reverseRecOn generalizing rets s with
  | nil =>
    obtain ⟨-, rfl⟩ := Prod.mk.inj (Option.some.inj hrun)
    exact ⟨nofun, (Queue.low_new 0).mono (Nat.zero_le _), Nat.le_add_right _ _⟩
  | append_singleton ops op ih =>
    rw [List.length_append, List.length_singleton, reach_succ] at h ⊢
    rw [run_concat] at hrun
    obtain ⟨⟨rets₁, s₁⟩, hpre, hrun⟩ := Option.bind_eq_some_iff.1 hrun
    obtain ⟨⟨ret, s₂⟩, hstep, hlast⟩ := Option.bind_eq_some_iff.1 hrun
    obtain ⟨-, rfl⟩ := Prod.mk.inj (Option.some.inj hlast)
    exact (ih ((Nat.le_add_right _ _).trans h) hpre).step h hstep

/-- Where calls are legal, a run too short for its counters to come near the limit is sound. -/
theorem sound_of_reach (ops : List (Op α)) (hroom : c.reach ops.length ≤ c.room)
    (hlegal : Each (fun pre op => ∀ r ∈ run c pre, Legal c r.2 op) ops) : Sound c ops := by
  rintro pre op post hops ⟨rets, s⟩ hrun
  have hle : c.reach pre.length ≤ c.room := by
    refine le_trans ?_ hroom
    unfold Params.reach
    rw [hops, List.length_append]
    exact Nat.add_le_add_left (Nat.mul_le_mul_right _ (Nat.le_add_right _ _)) _
  exact ⟨hlegal pre op post hops _ hrun, (low_run hle hrun).comparable hle op⟩

/-- Such a run is first in, first out, whatever its comparisons. -/
theorem short_run_fifo (hfit : c.Fits) (ops : List (Op α)) (hroom : c.reach ops.length ≤ c.room)
    (hlegal : Each (fun pre op => ∀ r ∈ run c pre, Legal c r.2 op) ops) :
    ∃ rets s l, run c ops = some (rets, s) ∧ runOnList ops = some (rets, l) ∧ s.Holds c l :=
  (sound_of_reach ops hroom hlegal).fifo hfit

end NgxLuaCpp.IrisQueue
