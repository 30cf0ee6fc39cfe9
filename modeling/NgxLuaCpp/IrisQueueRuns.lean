import NgxLuaCpp.IrisQueueRing
import Mathlib.Data.List.Forall2
/-!
# The queue is a list

First in, first out, through every sequence of calls at which the comparisons of counters
come out right.
-/
open RingBuffer Trace

namespace NgxLuaCpp.IrisQueue

variable {α : Type} {c : Params}

namespace QueueList

/-! ## The chain -/

/-- The nodes hold `chunks` and `last`. Only a queue of one node is empty. -/
structure Rep (c : Params) (s : QueueList α) (chunks : List (List α)) (last : List α) : Prop where
  front : List.Forall₂ (Queue.Rep c) s.front chunks
  pushHead : Queue.Rep c s.pushHead last
  counter : s.iteratorCounter < c.period
  ne_nil : ∀ l ∈ chunks, l ≠ []
  last_ne_nil : chunks ≠ [] → last ≠ []

/-- The queue holds `l`. -/
def Holds (c : Params) (s : QueueList α) (l : List α) : Prop :=
  ∃ chunks last, Rep c s chunks last ∧ l = chunks.flatten ++ last

variable {s : QueueList α} {l ch last : List α} {chunks : List (List α)} {p q ph : Queue α}
  {front rest : List (Queue α)} {x : α} {i : Nat}

theorem holds_new (hfit : c.Fits) : Holds c (new c : QueueList α) [] := by
  have := c.period_bounds
  have hn := hfit.1
  refine ⟨[], [], ⟨.nil, Queue.rep_new (by omega), ?_, by simp, by simp⟩, rfl⟩
  show c.elementCount < c.period
  omega

/-- One node. -/
theorem Queue.Rep.holds (h : Queue.Rep c q l) (hi : i < c.period) : Holds c ⟨[], q, i⟩ l :=
  ⟨[], l, ⟨.nil, h, hi, by simp, by simp⟩, rfl⟩

/-- A node in front. -/
theorem Queue.Rep.holds_cons (hp : Queue.Rep c p ch) (hch : ch ≠ []) (h : Rep c ⟨rest, ph, i⟩ chunks last)
    (hlast : last ≠ []) : Holds c ⟨p :: rest, ph, i⟩ (ch ++ (chunks.flatten ++ last)) := by
  refine ⟨ch :: chunks, last, ⟨.cons hp h.front, h.pushHead, h.counter, ?_, fun _ => hlast⟩, ?_⟩
  · rw [List.forall_mem_cons]
    exact ⟨hch, h.ne_nil⟩
  · rw [List.flatten_cons, List.append_assoc]

/-- `push` adds to the end. -/
theorem Holds.push (h : Holds c s l) (hfit : c.Fits)
    (hs : (c.diffCounter s.pushHead.pushCount s.pushHead.pushShadow).isSome = true) (t : α) :
    ∃ slot s', s.push c t = some (some slot, s') ∧ Holds c s' (l ++ [t]) := by
  obtain ⟨chunks, last, h, rfl⟩ := h
  rcases h.pushHead.push hfit hs t with ⟨-, slot, q, hpush, hrep⟩ | ⟨hfull, q, hpush, hrep⟩
  · refine ⟨slot, { s with pushHead := q }, ?_, chunks, last ++ [t], ⟨h.front, hrep, h.counter, h.ne_nil, ?_⟩, ?_⟩
    · simp [QueueList.push, hpush]
    · simp
    · rw [List.append_assoc]
  · -- a node is chained
    have hnew : Queue.Rep c (Queue.new s.iteratorCounter : Queue α) [] := Queue.rep_new h.counter
    have hself : (c.diffCounter s.iteratorCounter s.iteratorCounter).isSome = true := by
      rw [Params.diffCounter_self h.counter]
      rfl
    have hlast : last ≠ [] := by
      rintro rfl
      exact absurd hfull (Nat.ne_of_lt c.pos)
    rcases hnew.push hfit hself t with ⟨-, slot, p, hpush', hrep'⟩ | ⟨h0, -⟩
    · refine ⟨slot, ⟨s.front ++ [q], p, c.stepCounter s.iteratorCounter c.elementCount⟩, ?_,
        chunks ++ [last], [t], ⟨?_, hrep', ?_, ?_, by simp⟩, ?_⟩
      · simp [QueueList.push, hpush, hpush']
      · exact List.rel_append h.front (.cons hrep .nil)
      · have := c.period_bounds
        show c.stepCounter s.iteratorCounter c.elementCount < c.period
        rw [Params.stepCounter_eq hfit h.counter (le_refl _)]
        exact Nat.mod_lt _ (by omega)
      · rw [List.forall_mem_append, List.forall_mem_singleton]
        exact ⟨h.ne_nil, hlast⟩
      · simp
    · exact absurd h0 (Nat.ne_of_lt c.pos)

/-- A node that is empty is removed, another is kept. -/
theorem cleanupEmpty_cons (rest : List (Queue α)) (ph : Queue α) (i : Nat)
    (hp : Queue.Rep c p ch) (hfit : c.Fits) (hs : Queue.Settled c p) :
    ∃ p', Queue.Rep c p' ch ∧ (Queue.Drains c p → Queue.Drains c p') ∧
      cleanupEmpty c ⟨p :: rest, ph, i⟩ = some (ch.isEmpty, ⟨if ch.isEmpty then rest else p' :: rest, ph, i⟩) := by
  obtain ⟨p', hempty, hp', hdrains⟩ := hp.empty hfit hs
  refine ⟨p', hp', hdrains, ?_⟩
  simp [cleanupEmpty, hempty]

/-- `top` gives the first element. -/
theorem Holds.top (h : Holds c s (x :: l)) (hfit : c.Fits) (hs : Queue.Settled c s.popHead) :
    ∃ s', s.top c = some (x, s') ∧ Holds c s' (x :: l) := by
  obtain ⟨chunks, last, h, hl⟩ := h
  obtain ⟨front, ph, i⟩ := s
  have hfront : List.Forall₂ (Queue.Rep c) front chunks := h.front
  cases hfront with
  | nil =>
    cases hl
    refine ⟨⟨[], ph, i⟩, ?_, Queue.Rep.holds h.pushHead h.counter⟩
    simp [QueueList.top, cleanupEmpty, popHead, h.pushHead.top]
  | @cons p ch rest chunks hp hrest =>
    obtain ⟨y, ch, rfl⟩ := List.exists_cons_of_ne_nil (h.ne_nil ch (List.mem_cons_self ..))
    obtain ⟨p', hp', -, hclean⟩ := cleanupEmpty_cons rest ph i hp hfit hs
    rw [List.flatten_cons, List.cons_append, List.cons_append] at hl
    obtain ⟨rfl, -⟩ := List.cons.inj hl
    refine ⟨⟨p' :: rest, ph, i⟩, ?_, _, _, ⟨.cons hp' hrest, h.pushHead, h.counter, h.ne_nil, h.last_ne_nil⟩, hl⟩
    simp [QueueList.top, hclean, popHead, hp'.top]

/-- `pop` takes the first element. -/
theorem Holds.pop (h : Holds c s (x :: l)) (hfit : c.Fits) (hs : ∀ p ∈ s.front.head?, Queue.Drains c p) :
    ∃ s', s.pop c = some s' ∧ Holds c s' l := by
  obtain ⟨chunks, last, h, hl⟩ := h
  obtain ⟨front, ph, i⟩ := s
  have hfront : List.Forall₂ (Queue.Rep c) front chunks := h.front
  cases hfront with
  | nil =>
    cases hl
    obtain ⟨q, hpop, hq, -⟩ := h.pushHead.pop hfit
    refine ⟨⟨[], q, i⟩, ?_, Queue.Rep.holds hq h.counter⟩
    simp [QueueList.pop, cleanupEmpty, popHead, setPopHead, hpop]
  | @cons p ch rest chunks hp hrest =>
    have hp0 : Queue.Drains c p := hs p rfl
    have hlast : last ≠ [] := h.last_ne_nil (List.cons_ne_nil _ _)
    have hne := (List.forall_mem_cons.1 h.ne_nil).2
    have h' : Rep c ⟨rest, ph, i⟩ chunks last := ⟨hrest, h.pushHead, h.counter, hne, fun _ => hlast⟩
    obtain ⟨y, ch, rfl⟩ := List.exists_cons_of_ne_nil (h.ne_nil ch (List.mem_cons_self ..))
    rw [List.flatten_cons, List.cons_append, List.cons_append] at hl
    obtain ⟨rfl, rfl⟩ := List.cons.inj hl
    obtain ⟨p₁, hp₁, hd₁, hclean₁⟩ := cleanupEmpty_cons rest ph i hp hfit hp0.settled
    obtain ⟨p₂, hpop, hp₂, hd₂⟩ := hp₁.pop hfit
    obtain ⟨p₃, hp₃, -, hclean₃⟩ := cleanupEmpty_cons rest ph i hp₂ hfit
      (hd₂ (hd₁ hp0)).settled
    refine ⟨⟨if ch.isEmpty then rest else p₃ :: rest, ph, i⟩, ?_, ?_⟩
    · simp [QueueList.pop, hclean₁, popHead, setPopHead, hpop, hclean₃]
    rw [List.append_assoc]
    cases ch with
    | nil => exact ⟨chunks, last, h', rfl⟩
    | cons z ch => exact Queue.Rep.holds_cons hp₃ (List.cons_ne_nil _ _) h' hlast

theorem popLoop_zero (h : Holds c s l) (rounds : Nat) :
    ∃ s', popLoop c rounds s 0 = some (0 - l.length, s') ∧ Holds c s' (l.drop 0) := by
  refine ⟨s, ?_, h⟩
  rw [Nat.zero_sub]
  unfold popLoop
  rfl

theorem popLoop_last {n m left : Nat} (hn : 0 < n) (hsize : ph.size c = some m)
    (hpop : ph.popN c (min n m) = some (left, q)) :
    popLoop c 0 ⟨[], ph, i⟩ n = some (n - min n m, ⟨[], q, i⟩) := by
  unfold popLoop
  simp [popHead, setPopHead, hsize, hpop, cleanupEmpty, hn.ne']

/-- Every round but the last empties its node. -/
theorem popLoop_eq (hfit : c.Fits) (hfront : List.Forall₂ (Queue.Rep c) front chunks)
    (hd : ∀ p ∈ front, Queue.Drains c p) (hs : Queue.Sized c ph) (h : Rep c ⟨front, ph, i⟩ chunks last) (n : Nat) :
    ∃ s', popLoop c front.length ⟨front, ph, i⟩ n = some (n - (chunks.flatten ++ last).length, s') ∧
      Holds c s' ((chunks.flatten ++ last).drop n) := by
  rcases Nat.eq_zero_or_pos n with rfl | hn
  · exact popLoop_zero ⟨chunks, last, h, rfl⟩ _
  induction hfront generalizing n with
  | nil =>
    obtain ⟨q, hpop, hq, -⟩ := h.pushHead.popN hfit hs (min n last.length)
    rw [drop_min] at hq
    refine ⟨⟨[], q, i⟩, ?_, Queue.Rep.holds hq h.counter⟩
    have hleft : n - min n last.length = n - last.length := by omega
    rw [List.flatten_nil, List.nil_append, ← hleft]
    exact popLoop_last hn (h.pushHead.size hfit hs) hpop
  | @cons p ch rest chunks hp hrest ih =>
    rw [List.forall_mem_cons] at hd
    have hlast : last ≠ [] := h.last_ne_nil (List.cons_ne_nil _ _)
    have hne := (List.forall_mem_cons.1 h.ne_nil).2
    have h' : Rep c ⟨rest, ph, i⟩ chunks last := ⟨hrest, h.pushHead, h.counter, hne, fun _ => hlast⟩
    have hsize := hp.size hfit hd.1.sized
    obtain ⟨p₁, hpop, hp₁, hd₁⟩ := hp.popN hfit hd.1.sized (min n ch.length)
    rw [drop_min] at hp₁
    obtain ⟨p₂, hp₂, -, hclean⟩ := cleanupEmpty_cons rest ph i hp₁ hfit (hd₁ hd.1).settled
    rw [List.flatten_cons, List.append_assoc, List.drop_append, List.length_append]
    rcases Nat.lt_or_ge n ch.length with hlt | hge
    · -- elements are left in the node
      have hleft : ch.drop n ≠ [] := by simpa using hlt
      have hzero : n - (ch.length + (chunks.flatten ++ last).length) = 0 := by omega
      refine ⟨⟨p₂ :: rest, ph, i⟩, ?_, ?_⟩
      · rw [List.isEmpty_eq_false_iff.2 hleft] at hclean
        rw [Nat.min_eq_left hlt.le] at hpop
        rw [hzero]
        unfold popLoop
        simp [popHead, setPopHead, hsize, hpop, hclean, hn.ne', Nat.min_eq_left hlt.le]
      · rw [Nat.sub_eq_zero_of_le hlt.le, List.drop_zero]
        exact Queue.Rep.holds_cons hp₂ hleft h' hlast
    · rw [Nat.min_eq_right hge] at hpop
      rw [List.drop_of_length_le hge] at hclean ⊢
      rw [List.nil_append, ← Nat.sub_sub]
      have hround : popLoop c (p :: rest).length ⟨p :: rest, ph, i⟩ n =
          popLoop c rest.length ⟨rest, ph, i⟩ (n - ch.length) := by
        rw [List.length_cons]
        conv_lhs => unfold popLoop
        simp [popHead, setPopHead, hsize, hpop, hclean, hn.ne', Nat.min_eq_right hge]
      rw [hround]
      rcases Nat.eq_zero_or_pos (n - ch.length) with h0 | hpos
      · rw [h0]
        exact popLoop_zero ⟨chunks, last, h', rfl⟩ _
      · exact ih hd.2 h' _ hpos

/-- `pop(n)` takes the first `n`, or all. -/
theorem Holds.popN (h : Holds c s l) (hfit : c.Fits) (hd : ∀ p ∈ s.front, Queue.Drains c p)
    (hs : Queue.Sized c s.pushHead) (n : Nat) :
    ∃ s', s.popN c n = some (n - l.length, s') ∧ Holds c s' (l.drop n) := by
  obtain ⟨chunks, last, h, rfl⟩ := h
  obtain ⟨front, ph, i⟩ := s
  have hfront : List.Forall₂ (Queue.Rep c) front chunks := h.front
  cases hfront with
  | nil => exact popLoop_eq hfit .nil hd hs h n
  | @cons p ch rest chunks hp hrest =>
    have hd' := List.forall_mem_cons.1 hd
    obtain ⟨p', hp', hdrains, hclean⟩ := cleanupEmpty_cons rest ph i hp hfit hd'.1.settled
    have hch : ch ≠ [] := h.ne_nil ch (List.mem_cons_self ..)
    rw [List.isEmpty_eq_false_iff.2 hch] at hclean
    have h' : Rep c ⟨p' :: rest, ph, i⟩ (ch :: chunks) last :=
      ⟨.cons hp' hrest, h.pushHead, h.counter, h.ne_nil, h.last_ne_nil⟩
    have hd'' : ∀ p ∈ p' :: rest, Queue.Drains c p := List.forall_mem_cons.2 ⟨hdrains hd'.1, hd'.2⟩
    obtain ⟨s', hpop, hs'⟩ := popLoop_eq hfit (.cons hp' hrest) hd'' hs h' n
    refine ⟨s', ?_, hs'⟩
    unfold QueueList.popN
    rw [hclean]
    exact hpop

theorem foldlM_size (hfit : c.Fits) {nodes : List (Queue α)} (h : List.Forall₂ (Queue.Rep c) nodes chunks)
    (hs : ∀ q ∈ nodes, Queue.Sized c q) (counter : Nat) :
    nodes.foldlM (fun counter p => do return counter + (← p.size c)) counter =
      some (counter + chunks.flatten.length) := by
  induction h generalizing counter with
  | nil => rfl
  | @cons p ch rest chunks hp hrest ih =>
    rw [List.forall_mem_cons] at hs
    rw [List.foldlM_cons, hp.size hfit hs.1, List.flatten_cons, List.length_append, ← Nat.add_assoc]
    exact ih hs.2 _

theorem Holds.size (h : Holds c s l) (hfit : c.Fits) (hs : ∀ q ∈ s.nodes, Queue.Sized c q) :
    s.size c = some l.length := by
  obtain ⟨chunks, last, h, rfl⟩ := h
  have hnodes : List.Forall₂ (Queue.Rep c) s.nodes (chunks ++ [last]) := List.rel_append h.front (.cons h.pushHead .nil)
  unfold QueueList.size
  rw [foldlM_size hfit hnodes hs]
  simp

/-- `empty` is exact. -/
theorem Holds.empty (h : Holds c s l) (hfit : c.Fits) (hs : Queue.Settled c s.popHead) :
    ∃ s', s.empty c = some (l.isEmpty, s') ∧ Holds c s' l := by
  obtain ⟨chunks, last, h, rfl⟩ := h
  obtain ⟨front, ph, i⟩ := s
  have hfront : List.Forall₂ (Queue.Rep c) front chunks := h.front
  cases hfront with
  | nil =>
    obtain ⟨q, hempty, hq, -⟩ := h.pushHead.empty hfit hs
    refine ⟨⟨[], q, i⟩, ?_, Queue.Rep.holds hq h.counter⟩
    cases last <;> simp [QueueList.empty, popHead, setPopHead, hempty]
  | @cons p ch rest chunks hp hrest =>
    obtain ⟨p', hempty, hp', -⟩ := hp.empty hfit hs
    have hch : ch ≠ [] := h.ne_nil ch (List.mem_cons_self ..)
    refine ⟨⟨p' :: rest, ph, i⟩, ?_, ch :: chunks, last,
      ⟨.cons hp' hrest, h.pushHead, h.counter, h.ne_nil, h.last_ne_nil⟩, rfl⟩
    simp [QueueList.empty, popHead, setPopHead, hempty, hch]

end QueueList

/-! ## Runs -/

/-- The comparisons of counters that a call rests on come out right. -/
def Comparable (c : Params) (s : QueueList α) : Op α → Prop
  | .push _ => (c.diffCounter s.pushHead.pushCount s.pushHead.pushShadow).isSome = true
  | .top | .empty => Queue.Settled c s.popHead
  | .pop => Queue.Settled c s.popHead ∧ ∀ p ∈ s.front.head?, Queue.Drains c p
  | .popN _ => Queue.Sized c s.pushHead ∧ ∀ p ∈ s.front, Queue.Drains c p
  | .size => ∀ q ∈ s.nodes, Queue.Sized c q

variable {s : QueueList α} {l : List α} {op : Op α}

theorem Legal.exists_cons (hl : Legal c s op) (hop : op = .top ∨ op = .pop) (h : QueueList.Holds c s l)
    (hfit : c.Fits) (hs : Queue.Settled c s.popHead) : ∃ x l', l = x :: l' := by
  obtain ⟨s', hempty, -⟩ := h.empty hfit hs
  have hfalse := hl hop
  rw [hempty] at hfalse
  cases l with
  | nil => cases hfalse
  | cons x l => exact ⟨x, l, rfl⟩

/-- A call answers as the list does. -/
theorem QueueList.Holds.step (h : Holds c s l) (hfit : c.Fits) (hl : Legal c s op) (hs : Comparable c s op) :
    ∃ ret s' l', s.step c op = some (ret, s') ∧ op.onList l = some (ret, l') ∧ Holds c s' l' := by
  cases op with
  | push t =>
    obtain ⟨slot, s', hpush, h'⟩ := h.push hfit hs t
    exact ⟨_, s', _, by simp [QueueList.step, hpush], rfl, h'⟩
  | top =>
    obtain ⟨x, l, rfl⟩ := hl.exists_cons (.inl rfl) h hfit hs
    obtain ⟨s', htop, h'⟩ := h.top hfit hs
    exact ⟨_, s', _, by simp [QueueList.step, htop], rfl, h'⟩
  | pop =>
    obtain ⟨x, l, rfl⟩ := hl.exists_cons (.inr rfl) h hfit hs.1
    obtain ⟨s', hpop, h'⟩ := h.pop hfit hs.2
    exact ⟨_, s', _, by simp [QueueList.step, hpop], rfl, h'⟩
  | popN n =>
    obtain ⟨s', hpop, h'⟩ := h.popN hfit hs.2 hs.1 n
    exact ⟨_, s', _, by simp [QueueList.step, hpop], rfl, h'⟩
  | size => exact ⟨_, s, _, by simp [QueueList.step, h.size hfit hs], rfl, h⟩
  | empty =>
    obtain ⟨s', hempty, h'⟩ := h.empty hfit hs
    exact ⟨_, s', _, by simp [QueueList.step, hempty], rfl, h'⟩

theorem run_concat (c : Params) (ops : List (Op α)) (op : Op α) :
    run c (ops ++ [op]) = (run c ops).bind fun r => (r.2.step c op).bind fun r' => some (r.1 ++ [r'.1], r'.2) := by
  unfold run
  rw [List.foldlM_append]
  simp

theorem runOnList_concat (ops : List (Op α)) (op : Op α) :
    runOnList (ops ++ [op]) =
      (runOnList ops).bind fun r => (op.onList r.2).bind fun r' => some (r.1 ++ [r'.1], r'.2) := by
  unfold runOnList
  rw [List.foldlM_append]
  simp

/-- Before each call, it is legal and its comparisons come out right. -/
def Sound (c : Params) (ops : List (Op α)) : Prop :=
  Each (fun pre op => ∀ r ∈ run c pre, Legal c r.2 op ∧ Comparable c r.2 op) ops

theorem Sound.fifo {ops : List (Op α)} (h : Sound c ops) (hfit : c.Fits) :
    ∃ rets s l, run c ops = some (rets, s) ∧ runOnList ops = some (rets, l) ∧ s.Holds c l := by
  induction ops using List.reverseRecOn with
  | nil => exact ⟨[], .new c, [], rfl, rfl, QueueList.holds_new hfit⟩
  | append_singleton ops op ih =>
    obtain ⟨hpre, hop⟩ := each_concat.1 h
    obtain ⟨rets, s, l, hrun, hlist, hholds⟩ := ih hpre
    obtain ⟨hlegal, hcomparable⟩ := hop _ hrun
    obtain ⟨ret, s', l', hstep, honList, hholds'⟩ := hholds.step hfit hlegal hcomparable
    refine ⟨rets ++ [ret], s', l', ?_, ?_, hholds'⟩
    · rw [run_concat, hrun, Option.bind_some, hstep]
      rfl
    · rw [runOnList_concat, hlist, Option.bind_some, honList]
      rfl

/-- The queue is first in, first out. -/
theorem run_fifo (hfit : c.Fits) (ops : List (Op α)) (h : Sound c ops) :
    ∃ rets s l, run c ops = some (rets, s) ∧ runOnList ops = some (rets, l) ∧ s.Holds c l := h.fifo hfit

/-! ## Where the comparisons go wrong -/

instance Queue.decidableSized (c : Params) (q : Queue α) : Decidable (Queue.Sized c q) :=
  inferInstanceAs (Decidable (_ = true))

instance Queue.decidableSettled (c : Params) (q : Queue α) : Decidable (Queue.Settled c q) :=
  inferInstanceAs (Decidable (∃ d ∈ c.diffCounter q.popShadow q.popCount, q.popCount = q.pushCount → d ≤ 0))

theorem Queue.drains_iff (c : Params) (q : Queue α) : Queue.Drains c q ↔ Queue.Sized c q ∧
    (c.diffCounter q.popShadow q.popCount).isSome = true ∧ ∃ d ∈ c.diffCounter q.popShadow q.pushCount, d ≤ 0 :=
  ⟨fun h => ⟨h.sized, h.shadow, h.drained⟩, fun h => ⟨h.1, h.2.1, h.2.2⟩⟩

instance Queue.decidableDrains (c : Params) (q : Queue α) : Decidable (Queue.Drains c q) :=
  decidable_of_iff _ (Queue.drains_iff c q).symm

instance decidableLegal [DecidableEq α] (c : Params) (s : QueueList α) (op : Op α) : Decidable (Legal c s op) :=
  inferInstanceAs (Decidable (_ ∨ _ → _ = _))

instance decidableComparable (c : Params) (s : QueueList α) (op : Op α) : Decidable (Comparable c s op) :=
  match op with
  | .push _ => inferInstanceAs (Decidable (_ = true))
  | .top | .empty => inferInstanceAs (Decidable (Queue.Settled c s.popHead))
  | .pop => inferInstanceAs (Decidable (Queue.Settled c s.popHead ∧ ∀ p ∈ s.front.head?, Queue.Drains c p))
  | .popN _ => inferInstanceAs (Decidable (Queue.Sized c s.pushHead ∧ ∀ p ∈ s.front, Queue.Drains c p))
  | .size => inferInstanceAs (Decidable (∀ q ∈ s.nodes, Queue.Sized c q))

instance decidableSound [DecidableEq α] (c : Params) (ops : List (Op α)) : Decidable (Sound c ops) :=
  instDecidableEach _ ops

/-- Three elements a node. -/
def three : Params := ⟨3, false, Nat.le_add_left 1 2, by decide⟩

/-- A chain of two nodes, emptied past the end of a ring. -/
def calls : List (Op Nat) :=
  [.push 10, .push 11, .push 12, .push 13, .top, .pop, .size, .popN 2, .empty, .push 14, .popN 5, .empty]

theorem run_fifo_calls : three.Fits ∧ Sound three calls ∧
    ∃ rets s l, run three calls = some (rets, s) ∧ runOnList calls = some (rets, l) ∧ s.Holds three l :=
  have hfit : three.Fits := by decide +kernel
  have hsound : Sound three calls := by decide +kernel
  ⟨hfit, hsound, run_fifo hfit calls hsound⟩

/-- A producer and a consumer that never asks whether the queue is empty. -/
def pairs (k : Nat) : List (Op Nat) := (List.replicate k [.push 0, .popN 1]).flatten

theorem pairs_succ (k : Nat) : pairs (k + 1) = pairs k ++ [.push 0] ++ [.popN 1] := by
  unfold pairs
  rw [List.replicate_succ']
  simp

theorem mem_pairs {k : Nat} {op : Op Nat} (h : op ∈ pairs k) : op = .push 0 ∨ op = .popN 1 := by
  unfold pairs at h
  obtain ⟨pair, hpair, hop⟩ := List.mem_flatten.1 h
  rw [List.eq_of_mem_replicate hpair] at hop
  simpa using hop

/-- The shadow of the consumer is not touched by what it pops. -/
theorem run_pairs (hfit : c.Fits) (hpow : c.powTwo = false) (k : Nat) (hk : k < c.period) :
    ∃ rets q, run c (pairs k) = some (rets, ⟨[], q, c.elementCount⟩) ∧ runOnList (pairs k) = some (rets, []) ∧
      Queue.Rep c q [] ∧ q.popCount = k ∧ q.popShadow = 0 := by
  have hdiff (lhs rhs : Nat) : (c.diffCounter lhs rhs).isSome = true := by
    rw [Params.diffCounter_isSome, hpow]
    exact fun h => nomatch h
  induction k with
  | zero => exact ⟨[], .new 0, rfl, rfl, Queue.rep_new hk, rfl, rfl⟩
  | succ k ih =>
    obtain ⟨rets, q, hrun, hlist, hrep, hcount, hshadow⟩ := ih (by omega)
    rcases hrep.push hfit (hdiff _ _) 0 with ⟨-, slot, q₁, hpush, hrep₁⟩ | ⟨h0, -⟩
    · obtain ⟨hcount₁, hshadow₁⟩ := Queue.push_frame hpush
      have hsize : q₁.size c = some 1 := hrep₁.size hfit (hdiff _ _)
      obtain ⟨q₂, hpop, hrep₂, -⟩ := hrep₁.popN hfit (hdiff _ _) (min 1 1)
      obtain ⟨hshadow₂, hcount₂⟩ := Queue.popN_frame hsize hpop
      refine ⟨rets ++ [.pushed true] ++ [.left 0], q₂, ?_, ?_, hrep₂, ?_, ?_⟩
      · have hloop := QueueList.popLoop_last (i := c.elementCount) Nat.one_pos hsize hpop
        rw [pairs_succ, run_concat, run_concat, hrun]
        simp [QueueList.step, QueueList.push, hpush, QueueList.popN, QueueList.cleanupEmpty, hloop]
      · rw [pairs_succ, runOnList_concat, runOnList_concat, hlist]
        rfl
      · rw [hcount₂, hcount₁, hcount, min_self, min_self, Params.stepCounter_eq hfit (by omega) c.pos]
        exact Nat.mod_eq_of_lt hk
      · rw [hshadow₂, hshadow₁, hshadow]
    · exact absurd h0 (Nat.ne_of_lt c.pos)

/-- After 2^62 + 1 elements went through, the empty queue is not found empty. -/
theorem run_not_fifo : ¬ ∀ (c : Params) (ops : List (Op Nat)),
    Each (fun pre op => ∀ r ∈ run c pre, Legal c r.2 op) ops →
      ∃ rets s l, run c ops = some (rets, s) ∧ runOnList ops = some (rets, l) := by
  intro h
  obtain ⟨k, hk⟩ : ∃ k, k = 0x4000000000000001 := ⟨_, rfl⟩
  have hperiod : 0x4000000000000001 < three.period := by decide +kernel
  obtain ⟨rets, q, hrun, hlist, hrep, hcount, hshadow⟩ := run_pairs (c := three) (by decide +kernel) (by decide) k
    (hk ▸ hperiod)
  have hlegal : Each (fun pre op => ∀ r ∈ run three pre, Legal three r.2 op) (pairs k ++ [.empty]) := by
    rintro pre op post hops r - hop
    have hmem : op ∈ pairs k ++ [.empty] := hops ▸ List.mem_append_right pre (List.mem_cons_self ..)
    rcases List.mem_append.1 hmem with hmem | hmem
    · rcases mem_pairs hmem with rfl | rfl
      all_goals simp at hop
    · rw [List.mem_singleton.1 hmem] at hop
      simp at hop
  obtain ⟨rets', s, l, hrun', hlist'⟩ := h three (pairs k ++ [.empty]) hlegal
  have hempty : q.empty three = some (false, q) := by
    have hd : three.diffCounter 0 0x4000000000000001 = some 0x7fffffffffffffff := by decide +kernel
    simp [Queue.empty, Queue.maybeEmpty, hcount, hshadow, hk, hd]
  have hstep : (⟨[], q, three.elementCount⟩ : QueueList Nat).step three .empty =
      some (.empty false, ⟨[], q, three.elementCount⟩) := by
    unfold QueueList.step QueueList.empty QueueList.popHead
    dsimp only [List.headD_nil]
    rw [hempty]
    rfl
  rw [run_concat, hrun, Option.bind_some, hstep, Option.bind_some, Option.some.injEq, Prod.mk.injEq] at hrun'
  rw [runOnList_concat, hlist, Option.bind_some, Op.onList, Option.bind_some, Option.some.injEq,
    Prod.mk.injEq, ← hrun'.1] at hlist'
  simp at hlist'

end NgxLuaCpp.IrisQueue
