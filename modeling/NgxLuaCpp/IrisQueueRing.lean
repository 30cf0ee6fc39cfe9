import NgxLuaCpp.IrisQueue
import Mathlib.Tactic.Ring
/-!
# One ring is a list

A ring stands for the elements between its counters, and keeps standing for them where the
comparisons of its counters have a value.
-/
open RingBuffer

namespace NgxLuaCpp.IrisQueue

/-! ## Counters -/

namespace Params
variable (c : Params)

/-- A counter wraps around here. -/
def period : Nat := if c.powTwo then 0x10000000000000000 else c.counterLimit

/-- The size of a ring, and the difference of two counters on top of the limit, are in range.
So it is for all powers of two that can be allocated, and for every size below 2^32. -/
def Fits : Prop :=
  c.elementCount < 0x8000000000000000 ∧
    (c.powTwo = false → c.counterLimit + c.elementCount < 0x10000000000000000)

instance decidableFits : Decidable c.Fits := inferInstanceAs (Decidable (_ ∧ _))

theorem counterLimit_eq : ∃ k, k ≤ 63 ∧ 1 <<< k ≤ c.elementCount ∧ c.elementCount < 2 * 1 <<< k ∧
    c.counterLimit = c.elementCount * 1 <<< (63 - k) ∧ 1 <<< k * 1 <<< (63 - k) = 0x8000000000000000 ∧
    (c.powTwo = true ↔ 1 <<< k = c.elementCount) := by
  have hne : c.elementCount ≠ 0 := Nat.one_le_iff_ne_zero.1 c.pos
  have hk : c.elementCount.log2 < 64 := (Nat.log2_lt hne).2 c.lt
  refine ⟨c.elementCount.log2, by omega, ?_, ?_, rfl, ?_, ?_⟩
  · rw [Nat.one_shiftLeft]
    exact Nat.log2_self_le hne
  · have := Nat.lt_log2_self (n := c.elementCount)
    rw [Nat.one_shiftLeft]
    rwa [Nat.pow_succ, Nat.mul_comm] at this
  · rw [Nat.one_shiftLeft, Nat.one_shiftLeft, ← Nat.pow_add, Nat.add_sub_cancel' (by omega)]
  · simp [powTwo]

theorem counterLimit_bounds : 0x8000000000000000 ≤ c.counterLimit ∧ c.counterLimit < 0x10000000000000000 := by
  obtain ⟨k, -, hle, hlt, hlimit, hmul, -⟩ := c.counterLimit_eq
  have hpos : 0 < 1 <<< (63 - k) := by
    rw [Nat.one_shiftLeft]
    exact Nat.two_pow_pos _
  rw [hlimit]
  constructor
  · rw [← hmul]
    exact Nat.mul_le_mul_right _ hle
  · have := Nat.mul_lt_mul_of_pos_right hlt hpos
    rw [Nat.mul_assoc, hmul] at this
    exact this

theorem period_bounds : 0x8000000000000000 ≤ c.period ∧ c.period ≤ 0x10000000000000000 := by
  have := c.counterLimit_bounds
  unfold period
  split
  all_goals omega

theorem elementCount_dvd_period : c.elementCount ∣ c.period := by
  obtain ⟨k, hk, -, -, hlimit, hmul, hpow⟩ := c.counterLimit_eq
  unfold period
  split
  · next h =>
    rw [← hpow.1 h]
    refine ⟨1 <<< (63 - k) * 2, ?_⟩
    rw [← Nat.mul_assoc, hmul]
  · rw [hlimit]
    exact Nat.dvd_mul_right _ _

/-- Below twice the period, a counter wraps around once. -/
theorem mod_period {x : Nat} (h : x < 2 * c.period) :
    x % c.period = if x < c.period then x else x - c.period := by
  split
  · next hlt => exact Nat.mod_eq_of_lt hlt
  · next hge =>
    rw [Nat.mod_eq_sub_mod (Nat.le_of_not_lt hge), Nat.mod_eq_of_lt]
    omega

variable {c} {count delta lhs rhs d : Nat}

/-- A counter steps modulo the period. -/
theorem stepCounter_eq (hfit : c.Fits) (hcount : count < c.period) (hdelta : delta ≤ c.elementCount) :
    c.stepCounter count delta = (count + delta) % c.period := by
  obtain ⟨hn, hsum⟩ := hfit
  have hbounds := c.period_bounds
  rw [c.mod_period (by omega)]
  unfold stepCounter period at *
  dsimp only
  cases hpow : c.powTwo with
  | true =>
    simp only [hpow, if_true] at *
    split
    all_goals omega
  | false =>
    have := hsum hpow
    simp only [hpow, Bool.false_eq_true, if_false] at *
    split_ifs
    all_goals omega

/-- The difference of a counter from one not far behind it. -/
theorem diffCounter_near (hfit : c.Fits) (hrhs : rhs < c.period) (hd : d ≤ c.elementCount) {v : Int}
    (h : c.diffCounter ((rhs + d) % c.period) rhs = some v) : v = d := by
  obtain ⟨hn, hsum⟩ := hfit
  have hbounds := c.period_bounds
  rw [c.mod_period (by omega)] at h
  unfold diffCounter toSigned period at *
  dsimp only at h
  cases hpow : c.powTwo with
  | true =>
    simp only [hpow, if_true] at *
    split_ifs at h
    all_goals
      try rw [Int.bmod] at h
      rw [Option.some.injEq] at h
      omega
  | false =>
    have := hsum hpow
    simp only [hpow, Bool.false_eq_true, if_false, Option.some.injEq] at *
    subst h
    split_ifs
    all_goals omega

/-- Signed differences are defined, unless of powers of two and too far apart. -/
def SignedRange (lhs rhs : Nat) : Prop :=
  -0x8000000000000000 ≤ toSigned lhs - toSigned rhs ∧ toSigned lhs - toSigned rhs < 0x8000000000000000

theorem diffCounter_isSome : (c.diffCounter lhs rhs).isSome = true ↔
    (c.powTwo = true → c.wrapv = false → SignedRange lhs rhs) := by
  unfold diffCounter SignedRange
  dsimp only
  cases c.powTwo with
  | false => simp
  | true => cases c.wrapv with
    | true => split_ifs <;> simp
    | false => split_ifs <;> simp_all

theorem diffCounter_self (h : rhs < c.period) : c.diffCounter rhs rhs = some 0 := by
  have hlimit := c.counterLimit_bounds
  unfold diffCounter period at *
  dsimp only
  cases hpow : c.powTwo with
  | true => simp
  | false =>
    simp only [hpow, Bool.false_eq_true, if_false, Option.some.injEq] at *
    unfold toSigned
    split_ifs
    all_goals omega

/-- What compares with both ends of a ring's contents compares with all between. -/
theorem diffCounter_between (hfit : c.Fits) {pop len i : Nat} (hlhs : lhs < c.period) (hpop : pop < c.period)
    (hlen : len ≤ c.elementCount) (hi : i ≤ len) (hsize : (c.diffCounter ((pop + len) % c.period) pop).isSome = true)
    (hfirst : (c.diffCounter lhs pop).isSome = true)
    (hlast : (c.diffCounter lhs ((pop + len) % c.period)).isSome = true) :
    (c.diffCounter lhs ((pop + i) % c.period)).isSome = true := by
  rw [diffCounter_isSome] at *
  intro hpow hwrap
  have hsize := hsize hpow hwrap
  have hfirst := hfirst hpow hwrap
  have hlast := hlast hpow hwrap
  obtain ⟨hn, -⟩ := hfit
  have hperiod : c.period = 0x10000000000000000 := if_pos hpow
  rw [hperiod] at hlhs hpop hsize hlast ⊢
  unfold SignedRange toSigned at *
  omega

end Params

/-! ## One ring -/

variable {α : Type} {c : Params}

theorem drop_min (n : Nat) (l : List α) : l.drop (min n l.length) = l.drop n := by
  rcases Nat.le_total n l.length with h | h
  · rw [Nat.min_eq_left h]
  · rw [Nat.min_eq_right h, List.drop_of_length_le h, List.drop_length]

namespace Queue

/-- The ring holds `l`. The producer's shadow is behind by no more than its free slots. -/
structure Rep (c : Params) (q : Queue α) (l : List α) : Prop where
  pop_lt : q.popCount < c.period
  push_eq : q.pushCount = (q.popCount + l.length) % c.period
  holds : Holds c.elementCount q.popCount q.ringBuffer l
  pushShadow_lt : q.pushShadow < c.period
  lag : ∃ p, p + l.length ≤ c.elementCount ∧ q.popCount = (q.pushShadow + p) % c.period
  popShadow_lt : q.popShadow < c.period

/-- `size` has a value. -/
def Sized (c : Params) (q : Queue α) : Prop := (c.diffCounter q.pushCount q.popCount).isSome = true

/-- The consumer's shadow compares, and is not found ahead of an empty ring. -/
def Settled (c : Params) (q : Queue α) : Prop :=
  ∃ d ∈ c.diffCounter q.popShadow q.popCount, q.popCount = q.pushCount → d ≤ 0

/-- So it stays while the ring is drained. -/
structure Drains (c : Params) (q : Queue α) : Prop where
  sized : Sized c q
  shadow : (c.diffCounter q.popShadow q.popCount).isSome = true
  drained : ∃ d ∈ c.diffCounter q.popShadow q.pushCount, d ≤ 0

variable {q : Queue α} {l : List α} {x t : α} {k : Nat} {ring : Slots α}

theorem rep_new {init : Nat} (h : init < c.period) : Rep c (.new init : Queue α) [] where
  pop_lt := h
  push_eq := (Nat.mod_eq_of_lt h).symm
  holds := holds_nil _ _
  pushShadow_lt := h
  lag := ⟨0, Nat.zero_le _, (Nat.mod_eq_of_lt h).symm⟩
  popShadow_lt := h

theorem Rep.push_lt (h : Rep c q l) : q.pushCount < c.period := by
  have := c.period_bounds
  rw [h.push_eq]
  exact Nat.mod_lt _ (by omega)

theorem Rep.push_eq_pop_iff (h : Rep c q l) (hfit : c.Fits) : q.popCount = q.pushCount ↔ l = [] := by
  have hlen := h.holds.length_le
  have hbounds := c.period_bounds
  have hn := hfit.1
  rw [h.push_eq]
  constructor
  · intro he
    have h0 : 0 = l.length := slot_inj (by omega) (by omega) ((Nat.mod_eq_of_lt h.pop_lt).trans he)
    exact List.length_eq_zero_iff.1 h0.symm
  · rintro rfl
    exact (Nat.mod_eq_of_lt h.pop_lt).symm

theorem Rep.full_iff (h : Rep c q l) (hfit : c.Fits) : q.full c = true ↔ l.length = c.elementCount := by
  have hlen := h.holds.length_le
  have hbounds := c.period_bounds
  have hn := hfit.1
  unfold full
  rw [beq_iff_eq, Params.stepCounter_eq hfit h.pop_lt (le_refl _), h.push_eq]
  constructor
  · exact fun he => (slot_inj (by omega) (by omega) he).symm
  · rintro he
    rw [he]

theorem Rep.refreshPopCached (h : Rep c q l) : Rep c q.refreshPopCached l where
  pop_lt := h.pop_lt
  push_eq := h.push_eq
  holds := h.holds
  pushShadow_lt := h.pop_lt
  lag := ⟨0, by rw [Nat.zero_add]; exact h.holds.length_le, (Nat.mod_eq_of_lt h.pop_lt).symm⟩
  popShadow_lt := h.popShadow_lt

/-- With room as the producer sees it. -/
theorem Rep.construct (h : Rep c q l) (hfit : c.Fits) {p : Nat} (hp : p + l.length < c.elementCount)
    (hlag : q.popCount = (q.pushShadow + p) % c.period) (t : α) :
    ∃ ring, construct q.ringBuffer (q.pushCount % c.elementCount) t = some ring ∧
      Rep c { q with ringBuffer := ring, pushCount := c.stepCounter q.pushCount 1 } (l ++ [t]) := by
  obtain ⟨ring, hring, hholds⟩ := h.holds.construct (by omega) t
  refine ⟨ring, ?_, h.pop_lt, ?_, hholds, h.pushShadow_lt, ⟨p, ?_, hlag⟩, h.popShadow_lt⟩
  · rw [h.push_eq, Nat.mod_mod_of_dvd _ c.elementCount_dvd_period]
    exact hring
  · rw [Params.stepCounter_eq hfit h.push_lt c.pos, h.push_eq, Nat.mod_add_mod, List.length_append,
      List.length_singleton, Nat.add_assoc]
  · rw [List.length_append, List.length_singleton]
    omega

/-- A push into a ring with room appends, and a full ring stays as it is. -/
theorem Rep.push (h : Rep c q l) (hfit : c.Fits)
    (hsound : (c.diffCounter q.pushCount q.pushShadow).isSome = true) (t : α) :
    (l.length < c.elementCount ∧ ∃ slot q', q.push c t = some (some slot, q') ∧ Rep c q' (l ++ [t])) ∨
      (l.length = c.elementCount ∧ ∃ q', q.push c t = some (none, q') ∧ Rep c q' l) := by
  obtain ⟨p, hp, hlag⟩ := h.lag
  obtain ⟨v, hv⟩ := Option.isSome_iff_exists.1 hsound
  have hdist : q.pushCount = (q.pushShadow + (p + l.length)) % c.period := by
    rw [h.push_eq, hlag, Nat.mod_add_mod, Nat.add_assoc]
  have hv' : v = (p + l.length : Nat) := by
    rw [hdist] at hv
    exact Params.diffCounter_near hfit h.pushShadow_lt hp hv
  have hn : toSigned c.elementCount = c.elementCount := if_pos hfit.1
  have hmaybe : q.maybeFull c = some (decide (p + l.length ≥ c.elementCount)) := by
    simp only [maybeFull, hv, hv', hn, Option.bind_eq_bind, Option.bind_some, Option.pure_def]
    norm_cast
  by_cases hroom : p + l.length < c.elementCount
  · obtain ⟨ring, hring, hrep⟩ := h.construct hfit hroom hlag t
    refine .inl ⟨by omega, q.pushCount % c.elementCount, _, ?_, hrep⟩
    rw [decide_eq_false (by omega)] at hmaybe
    simp [Queue.push, hmaybe, hring]
  · -- the shadow is refreshed
    rw [decide_eq_true (by omega)] at hmaybe
    have h' := h.refreshPopCached
    by_cases hfull : l.length = c.elementCount
    · refine .inr ⟨hfull, _, ?_, h'⟩
      simp [Queue.push, hmaybe, (h'.full_iff hfit).2 hfull]
    · have hlt := lt_of_le_of_ne h.holds.length_le hfull
      obtain ⟨ring, hring, hrep⟩ := h'.construct hfit (p := 0) (by omega) (Nat.mod_eq_of_lt h.pop_lt).symm t
      refine .inl ⟨hlt, q.pushCount % c.elementCount, _, ?_, hrep⟩
      have hnotfull : q.refreshPopCached.full c = false := by
        rw [Bool.eq_false_iff]
        exact fun he => hfull ((h'.full_iff hfit).1 he)
      unfold Queue.push
      rw [hmaybe, Option.bind_eq_bind, Option.bind_some, if_pos rfl]
      dsimp only
      rw [hnotfull, hring]
      rfl

/-- The consumer's side is left alone. -/
theorem push_frame {w : Option Nat} {q' : Queue α} (h : q.push c t = some (w, q')) :
    q'.popCount = q.popCount ∧ q'.popShadow = q.popShadow := by
  unfold Queue.push at h
  obtain ⟨maybe, -, h⟩ := Option.bind_eq_some_iff.1 h
  have hrefresh : (if maybe then q.refreshPopCached else q).popCount = q.popCount ∧
      (if maybe then q.refreshPopCached else q).popShadow = q.popShadow := by
    cases maybe
    all_goals exact ⟨rfl, rfl⟩
  dsimp only at h
  generalize (if maybe then q.refreshPopCached else q) = q₀ at h hrefresh
  split at h
  · cases h
    exact hrefresh
  · obtain ⟨ring, -, h⟩ := Option.bind_eq_some_iff.1 h
    cases h
    exact hrefresh

theorem Rep.top (h : Rep c q (x :: l)) : q.top c = some x := h.holds.first

theorem Rep.size (h : Rep c q l) (hfit : c.Fits) (hs : Sized c q) : q.size c = some l.length := by
  obtain ⟨v, hv⟩ := Option.isSome_iff_exists.1 hs
  have hv' : v = l.length := by
    rw [h.push_eq] at hv
    exact Params.diffCounter_near hfit h.pop_lt h.holds.length_le hv
  simp [Queue.size, hv, hv']

/-- The first `k` elements go. -/
theorem Rep.drop (h : Rep c q l) (hfit : c.Fits) (hk : k ≤ l.length)
    (hring : Holds c.elementCount (q.popCount + k) ring (l.drop k)) :
    Rep c { q with ringBuffer := ring, popCount := c.stepCounter q.popCount k } (l.drop k) := by
  have hlen := h.holds.length_le
  have hperiod := c.period_bounds
  have hpop := Params.stepCounter_eq hfit h.pop_lt (hk.trans hlen)
  obtain ⟨p, hp, hlag⟩ := h.lag
  refine ⟨?_, ?_, ?_, h.pushShadow_lt, ⟨p + k, ?_, ?_⟩, h.popShadow_lt⟩
  · rw [hpop]
    exact Nat.mod_lt _ (by omega)
  · rw [hpop, Nat.mod_add_mod, List.length_drop, Nat.add_assoc, Nat.add_sub_cancel' hk]
    exact h.push_eq
  · apply hring.congr
    rw [hpop, Nat.mod_mod_of_dvd _ c.elementCount_dvd_period]
  · rw [List.length_drop]
    omega
  · rw [hpop, hlag, Nat.mod_add_mod, Nat.add_assoc]

/-- A ring that drains still does after some elements are gone. -/
theorem Drains.drop (hs : Drains c q) (h : Rep c q l) (hfit : c.Fits) (hk : k ≤ l.length) :
    Drains c { q with ringBuffer := ring, popCount := c.stepCounter q.popCount k } := by
  have hlen := h.holds.length_le
  have hsize : (c.diffCounter q.pushCount q.popCount).isSome = true := hs.sized
  have hsettled : (c.diffCounter q.popShadow ((q.popCount + l.length) % c.period)).isSome = true := by
    obtain ⟨d, hd, -⟩ := hs.drained
    rw [← h.push_eq]
    exact Option.isSome_iff_exists.2 ⟨d, hd⟩
  have hself : (c.diffCounter q.pushCount ((q.popCount + l.length) % c.period)).isSome = true := by
    rw [← h.push_eq, Params.diffCounter_self h.push_lt]
    rfl
  rw [h.push_eq] at hsize
  refine ⟨?_, ?_, hs.drained⟩
  · rw [Params.stepCounter_eq hfit h.pop_lt (hk.trans hlen)]
    exact Params.diffCounter_between hfit h.push_lt h.pop_lt hlen hk hsize hs.sized hself
  · rw [Params.stepCounter_eq hfit h.pop_lt (hk.trans hlen)]
    exact Params.diffCounter_between hfit h.popShadow_lt h.pop_lt hlen hk hsize hs.shadow hsettled

theorem Rep.pop (h : Rep c q (x :: l)) (hfit : c.Fits) :
    ∃ q', q.pop c = some q' ∧ Rep c q' l ∧ (Drains c q → Drains c q') := by
  obtain ⟨ring, hring, hholds⟩ := h.holds.destroy
  refine ⟨{ q with ringBuffer := ring, popCount := c.stepCounter q.popCount 1 }, ?_,
    h.drop hfit (Nat.succ_le_succ (Nat.zero_le _)) hholds, fun hs => hs.drop h hfit (Nat.succ_le_succ (Nat.zero_le _))⟩
  simp [Queue.pop, hring]

/-- `pop(n)` goes to the end of the ring, then on from its start. -/
theorem Rep.popN (h : Rep c q l) (hfit : c.Fits) (hs : Sized c q) (n : Nat) :
    ∃ q', q.popN c n = some (n - l.length, q') ∧ Rep c q' (l.drop n) ∧ (Drains c q → Drains c q') := by
  have hpos : 0 < c.elementCount := c.pos
  have hlen := h.holds.length_le
  have hr : q.popCount % c.elementCount < c.elementCount := Nat.mod_lt _ hpos
  obtain ⟨m, hm⟩ : ∃ m, m = min n l.length := ⟨_, rfl⟩
  obtain ⟨k, hk⟩ : ∃ k, k = min m (c.elementCount - q.popCount % c.elementCount) := ⟨_, rfl⟩
  obtain ⟨ring₁, hring₁, hholds₁⟩ := h.holds.destroyRun (k := k) (by omega) (by omega)
  have hrest : ∃ ring₂, destroyRun ring₁ (m - k) 0 = some ring₂ ∧
      Holds c.elementCount (q.popCount + m) ring₂ (l.drop m) := by
    rcases Nat.eq_or_lt_of_le (show k ≤ m by omega) with heq | hlt
    · rw [heq, Nat.sub_self]
      rw [heq] at hholds₁
      exact ⟨ring₁, rfl, hholds₁⟩
    · -- the first loop ended at the end of the ring
      have hround : (q.popCount + k) % c.elementCount = 0 := by
        rw [← Nat.mod_add_mod, show q.popCount % c.elementCount + k = c.elementCount by omega, Nat.mod_self]
      obtain ⟨ring₂, hring₂, hholds₂⟩ := hholds₁.destroyRun (k := m - k) (by rw [List.length_drop]; omega) (by omega)
      rw [hround] at hring₂
      rw [List.drop_drop, Nat.add_assoc, Nat.add_sub_cancel' hlt.le] at hholds₂
      exact ⟨ring₂, hring₂, hholds₂⟩
  obtain ⟨ring₂, hring₂, hholds₂⟩ := hrest
  refine ⟨{ q with ringBuffer := ring₂, popCount := c.stepCounter q.popCount m }, ?_, ?_,
    fun hs => hs.drop h hfit (by omega)⟩
  · have hleft : n - m = n - l.length := by omega
    simp only [Queue.popN, h.size hfit hs, Option.bind_eq_bind, Option.bind_some, ← hm, ← hk, hring₁, hring₂,
      Option.pure_def, hleft]
  · rw [← drop_min, ← hm]
    exact h.drop hfit (by omega) hholds₂

theorem popN_frame {n left m : Nat} {q' : Queue α} (hm : q.size c = some m) (h : q.popN c n = some (left, q')) :
    q'.popShadow = q.popShadow ∧ q'.popCount = c.stepCounter q.popCount (min n m) := by
  unfold Queue.popN at h
  obtain ⟨m', hm', h⟩ := Option.bind_eq_some_iff.1 h
  obtain rfl := Option.some.inj (hm.symm.trans hm')
  obtain ⟨ring₁, -, h⟩ := Option.bind_eq_some_iff.1 h
  obtain ⟨ring₂, -, h⟩ := Option.bind_eq_some_iff.1 h
  cases h
  exact ⟨rfl, rfl⟩

theorem Rep.refreshPushCached (h : Rep c q l) : Rep c q.refreshPushCached l :=
  ⟨h.pop_lt, h.push_eq, h.holds, h.pushShadow_lt, h.lag, h.push_lt⟩

theorem Drains.refreshPushCached (hs : Drains c q) (h : Rep c q l) : Drains c q.refreshPushCached :=
  ⟨hs.sized, hs.sized, 0, Params.diffCounter_self h.push_lt, le_refl _⟩

theorem Drains.settled (hs : Drains c q) : Settled c q := by
  obtain ⟨v, hv⟩ := Option.isSome_iff_exists.1 hs.shadow
  obtain ⟨d, hd, hd0⟩ := hs.drained
  refine ⟨v, hv, fun he => ?_⟩
  rw [← he, Option.mem_def, hv] at hd
  cases hd
  exact hd0

theorem Rep.empty (h : Rep c q l) (hfit : c.Fits) (hs : Settled c q) :
    ∃ q', q.empty c = some (l.isEmpty, q') ∧ Rep c q' l ∧ (Drains c q → Drains c q') := by
  obtain ⟨d, hd, hsettled⟩ := hs
  rw [h.push_eq_pop_iff hfit] at hsettled
  rw [Option.mem_def] at hd
  by_cases hle : d ≤ 0
  · refine ⟨q.refreshPushCached, ?_, h.refreshPushCached, fun hs => hs.refreshPushCached h⟩
    have hempty : (q.popCount == q.pushCount) = l.isEmpty := by
      rw [Bool.eq_iff_iff, beq_iff_eq, h.push_eq_pop_iff hfit, List.isEmpty_iff]
    simp [Queue.empty, maybeEmpty, hd, hle, Queue.refreshPushCached, hempty]
  · -- the shadow is ahead of `popCount`
    refine ⟨q, ?_, h, id⟩
    have hne : l ≠ [] := mt hsettled hle
    simp [Queue.empty, maybeEmpty, hd, hle, hne]

end Queue
end NgxLuaCpp.IrisQueue
