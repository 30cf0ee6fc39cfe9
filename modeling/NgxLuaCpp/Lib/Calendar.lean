import Mathlib.Algebra.BigOperators.Group.List.Basic
import Mathlib.Algebra.Ring.Nat
import Mathlib.Tactic.IntervalCases
/-!
# The Gregorian calendar

Days are counted by the lengths of the years and months before them, from the
first of January of the year 0.
-/

namespace Calendar

/-! ## Years and months -/

def IsLeap (y : Nat) : Prop := y % 4 = 0 ∧ (y % 100 ≠ 0 ∨ y % 400 = 0)

instance decidableIsLeap (y : Nat) : Decidable (IsLeap y) := inferInstanceAs (Decidable (_ ∧ _))

def yearLength (y : Nat) : Nat := if IsLeap y then 366 else 365

def monthLength (y m : Nat) : Nat :=
  if m = 2 then if IsLeap y then 29 else 28
  else if m = 4 ∨ m = 6 ∨ m = 9 ∨ m = 11 then 30
  else 31

def daysBeforeYear (y : Nat) : Nat := ((List.range y).map yearLength).sum

/-- The days of `y` before its month `m`. -/
def daysBeforeMonth (y m : Nat) : Nat := ((List.range' 1 (m - 1)).map (monthLength y)).sum

theorem daysBeforeYear_succ (y : Nat) : daysBeforeYear (y + 1) = daysBeforeYear y + yearLength y := by
  rw [daysBeforeYear, List.range_succ, List.map_append, List.sum_append]
  simp [daysBeforeYear]

theorem daysBeforeMonth_succ (y : Nat) {m : Nat} (h : 1 ≤ m) :
    daysBeforeMonth y (m + 1) = daysBeforeMonth y m + monthLength y m := by
  obtain ⟨k, rfl⟩ : ∃ k, m = k + 1 := ⟨m - 1, by omega⟩
  rw [daysBeforeMonth, Nat.add_sub_cancel, List.range'_concat, List.map_append, List.sum_append]
  simp [daysBeforeMonth, Nat.add_comm]

theorem daysBeforeYear_mono {y z : Nat} (h : y ≤ z) : daysBeforeYear y ≤ daysBeforeYear z := by
  induction z, h using Nat.le_induction with
  | base => exact Nat.le_refl _
  | succ z _ ih => rw [daysBeforeYear_succ]; omega

theorem daysBeforeMonth_mono {y m n : Nat} (hm : 1 ≤ m) (h : m ≤ n) : daysBeforeMonth y m ≤ daysBeforeMonth y n := by
  induction n, h using Nat.le_induction with
  | base => exact Nat.le_refl _
  | succ n hle ih => rw [daysBeforeMonth_succ y (Nat.le_trans hm hle)]; omega

/-- Counting up from `y` passes a multiple of `n + 1` where `y` is one. -/
theorem ceilDiv_succ (y n : Nat) : (y + 1 + n) / (n + 1) = (y + n) / (n + 1) + if y % (n + 1) = 0 then 1 else 0 := by
  rw [Nat.add_right_comm, Nat.succ_div, Nat.add_assoc]
  simp only [Nat.dvd_iff_mod_eq_zero, Nat.add_mod_right]

/-- A leap year in four, but not the centuries, but the fourth ones. -/
theorem daysBeforeYear_eq (y : Nat) :
    daysBeforeYear y + (y + 99) / 100 = 365 * y + (y + 3) / 4 + (y + 399) / 400 := by
  induction y with
  | zero => rfl
  | succ y ih =>
    have h4 : (y + 1 + 3) / 4 = (y + 3) / 4 + _ := ceilDiv_succ y 3
    have h100 : (y + 1 + 99) / 100 = (y + 99) / 100 + _ := ceilDiv_succ y 99
    have h400 : (y + 1 + 399) / 400 = (y + 399) / 400 + _ := ceilDiv_succ y 399
    have hcentury : y % 100 = 0 → y % 4 = 0 := by omega
    have hfourth : y % 400 = 0 → y % 100 = 0 := by omega
    rw [daysBeforeYear_succ, yearLength, h4, h100, h400]
    unfold IsLeap
    split_ifs
    all_goals grind

/-- The days before a month, January and February apart. -/
theorem daysBeforeMonth_eq (y : Nat) {m : Nat} (h1 : 1 ≤ m) (h12 : m ≤ 13) :
    daysBeforeMonth y m =
      if m ≤ 2 then 31 * (m - 1) else (153 * (m - 3) + 2) / 5 + if IsLeap y then 60 else 59 := by
  have hsum (n : Nat) : daysBeforeMonth y (n + 1) = ((List.range' 1 n).map (monthLength y)).sum := rfl
  obtain ⟨k, rfl⟩ : ∃ k, m = k + 1 := ⟨m - 1, by omega⟩
  have hk : k ≤ 12 := by omega
  rw [hsum]
  by_cases hy : IsLeap y
  all_goals
    interval_cases k
    all_goals simp [List.range', monthLength, hy]

theorem daysBeforeMonth_thirteen (y : Nat) : daysBeforeMonth y 13 = yearLength y := by
  rw [daysBeforeMonth_eq y (by omega) (by omega), if_neg (by omega), yearLength]
  split_ifs <;> rfl

/-! ## Dates -/

structure Date where
  year : Nat
  month : Nat
  day : Nat
  one_le_month : 1 ≤ month
  month_le : month ≤ 12
  one_le_day : 1 ≤ day
  day_le : day ≤ monthLength year month

namespace Date

/-- The days before the date. -/
def number (d : Date) : Nat := daysBeforeYear d.year + daysBeforeMonth d.year d.month + (d.day - 1)

theorem monthLength_le (d : Date) : daysBeforeMonth d.year (d.month + 1) ≤ yearLength d.year := by
  rw [← daysBeforeMonth_thirteen]
  exact daysBeforeMonth_mono (by omega) (Nat.succ_le_succ d.month_le)

theorem day_le_31 (d : Date) : d.day ≤ 31 := by
  have := d.day_le
  unfold monthLength at this
  split_ifs at this <;> omega

theorem number_lt_of_year {d e : Date} (h : d.year < e.year) : d.number < e.number := by
  have hmonth := daysBeforeMonth_succ d.year d.one_le_month
  have hlen := d.monthLength_le
  have hnext := daysBeforeYear_mono (show d.year + 1 ≤ e.year from h)
  rw [daysBeforeYear_succ] at hnext
  have h1 := d.one_le_day
  have h2 := d.day_le
  unfold number
  omega

theorem number_lt_of_month {d e : Date} (hy : d.year = e.year) (h : d.month < e.month) : d.number < e.number := by
  have hmonth := daysBeforeMonth_succ d.year d.one_le_month
  have hnext : daysBeforeMonth d.year (d.month + 1) ≤ daysBeforeMonth d.year e.month :=
    daysBeforeMonth_mono (by omega) h
  have h1 := d.one_le_day
  have h2 := d.day_le
  unfold number
  rw [← hy]
  omega

theorem number_lt_of_day {d e : Date} (hy : d.year = e.year) (hm : d.month = e.month) (h : d.day < e.day) :
    d.number < e.number := by
  have h1 := d.one_le_day
  unfold number
  rw [← hy, ← hm]
  omega

/-- The first of January 1970. -/
def epoch : Date := ⟨1970, 1, 1, by decide, by decide, by decide, by decide⟩

theorem epoch_number : epoch.number = 719528 := by
  have := daysBeforeYear_eq 1970
  have hmonth : daysBeforeMonth 1970 1 = 0 := rfl
  unfold number epoch
  dsimp only
  omega

/-- The signed number of days from the epoch. -/
def daysSinceEpoch (d : Date) : Int := d.number - epoch.number

end Date

/-! ## All years -/

/-- The days from the epoch to the first of a month. The calendar repeats every 400
years, and before the year 0 it is the one that does so. -/
def firstOfMonth (year : Int) (month : Nat) : Int :=
  year / 400 * 146097 + daysBeforeYear (year % 400).toNat + daysBeforeMonth (year % 400).toNat month -
    Date.epoch.number

/-- The first of March that the month is in the 400 years from. -/
def cycleStart (year : Int) (month : Nat) : Int :=
  firstOfMonth (400 * ((if month ≤ 2 then year - 1 else year) / 400)) 3

/-- Years that start in March have their leap day at the end. -/
theorem firstOfMonth_eq (year : Int) {month : Nat} (h1 : 1 ≤ month) (h12 : month ≤ 12) :
    firstOfMonth year month =
      let y := if month ≤ 2 then year - 1 else year
      y * 365 + y / 4 - y / 100 + y / 400 + (if month ≤ 2 then 31 * (month - 1) + 306 else (153 * (month - 3) + 2) / 5) -
        719468 := by
  have hyear := daysBeforeYear_eq (year % 400).toNat
  have hmonth := daysBeforeMonth_eq (year % 400).toNat h1 (Nat.le_succ_of_le h12)
  have hpos : 0 ≤ year % 400 := by omega
  rw [firstOfMonth, Date.epoch_number, hmonth]
  clear hmonth
  generalize hy : (year % 400).toNat = y at hyear ⊢
  by_cases hm : month ≤ 2
  · simp only [hm, if_true]
    omega
  · by_cases hleap : IsLeap y
    all_goals
      simp only [hm, hleap, if_true, if_false]
      unfold IsLeap at hleap
      omega

theorem cycleStart_eq (year : Int) (month : Nat) :
    cycleStart year month = (if month ≤ 2 then year - 1 else year) / 400 * 146097 - 719468 := by
  rw [cycleStart, firstOfMonth_eq _ (by omega) (by omega)]
  simp only [show ¬3 ≤ 2 by omega, if_false]
  omega

theorem cycleStart_le (year : Int) {month : Nat} (h1 : 1 ≤ month) (h12 : month ≤ 12) :
    cycleStart year month ≤ firstOfMonth year month := by
  rw [cycleStart_eq, firstOfMonth_eq year h1 h12]
  dsimp only
  split_ifs <;> omega

theorem firstOfMonth_date (d : Date) : firstOfMonth d.year d.month + (d.day - 1) = d.daysSinceEpoch := by
  have hyear := daysBeforeYear_eq d.year
  have hmonth := daysBeforeMonth_eq d.year d.one_le_month (Nat.le_succ_of_le d.month_le)
  have h1 := d.one_le_day
  rw [firstOfMonth_eq _ d.one_le_month d.month_le, Date.daysSinceEpoch, Date.epoch_number, Date.number, hmonth]
  clear hmonth
  by_cases hm : d.month ≤ 2
  · simp only [hm, if_true]
    omega
  · by_cases hleap : IsLeap d.year
    all_goals
      simp only [hm, hleap, if_true, if_false]
      unfold IsLeap at hleap
      omega

/-! ## Moments -/

structure Moment extends Date where
  hour : Nat
  minute : Nat
  second : Nat
  hour_lt : hour < 24
  minute_lt : minute < 60
  second_lt : second < 60

namespace Moment

/-- Seconds since the epoch. -/
def seconds (m : Moment) : Int :=
  86400 * m.toDate.daysSinceEpoch + (m.hour * 3600 + m.minute * 60 + m.second : Nat)

/-- The fields, the longest unit first. -/
def fields (m : Moment) : List Nat := [m.year, m.month, m.day, m.hour, m.minute, m.second]

theorem seconds_lt_of_number {m n : Moment} (h : m.number < n.number) : m.seconds < n.seconds := by
  have h1 := m.hour_lt
  have h2 := m.minute_lt
  have h3 := m.second_lt
  unfold seconds Date.daysSinceEpoch
  omega

theorem seconds_lt {m n : Moment} (h : m.fields < n.fields) : m.seconds < n.seconds := by
  have h1 := m.minute_lt
  have h2 := m.second_lt
  have hdate (hy : m.year = n.year) (hmo : m.month = n.month) (hd : m.day = n.day) : m.number = n.number := by
    rw [Date.number, Date.number, hy, hmo, hd]
  unfold fields at h
  simp only [List.cons_lt_cons_iff, List.not_lt_nil, and_false, or_false] at h
  rcases h with hy | ⟨hy, hmo | ⟨hmo, hd | ⟨hd, ht⟩⟩⟩
  · exact seconds_lt_of_number (Date.number_lt_of_year hy)
  · exact seconds_lt_of_number (Date.number_lt_of_month hy hmo)
  · exact seconds_lt_of_number (Date.number_lt_of_day hy hmo hd)
  · -- the same day
    have := hdate hy hmo hd
    unfold seconds Date.daysSinceEpoch
    omega

end Moment

end Calendar
