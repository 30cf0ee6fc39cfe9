import Mathlib.Algebra.Order.Round
import Mathlib.Data.Int.Log
import Mathlib.Data.Rat.Floor
import Mathlib.Tactic.Linarith
/-!
# Rounding to `double`

A finite `double` is its value. An operation whose exact result is in the
normal range returns it rounded to 53 bits, ties to even.
-/

namespace Binary64

/-- The nearest whole number, the even one of two. -/
def roundEven (x : ℚ) : ℤ :=
  if Int.fract x < 1 / 2 then ⌊x⌋ else if 1 / 2 < Int.fract x then ⌊x⌋ + 1 else ⌊x⌋ + ⌊x⌋ % 2

/-- The last of the 53 bits of `x`. -/
def ulp (x : ℚ) : ℚ := 2 ^ (Int.log 2 |x| - 52)

def round (x : ℚ) : ℚ := roundEven (x / ulp x) * ulp x

/-! ## Whole numbers -/

theorem roundEven_intCast (n : ℤ) : roundEven n = n := by
  rw [roundEven, Int.fract_intCast, if_pos (by norm_num), Int.floor_intCast]

theorem floor_le_roundEven (x : ℚ) : ⌊x⌋ ≤ roundEven x := by
  unfold roundEven
  split_ifs <;> omega

theorem roundEven_le_floor (x : ℚ) : roundEven x ≤ ⌊x⌋ + 1 := by
  unfold roundEven
  split_ifs <;> omega

theorem roundEven_mono {x y : ℚ} (h : x ≤ y) : roundEven x ≤ roundEven y := by
  rcases (Int.floor_mono h).lt_or_eq with hlt | heq
  · calc roundEven x ≤ ⌊x⌋ + 1 := roundEven_le_floor x
      _ ≤ ⌊y⌋ := hlt
      _ ≤ roundEven y := floor_le_roundEven y
  · have hfract : Int.fract x ≤ Int.fract y := by
      rw [Int.fract, Int.fract, heq]
      exact sub_le_sub_right h _
    unfold roundEven
    rw [heq]
    split_ifs
    all_goals first | omega | linarith

/-! ## 53 bits -/

theorem ulp_pos (x : ℚ) : 0 < ulp x := zpow_pos (by norm_num) _

theorem zpow_mul_ulp {x : ℚ} (hx : 0 < x) (k : ℕ) : (2 : ℚ) ^ k * ulp x = 2 ^ (Int.log 2 x + (k - 52)) := by
  rw [ulp, abs_of_pos hx, ← zpow_natCast, ← zpow_add₀ (by norm_num)]
  congr 1
  ring

/-- In units of its last bit a number has 53 bits. -/
theorem scaled_bounds {x : ℚ} (hx : 0 < x) : (2 : ℚ) ^ 52 ≤ x / ulp x ∧ x / ulp x ≤ 2 ^ 53 := by
  have hlow := Int.zpow_log_le_self (b := 2) (by norm_num) hx
  have hhigh := Int.lt_zpow_succ_log_self (b := 2) (by norm_num) x
  constructor
  · rw [le_div_iff₀ (ulp_pos x), zpow_mul_ulp hx]
    simpa using hlow
  · rw [div_le_iff₀ (ulp_pos x), zpow_mul_ulp hx]
    norm_num
    exact_mod_cast hhigh.le

theorem le_round {x : ℚ} (hx : 0 < x) : (2 : ℚ) ^ Int.log 2 x ≤ round x := by
  have hexact := roundEven_intCast (2 ^ 52)
  have hmono := roundEven_mono (x := ((2 ^ 52 : ℤ) : ℚ)) (by exact_mod_cast (scaled_bounds hx).1)
  rw [hexact] at hmono
  calc (2 : ℚ) ^ Int.log 2 x = 2 ^ 52 * ulp x := by rw [zpow_mul_ulp hx]; simp
    _ ≤ roundEven (x / ulp x) * ulp x := by
      apply mul_le_mul_of_nonneg_right _ (ulp_pos x).le
      exact_mod_cast hmono

theorem round_le {x : ℚ} (hx : 0 < x) : round x ≤ 2 ^ (Int.log 2 x + 1) := by
  have hexact := roundEven_intCast (2 ^ 53)
  have hmono := roundEven_mono (y := ((2 ^ 53 : ℤ) : ℚ)) (by exact_mod_cast (scaled_bounds hx).2)
  rw [hexact] at hmono
  calc round x = roundEven (x / ulp x) * ulp x := rfl
    _ ≤ 2 ^ 53 * ulp x := by
      apply mul_le_mul_of_nonneg_right _ (ulp_pos x).le
      exact_mod_cast hmono
    _ = 2 ^ (Int.log 2 x + 1) := by rw [zpow_mul_ulp hx]; norm_num

theorem round_mono {x y : ℚ} (hx : 0 < x) (h : x ≤ y) : round x ≤ round y := by
  have hy : 0 < y := hx.trans_le h
  rcases (Int.log_mono_right (b := 2) hx h).lt_or_eq with hlt | heq
  · -- a power of two lies between them
    calc round x ≤ 2 ^ (Int.log 2 x + 1) := round_le hx
      _ ≤ 2 ^ Int.log 2 y := zpow_le_zpow_right₀ (by norm_num) hlt
      _ ≤ round y := le_round hy
  · have hulp : ulp x = ulp y := by rw [ulp, ulp, abs_of_pos hx, abs_of_pos hy, heq]
    have hmono := roundEven_mono ((div_le_div_iff_of_pos_right (ulp_pos y)).2 h)
    rw [round, round, hulp]
    apply mul_le_mul_of_nonneg_right _ (ulp_pos y).le
    exact_mod_cast hmono

theorem round_nonneg {x : ℚ} (hx : 0 < x) : 0 ≤ round x := (zpow_pos (by norm_num) _).le.trans (le_round hx)

theorem round_one : round 1 = 1 := by
  have hexact : roundEven (2 ^ 52) = (2 ^ 52 : ℤ) := by
    rw [← roundEven_intCast (2 ^ 52)]
    norm_num
  have hulp : ulp 1 = 1 / 2 ^ 52 := by
    rw [ulp, abs_one, Int.log_one_right]
    norm_num
  rw [round, hulp, one_div_one_div, hexact]
  norm_num

end Binary64
