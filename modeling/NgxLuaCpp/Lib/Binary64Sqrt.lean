import Mathlib.Analysis.Real.Sqrt
import Mathlib.Tactic.Linarith
/-!
# Square roots as `double`s

A correctly rounded root is a double no other double is nearer to. Cut off to a
whole number it is the exact root cut off.
-/

namespace Binary64

/-- The finite doubles. -/
def IsDouble (x : ℚ) : Prop := ∃ m e : ℤ, |m| < 2 ^ 53 ∧ -1074 ≤ e ∧ e ≤ 971 ∧ x = m * 2 ^ e

/-- `s` is the square root of `x`, correctly rounded. -/
def IsSqrt (s x : ℚ) : Prop := IsDouble s ∧ ∀ d, IsDouble d → |(s : ℝ) - √x| ≤ |(d : ℝ) - √x|

theorem isDouble_natCast {n : Nat} (h : n < 2 ^ 53) : IsDouble n := by
  refine ⟨n, 0, ?_, by norm_num, by norm_num, by simp⟩
  rw [abs_of_nonneg (by positivity)]
  exact_mod_cast h

/-- A double between a root and the next whole number. -/
theorem exists_double_between {x r : Nat} (hx : x < 2 ^ 52) (hr : x < (r + 1) * (r + 1)) (hle : r * r ≤ x) :
    ∃ d : ℚ, IsDouble d ∧ √(x : ℝ) < d ∧ d < r + 1 := by
  have hr26 : r < 2 ^ 26 := by
    by_contra hge
    have := Nat.mul_le_mul (Nat.le_of_not_lt hge) (Nat.le_of_not_lt hge)
    omega
  refine ⟨r + 1 - 1 / 2 ^ 27, ⟨(r + 1) * 2 ^ 27 - 1, -27, ?_, by norm_num, by norm_num, ?_⟩, ?_, ?_⟩
  · rw [abs_of_nonneg (by nlinarith)]
    have : (r : ℤ) < 2 ^ 26 := by exact_mod_cast hr26
    linarith
  · push_cast
    field_simp
    norm_num
  · -- the squares differ by at least one
    have hsq : (x : ℝ) + 1 ≤ (r + 1) * (r + 1) := by exact_mod_cast hr
    have hbound : (r : ℝ) + 1 ≤ 2 ^ 26 := by exact_mod_cast hr26
    have hpos : (0 : ℝ) ≤ r := Nat.cast_nonneg r
    push_cast
    rw [Real.sqrt_lt' (by norm_num; linarith)]
    nlinarith
  · norm_num

/-- Rounded down, a nearest square root is the integer one. -/
theorem floor_isSqrt {x : Nat} {s : ℚ} (hx : x < 2 ^ 52) (hs : IsSqrt s x) : ⌊s⌋₊ = Nat.sqrt x := by
  obtain ⟨-, hnearest⟩ := hs
  simp only [Rat.cast_natCast] at hnearest
  have hlow : ((Nat.sqrt x : ℕ) : ℝ) ≤ √(x : ℝ) := Real.nat_sqrt_le_real_sqrt
  have hr : Nat.sqrt x < 2 ^ 53 := lt_of_le_of_lt (Nat.sqrt_le_self x) (by omega)
  -- the exact root cut off is a double, so `s` is not below it
  have hge : (Nat.sqrt x : ℝ) ≤ s := by
    have hnear := hnearest (Nat.sqrt x) (isDouble_natCast hr)
    rw [Rat.cast_natCast, abs_of_nonpos (sub_nonpos.2 hlow)] at hnear
    linarith [neg_le_abs ((s : ℝ) - √(x : ℝ))]
  -- and the next whole number is not the nearest double
  have hlt : (s : ℝ) < Nat.sqrt x + 1 := by
    obtain ⟨d, hd, hbelow, habove⟩ := exists_double_between hx (Nat.lt_succ_sqrt x) (Nat.sqrt_le x)
    have habove : (d : ℝ) < Nat.sqrt x + 1 := by exact_mod_cast habove
    have hnear := hnearest d hd
    rw [abs_of_pos (sub_pos.2 hbelow)] at hnear
    linarith [le_abs_self ((s : ℝ) - √(x : ℝ))]
  have hge : (Nat.sqrt x : ℚ) ≤ s := by exact_mod_cast hge
  have hlt : s < Nat.sqrt x + 1 := by exact_mod_cast hlt
  exact (Nat.floor_eq_iff (le_trans (Nat.cast_nonneg _) hge)).2 ⟨hge, hlt⟩

end Binary64
