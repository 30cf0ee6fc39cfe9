import Mathlib.Data.List.GetD
import Mathlib.Data.Nat.Prime.Basic
/-!
# Sieves

Marks are a list of booleans. A pass strikes the multiples of one prime, and a
number no prime up to its root strikes is prime.
-/

namespace Sieve

/-- `p` strikes its multiples from its square on. -/
def Strikes (p n : Nat) : Prop := p * p ≤ n ∧ p ∣ n

theorem not_strikes_of_prime {p n : Nat} (hp : p.Prime) (hn : n.Prime) : ¬ Strikes p n := by
  rintro ⟨hsq, hdvd⟩
  obtain rfl := (Nat.prime_dvd_prime_iff_eq hp hn).1 hdvd
  have := Nat.mul_le_mul_left p hp.two_le
  have := hp.two_le
  omega

theorem exists_strikes {n : Nat} (h2 : 2 ≤ n) (h : ¬ n.Prime) : ∃ p, p.Prime ∧ Strikes p n := by
  refine ⟨n.minFac, Nat.minFac_prime (by omega), ?_, Nat.minFac_dvd n⟩
  rw [← pow_two]
  exact Nat.minFac_sq_le_self (by omega) h

/-- The primes up to the root are enough. -/
theorem prime_iff {n r : Nat} (h2 : 2 ≤ n) (hr : n < (r + 1) * (r + 1)) :
    n.Prime ↔ ∀ p, p.Prime → p ≤ r → ¬ Strikes p n := by
  constructor
  · intro hn p hp _
    exact not_strikes_of_prime hp hn
  · intro h
    by_contra hn
    obtain ⟨p, hp, hs⟩ := exists_strikes h2 hn
    refine h p hp ?_ hs
    by_contra hge
    have hmul := Nat.mul_le_mul (show r + 1 ≤ p by omega) (show r + 1 ≤ p by omega)
    have := hs.1
    omega

/-! ## Loops over multiples -/

/-- The `k` of `for (k = start; k < hi; k += p)`. -/
theorem mem_stepped {p start hi k : Nat} (hp : 0 < p) (hstart : p ∣ start) :
    k ∈ List.range' start ((hi - start + (p - 1)) / p) p ↔ start ≤ k ∧ k < hi ∧ p ∣ k := by
  have hbound (i : Nat) : i < (hi - start + (p - 1)) / p ↔ start + p * i < hi := by
    rw [← Nat.succ_le_iff, Nat.le_div_iff_mul_le hp, Nat.succ_mul, Nat.mul_comm i p]
    omega
  rw [List.mem_range']
  constructor
  · rintro ⟨i, hi, rfl⟩
    exact ⟨Nat.le_add_right _ _, (hbound i).1 hi, Nat.dvd_add hstart (Nat.dvd_mul_right p i)⟩
  · rintro ⟨hle, hlt, hk⟩
    obtain ⟨i, hi⟩ : p ∣ k - start := Nat.dvd_sub hk hstart
    refine ⟨i, (hbound i).2 ?_, ?_⟩
    all_goals omega

/-- The first multiple from `lo` on is at or below every other. -/
theorem roundUp_le {p lo k : Nat} (hp : 0 < p) (hk : p ∣ k) : (lo + p - 1) / p * p ≤ k ↔ lo ≤ k := by
  obtain ⟨i, rfl⟩ := hk
  rw [Nat.mul_comm, Nat.mul_le_mul_left_iff hp, ← Nat.lt_succ_iff, Nat.div_lt_iff_lt_mul hp, Nat.succ_mul,
    Nat.mul_comm i p]
  omega

theorem getD_set (mark : List Bool) (i j : Nat) :
    (mark.set i false).getD j false = true ↔ mark.getD j false = true ∧ i ≠ j := by
  rw [List.getD_eq_getElem?_getD, List.getD_eq_getElem?_getD, List.getElem?_set]
  by_cases h : i = j
  · subst h
    by_cases hlt : i < mark.length <;> simp [hlt]
  · simp [h]

/-- A mark is left when no write hits it. -/
theorem getD_foldl_set (ks : List Nat) (mark : List Bool) (lo j : Nat) :
    (ks.foldl (fun mark k => mark.set (k - lo) false) mark).getD j false = true ↔
      mark.getD j false = true ∧ ∀ k ∈ ks, k - lo ≠ j := by
  induction ks generalizing mark with
  | nil => simp
  | cons k ks ih => rw [List.foldl_cons, ih, getD_set, List.forall_mem_cons, and_assoc]

/-- The part of a range a loop that stops at the first failing test goes through. -/
theorem takeWhile_range' (q : Nat → Bool) (s n : Nat) :
    ∃ m ≤ n, (List.range' s n).takeWhile q = List.range' s m ∧ (∀ i < m, q (s + i) = true) ∧
      (m < n → q (s + m) = false) := by
  induction n generalizing s with
  | zero => exact ⟨0, le_refl 0, rfl, by simp, by simp⟩
  | succ n ih =>
    rw [List.range'_succ, List.takeWhile_cons]
    cases hq : q s with
    | false => exact ⟨0, Nat.zero_le _, rfl, by simp, fun _ => hq⟩
    | true =>
      obtain ⟨m, hm, heq, hall, hstop⟩ := ih (s + 1)
      refine ⟨m + 1, by omega, by simp [heq, List.range'_succ], ?_, ?_⟩
      · intro i hi
        rcases i with _ | i
        · exact hq
        · have := hall i (by omega)
          rwa [Nat.add_right_comm] at this
      · intro hlt
        have := hstop (by omega)
        rwa [Nat.add_right_comm] at this

end Sieve
