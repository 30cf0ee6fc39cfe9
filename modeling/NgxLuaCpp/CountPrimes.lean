import NgxLuaCpp.Base
import Mathlib.Data.List.TakeWhile
import Mathlib.Data.Nat.Sqrt
/-!
# Counting primes

The segmented sieve of `run_job`: base primes up to the root of the limit, then
the limit in 40 chunks. A `vector<uint8_t>` of marks is a list.
-/

namespace NgxLuaCpp

/-- `for (k = start; k < hi; k += p) mark[k - lo] = 0` -/
def strike (mark : List Bool) (lo start hi p : Nat) : List Bool :=
  (List.range' start ((hi - start + (p - 1)) / p) p).foldl (fun mark k => mark.set (k - lo) false) mark

/-- The primes up to `root`. -/
def basePrimes (root : Nat) : List Nat :=
  let base := ((List.replicate (root + 1) true).set 0 false).set 1 false
  let small := (List.range' 2 root).takeWhile fun i => i * i ≤ root
  let base := small.foldl (fun base i => if base.getD i false then strike base 0 (i * i) (root + 1) i else base) base
  (List.range' 2 (root - 1)).filter fun i => base.getD i false

/-- What is left marked from `lo` to `hi`. -/
def sieved (primes : List Nat) (lo hi : Nat) : Nat :=
  let mark := List.replicate (hi - lo) true
  (primes.foldl (fun mark p => strike mark lo (max (p * p) ((lo + p - 1) / p * p)) hi p) mark).count true

/-- How many segments there are. -/
def chunks : Nat := 40

/-- `lo` and `hi` of the chunk `c`. -/
def segment (limit c : Nat) : Nat × Nat :=
  let segSize := max (limit / chunks) 1
  let lo := max (c * segSize) 2
  (lo, min (lo + segSize) limit)

/-- The chunks before the loop breaks at an empty one. -/
def segments (limit : Nat) : List (Nat × Nat) :=
  ((List.range chunks).map (segment limit)).takeWhile fun s => s.1 < s.2

/-- `count` after the loop. The root of a limit this small is not rounded past
a whole number. -/
def countPrimes (limit : Nat) : Nat :=
  let primes := basePrimes (Nat.sqrt limit + 1)
  ((segments limit).map fun s => sieved primes s.1 s.2).sum

/-- No chunk of a clamped limit is empty. -/
theorem segment_lt {limit c : Nat} (h : 1000 ≤ limit) (hc : c < chunks) :
    (segment limit c).1 < (segment limit c).2 := by
  have hc : c ≤ 39 := Nat.lt_succ_iff.1 hc
  have hmul : c * (limit / 40) ≤ 39 * (limit / 40) := Nat.mul_le_mul_right _ hc
  have hseg : 39 * (limit / 40) < limit := by omega
  unfold segment chunks
  simp only [max_eq_left (show 1 ≤ limit / 40 by omega)]
  omega

theorem length_segments {limit : Nat} (h : 1000 ≤ limit) : (segments limit).length = chunks := by
  have hall : ∀ s ∈ (List.range chunks).map (segment limit), decide (s.1 < s.2) = true := by
    intro s hs
    obtain ⟨c, hc, rfl⟩ := List.mem_map.1 hs
    exact decide_eq_true (segment_lt h (List.mem_range.1 hc))
  rw [segments, List.takeWhile_eq_self_iff.2 hall, List.length_map, List.length_range]

example : countPrimes 1000 = 168 := by decide +kernel

end NgxLuaCpp
