import NgxLuaCpp.RunJob
import NgxLuaCpp.Lib.Binary64Sqrt
import NgxLuaCpp.Lib.Sieve
import Mathlib.NumberTheory.PrimeCounting
import Mathlib.Tactic.NormNum.Prime
/-!
# What the sieve marks

The base sieve holds the primes up to the root of the limit, and a segment's
marks are left at its primes.
-/

namespace NgxLuaCpp

open Sieve (Strikes)

/-! ## Loops that strike -/

theorem getD_strike {mark : List Bool} {lo start hi p j : Nat} (hp : 0 < p) (hstart : p ∣ start) (hlo : lo ≤ start) :
    (strike mark lo start hi p).getD j false = true ↔
      mark.getD j false = true ∧ ¬ (start ≤ lo + j ∧ lo + j < hi ∧ p ∣ lo + j) := by
  rw [strike, Sieve.getD_foldl_set]
  refine and_congr_right fun _ => ?_
  constructor
  · intro h hk
    exact h (lo + j) ((Sieve.mem_stepped hp hstart).2 hk) (by omega)
  · intro h k hk heq
    obtain ⟨hle, hlt, hdvd⟩ := (Sieve.mem_stepped hp hstart).1 hk
    obtain rfl : k = lo + j := by omega
    exact h ⟨hle, hlt, hdvd⟩

theorem length_strike (mark : List Bool) (lo start hi p : Nat) : (strike mark lo start hi p).length = mark.length := by
  rw [strike]
  generalize List.range' start _ p = ks
  induction ks generalizing mark with
  | nil => rfl
  | cons k ks ih => rw [List.foldl_cons, ih, List.length_set]

/-! ## Base primes -/

/-- The marks before the first pass. -/
def baseStart (root : Nat) : List Bool := ((List.replicate (root + 1) true).set 0 false).set 1 false

/-- One pass of the base sieve. -/
def basePass (root : Nat) (base : List Bool) (i : Nat) : List Bool :=
  if base.getD i false then strike base 0 (i * i) (root + 1) i else base

/-- After the passes below `d`. -/
def BaseInv (root d : Nat) (base : List Bool) : Prop :=
  ∀ j, base.getD j false = true ↔ 2 ≤ j ∧ j ≤ root ∧ ∀ p, p.Prime → p < d → ¬ Strikes p j

theorem baseInv_start (root : Nat) : BaseInv root 2 (baseStart root) := by
  intro j
  rw [baseStart, Sieve.getD_set, Sieve.getD_set]
  constructor
  · rintro ⟨⟨hj, h0⟩, h1⟩
    have hlt : j < root + 1 := by
      by_contra hge
      rw [List.getD_eq_default _ _ (by simpa using hge)] at hj
      cases hj
    refine ⟨by omega, by omega, ?_⟩
    intro p hp hlt
    exact absurd hp.two_le (by omega)
  · rintro ⟨h2, hle, -⟩
    refine ⟨⟨?_, by omega⟩, by omega⟩
    rw [List.getD_eq_getElem _ _ (by simp; omega), List.getElem_replicate]

/-- A mark at its own turn is a prime. -/
theorem BaseInv.getD_self {root d : Nat} {base : List Bool} (h : BaseInv root d base) (h2 : 2 ≤ d) (hle : d ≤ root) :
    base.getD d false = true ↔ d.Prime := by
  rw [h d]
  constructor
  · rintro ⟨-, -, hnone⟩
    by_contra hd
    obtain ⟨p, hp, hs⟩ := Sieve.exists_strikes h2 hd
    refine hnone p hp ?_ hs
    have := Nat.mul_le_mul_left p hp.two_le
    have := hs.1
    omega
  · intro hd
    exact ⟨h2, hle, fun p hp _ => Sieve.not_strikes_of_prime hp hd⟩

/-- A pass of the base sieve strikes the multiples of one more number. -/
theorem baseInv_pass {root d : Nat} {base : List Bool} (h : BaseInv root d base) (h2 : 2 ≤ d) (hle : d ≤ root) :
    BaseInv root (d + 1) (basePass root base d) := by
  have hself := h.getD_self h2 hle
  -- a composite `d` adds no prime to the condition
  have hsucc (j : Nat) : (∀ p, p.Prime → p < d + 1 → ¬ Strikes p j) ↔
      (∀ p, p.Prime → p < d → ¬ Strikes p j) ∧ (d.Prime → ¬ Strikes d j) := by
    constructor
    · intro hall
      exact ⟨fun p hp hlt => hall p hp (by omega), fun hd => hall d hd (by omega)⟩
    · rintro ⟨hbelow, hd⟩ p hp hlt
      rcases Nat.lt_or_eq_of_le (Nat.le_of_lt_succ hlt) with hlt | rfl
      · exact hbelow p hp hlt
      · exact hd hp
  intro j
  rw [basePass, hsucc]
  split
  · next hbit =>
    have hd := hself.1 hbit
    rw [getD_strike (by omega) (Nat.dvd_mul_left d d) (Nat.zero_le _), h j, Nat.zero_add, Strikes]
    constructor
    · rintro ⟨⟨hj, hjr, hall⟩, hnot⟩
      exact ⟨hj, hjr, hall, fun _ hs => hnot ⟨hs.1, by omega, hs.2⟩⟩
    · rintro ⟨hj, hjr, hall, hd'⟩
      exact ⟨⟨hj, hjr, hall⟩, fun hs => hd' hd ⟨hs.1, hs.2.2⟩⟩
  · next hbit =>
    have hd : ¬ d.Prime := fun hd => hbit (hself.2 hd)
    rw [h j]
    simp [hd]

theorem baseInv_passes {root m : Nat} (hm : m ≤ root - 1) :
    BaseInv root (2 + m) ((List.range' 2 m).foldl (basePass root) (baseStart root)) := by
  induction m with
  | zero => exact baseInv_start root
  | succ m ih =>
    have hpass := baseInv_pass (ih (by omega)) (by omega) (by omega)
    rw [List.range'_concat, List.foldl_append, Nat.one_mul, ← Nat.add_assoc]
    exact hpass

/-- The base sieve keeps the primes. -/
theorem mem_basePrimes {root p : Nat} : p ∈ basePrimes root ↔ p.Prime ∧ p ≤ root := by
  obtain ⟨m, -, hsmall, hall, hstop⟩ := Sieve.takeWhile_range' (fun i => decide (i * i ≤ root)) 2 root
  have hm : m ≤ root - 1 := by
    rcases m with _ | m
    · omega
    · have hsq := of_decide_eq_true (hall m (by omega))
      have := Nat.mul_le_mul_left (2 + m) (show 2 ≤ 2 + m by omega)
      omega
  have hroot : root < (2 + m) * (2 + m) := by
    rcases Nat.lt_or_ge m root with hlt | hge
    · simpa using hstop hlt
    · have := Nat.le_mul_self (2 + m)
      omega
  have hinv := baseInv_passes hm
  -- the loop stops where its squares pass `root`
  have hprime {j : Nat} (h2 : 2 ≤ j) (hj : j ≤ root) :
      ((List.range' 2 m).foldl (basePass root) (baseStart root)).getD j false = true ↔ j.Prime := by
    rw [hinv j, Sieve.prime_iff (r := 1 + m) h2 (by rw [show 1 + m + 1 = 2 + m by omega]; omega)]
    constructor
    · rintro ⟨-, -, hnone⟩ q hq hle
      exact hnone q hq (by omega)
    · intro hnone
      exact ⟨h2, hj, fun q hq hlt => hnone q hq (by omega)⟩
  change p ∈ (List.range' 2 (root - 1)).filter (fun i =>
    (((List.range' 2 root).takeWhile fun i => decide (i * i ≤ root)).foldl (basePass root) (baseStart root)).getD i false)
    ↔ _
  rw [hsmall, List.mem_filter, List.mem_range'_1]
  constructor
  · rintro ⟨⟨h2, hlt⟩, hbit⟩
    exact ⟨(hprime h2 (by omega)).1 hbit, by omega⟩
  · rintro ⟨hp, hle⟩
    exact ⟨⟨hp.two_le, by have := hp.two_le; omega⟩, (hprime hp.two_le hle).2 hp⟩

theorem basePrimes_sorted (root : Nat) : (basePrimes root).Pairwise (· < ·) :=
  List.Pairwise.filter _ (List.pairwise_lt_range' ..)

/-! ## Segments -/

/-- The first multiple of `p` a segment strikes. -/
def segmentStart (lo p : Nat) : Nat := max (p * p) ((lo + p - 1) / p * p)

/-- The `k` whose marks `p` strikes in a segment. -/
def struck (lo hi p : Nat) : List Nat :=
  List.range' (segmentStart lo p) ((hi - segmentStart lo p + (p - 1)) / p) p

/-- `mark` after the loop over the base primes. -/
def segmentMarks (primes : List Nat) (lo hi : Nat) : List Bool :=
  primes.foldl (fun mark p => strike mark lo (segmentStart lo p) hi p) (List.replicate (hi - lo) true)

theorem sieved_eq (primes : List Nat) (lo hi : Nat) :
    sieved primes lo hi = (segmentMarks primes lo hi).count true := rfl

theorem dvd_segmentStart (lo p : Nat) : p ∣ segmentStart lo p := by
  unfold segmentStart
  rcases max_choice (p * p) ((lo + p - 1) / p * p) with h | h
  all_goals
    rw [h]
    exact Nat.dvd_mul_left p _

theorem segmentStart_le {lo p k : Nat} (hp : 0 < p) (hk : p ∣ k) : segmentStart lo p ≤ k ↔ p * p ≤ k ∧ lo ≤ k := by
  rw [segmentStart, max_le_iff, Sieve.roundUp_le hp hk]

theorem le_segmentStart {lo p : Nat} (hp : 0 < p) : lo ≤ segmentStart lo p :=
  ((segmentStart_le hp (dvd_segmentStart lo p)).1 (le_refl _)).2

/-- Every write of a segment's loop hits one of its numbers. -/
theorem mem_struck {lo hi p k : Nat} (hp : 0 < p) : k ∈ struck lo hi p ↔ lo ≤ k ∧ k < hi ∧ Strikes p k := by
  rw [struck, Sieve.mem_stepped hp (dvd_segmentStart lo p)]
  constructor
  · rintro ⟨hle, hlt, hdvd⟩
    obtain ⟨hsq, hlo⟩ := (segmentStart_le hp hdvd).1 hle
    exact ⟨hlo, hlt, hsq, hdvd⟩
  · rintro ⟨hlo, hlt, hsq, hdvd⟩
    exact ⟨(segmentStart_le hp hdvd).2 ⟨hsq, hlo⟩, hlt, hdvd⟩

theorem length_segmentMarks (primes : List Nat) (lo hi : Nat) : (segmentMarks primes lo hi).length = hi - lo := by
  unfold segmentMarks
  generalize hm : List.replicate (hi - lo) true = mark
  have hlen : mark.length = hi - lo := by rw [← hm, List.length_replicate]
  clear hm
  induction primes generalizing mark with
  | nil => exact hlen
  | cons p primes ih => exact ih _ (by rw [length_strike, hlen])

/-- In a segment, a number is marked unless a prime strikes it. -/
theorem getD_segmentMarks {primes : List Nat} (hpos : ∀ p ∈ primes, 0 < p) {lo hi j : Nat} (hj : j < hi - lo) :
    (segmentMarks primes lo hi).getD j false = true ↔ ∀ p ∈ primes, ¬ Strikes p (lo + j) := by
  have hall (mark : List Bool) : (primes.foldl (fun mark p => strike mark lo (segmentStart lo p) hi p) mark).getD j false
      = true ↔ mark.getD j false = true ∧ ∀ p ∈ primes, ¬ Strikes p (lo + j) := by
    induction primes generalizing mark with
    | nil => simp
    | cons p primes ih =>
      have hp := hpos p (by simp)
      rw [List.foldl_cons, ih (fun q hq => hpos q (by simp [hq])), List.forall_mem_cons, ← and_assoc,
        getD_strike hp (dvd_segmentStart lo p) (le_segmentStart hp)]
      refine and_congr_left fun _ => and_congr_right fun _ => not_congr ?_
      constructor
      · rintro ⟨hle, hlt, hdvd⟩
        exact ⟨((segmentStart_le hp hdvd).1 hle).1, hdvd⟩
      · rintro ⟨hsq, hdvd⟩
        exact ⟨(segmentStart_le hp hdvd).2 ⟨hsq, by omega⟩, by omega, hdvd⟩
  rw [segmentMarks, hall, List.getD_eq_getElem _ _ (by simpa using hj), List.getElem_replicate]
  simp

/-- What is left marked is prime, when the base primes go past the root. -/
theorem getD_segmentMarks_prime {limit lo hi j : Nat} (hlo : 2 ≤ lo) (hhi : hi ≤ limit) (hj : j < hi - lo) :
    (segmentMarks (basePrimes (Nat.sqrt limit + 1)) lo hi).getD j false = true ↔ (lo + j).Prime := by
  have hpos : ∀ p ∈ basePrimes (Nat.sqrt limit + 1), 0 < p := fun p hp => (mem_basePrimes.1 hp).1.pos
  have hroot : lo + j < (Nat.sqrt limit + 1 + 1) * (Nat.sqrt limit + 1 + 1) := by
    have hsqrt := Nat.lt_succ_sqrt limit
    have hmul := Nat.mul_le_mul (Nat.le_succ (Nat.sqrt limit + 1)) (Nat.le_succ (Nat.sqrt limit + 1))
    simp only [Nat.succ_eq_add_one] at hsqrt hmul
    omega
  rw [getD_segmentMarks hpos hj, Sieve.prime_iff (by omega) hroot]
  simp only [mem_basePrimes, and_imp]

/-- The sieve of every limit and every segment of it. `s` is what `std::sqrt` returns. -/
theorem segment_sieve_exact {limit : Nat} (hlimit : 1000 ≤ limit ∧ limit ≤ 200000000) {s : ℚ}
    (hs : Binary64.IsSqrt s limit) {lo hi : Nat} (hlo : 2 ≤ lo) (hlt : lo < hi) (hhi : hi ≤ limit) :
    ((basePrimes (⌊s⌋₊ + 1)).Pairwise (· < ·) ∧ ∀ p, p ∈ basePrimes (⌊s⌋₊ + 1) ↔ p.Prime ∧ p ≤ ⌊s⌋₊ + 1) ∧
      (∀ p ∈ basePrimes (⌊s⌋₊ + 1), ∀ k ∈ struck lo hi p,
        lo ≤ k ∧ k - lo < (segmentMarks (basePrimes (⌊s⌋₊ + 1)) lo hi).length) ∧
      (segmentMarks (basePrimes (⌊s⌋₊ + 1)) lo hi).length = hi - lo ∧
      ∀ j < hi - lo, (segmentMarks (basePrimes (⌊s⌋₊ + 1)) lo hi).getD j false = true ↔ (lo + j).Prime := by
  rw [Binary64.floor_isSqrt (by omega) hs, length_segmentMarks]
  refine ⟨⟨basePrimes_sorted _, fun p => mem_basePrimes⟩, ?_, rfl, ?_⟩
  · intro p hp k hk
    obtain ⟨hle, hk, -⟩ := (mem_struck (mem_basePrimes.1 hp).1.pos).1 hk
    exact ⟨hle, by omega⟩
  · intro j hj
    exact getD_segmentMarks_prime hlo hhi hj

theorem segment_sieve_exact_1024 : (segmentMarks (basePrimes (⌊(32 : ℚ)⌋₊ + 1)) 2 1024).length = 1024 - 2 ∧
    ∀ j < 1024 - 2, (segmentMarks (basePrimes (⌊(32 : ℚ)⌋₊ + 1)) 2 1024).getD j false = true ↔ (2 + j).Prime := by
  have hsqrt : √((1024 : ℚ) : ℝ) = 32 := by
    rw [Real.sqrt_eq_iff_mul_self_eq (by norm_num) (by norm_num)]
    norm_num
  have hs : Binary64.IsSqrt 32 (1024 : ℕ) := by
    refine ⟨Binary64.isDouble_natCast (n := 32) (by norm_num), ?_⟩
    intro d _
    rw [Nat.cast_ofNat, hsqrt]
    simp
  exact (segment_sieve_exact (by omega) hs (by omega) (by omega) (le_refl _)).2.2

/-! ## What the 40 segments count -/

/-- The primes from `a` up to `b`, `b` excluded. -/
def primesIn (a b : Nat) : Nat := ((Finset.Ico a b).filter Nat.Prime).card

theorem primesIn_add {a b c : Nat} (hab : a ≤ b) (hbc : b ≤ c) : primesIn a b + primesIn b c = primesIn a c := by
  unfold primesIn
  rw [← Finset.Ico_union_Ico_eq_Ico hab hbc, Finset.filter_union, Finset.card_union_of_disjoint]
  exact Finset.disjoint_filter_filter (Finset.Ico_disjoint_Ico_consecutive a b c)

theorem primeCounting_eq (n : Nat) : Nat.primeCounting n = primesIn 0 (n + 1) := by
  rw [Nat.primeCounting, Nat.primeCounting', Nat.count_eq_card_filter_range, primesIn, Finset.range_eq_Ico]

theorem primesIn_eq_zero {a b : Nat} : primesIn a b = 0 ↔ ∀ p, p.Prime → a ≤ p → ¬ p < b := by
  rw [primesIn, Finset.card_eq_zero, Finset.filter_eq_empty_iff]
  simp only [Finset.mem_Ico, and_imp]
  exact ⟨fun h p hp ha hb => h ha hb hp, fun h p ha hb hp => h p hp ha hb⟩

/-- What is left marked in a segment are its primes. -/
theorem sieved_eq_primesIn {limit lo hi : Nat} (hlo : 2 ≤ lo) (hhi : hi ≤ limit) :
    sieved (basePrimes (Nat.sqrt limit + 1)) lo hi = primesIn lo hi := by
  have hmarks : segmentMarks (basePrimes (Nat.sqrt limit + 1)) lo hi =
      (List.range (hi - lo)).map fun j => decide (lo + j).Prime := by
    apply List.ext_getElem
    · rw [length_segmentMarks, List.length_map, List.length_range]
    · intro j hj _
      have hj' : j < hi - lo := by rwa [length_segmentMarks] at hj
      have := getD_segmentMarks_prime hlo hhi hj'
      rw [List.getD_eq_getElem _ _ hj] at this
      rw [List.getElem_map, List.getElem_range, Bool.eq_iff_iff, this, decide_eq_true_iff]
  have hcard : primesIn lo hi = ((List.range' lo (hi - lo)).filter Nat.Prime).length := rfl
  rw [sieved_eq, hmarks, hcard, ← List.countP_eq_length_filter, List.range'_eq_map_range, List.countP_map, List.count,
    List.countP_map]
  congr 1
  funext j
  simp

/-- The first segment starts at 2 and is not shortened. -/
theorem segments_eq {limit : Nat} (h : 1000 ≤ limit) : segments limit = (2, limit / 40 + 2) ::
    (List.range 39).map fun c => ((c + 1) * (limit / 40), (c + 1 + 1) * (limit / 40)) := by
  have hall : ∀ s ∈ (List.range chunks).map (segment limit), decide (s.1 < s.2) = true := by
    intro s hs
    obtain ⟨c, hc, rfl⟩ := List.mem_map.1 hs
    exact decide_eq_true (segment_lt h (List.mem_range.1 hc))
  have hseg : max (limit / chunks) 1 = limit / 40 := max_eq_left (show 1 ≤ limit / 40 by omega)
  rw [segments, List.takeWhile_eq_self_iff.2 hall, chunks, List.range_succ_eq_map, List.map_cons, List.map_map]
  refine congrArg₂ List.cons ?_ (List.map_congr_left fun c hc => ?_)
  · simp only [segment, hseg, Nat.zero_mul, Prod.mk.injEq]
    omega
  · have hc := List.mem_range.1 hc
    have hle : (c + 1 + 1) * (limit / 40) ≤ 40 * (limit / 40) := Nat.mul_le_mul_right _ (by omega)
    have hone : limit / 40 ≤ (c + 1) * (limit / 40) := Nat.le_mul_of_pos_left _ (by omega)
    have hsucc : (c + 1 + 1) * (limit / 40) = (c + 1) * (limit / 40) + limit / 40 := Nat.succ_mul ..
    simp only [segment, hseg, Function.comp_apply, Nat.succ_eq_add_one, Prod.mk.injEq,
      max_eq_left (show 2 ≤ (c + 1) * (limit / 40) by omega), true_and]
    omega

/-- The segments after the first go on from one to the next. -/
theorem sum_primesIn (seg n : Nat) :
    ((List.range n).map fun c => primesIn ((c + 1) * seg) ((c + 1 + 1) * seg)).sum = primesIn seg ((n + 1) * seg) := by
  induction n with
  | zero => simp [primesIn]
  | succ n ih =>
    rw [List.range_succ, List.map_append, List.sum_append, ih, List.map_singleton, List.sum_singleton]
    exact primesIn_add (Nat.le_mul_of_pos_left _ (by omega)) (Nat.mul_le_mul_right _ (by omega))

theorem countPrimes_eq {limit : Nat} (h : 1000 ≤ limit) :
    countPrimes limit = primesIn 2 (limit / 40 + 2) + primesIn (limit / 40) (40 * (limit / 40)) := by
  have hle : 40 * (limit / 40) ≤ limit := Nat.mul_div_le limit 40
  rw [countPrimes, segments_eq h, List.map_cons, List.sum_cons, List.map_map, ← sum_primesIn (limit / 40) 39]
  refine congrArg₂ (· + ·) (sieved_eq_primesIn (le_refl 2) (by omega)) (congrArg List.sum (List.map_congr_left ?_))
  intro c hc
  have hc := List.mem_range.1 hc
  have hone : limit / 40 ≤ (c + 1) * (limit / 40) := Nat.le_mul_of_pos_left _ (by omega)
  have htop : (c + 1 + 1) * (limit / 40) ≤ 40 * (limit / 40) := Nat.mul_le_mul_right _ (by omega)
  exact sieved_eq_primesIn (show 2 ≤ (c + 1) * (limit / 40) by omega) (show (c + 1 + 1) * (limit / 40) ≤ limit by omega)

/-- How many segments count `p`. -/
def timesCounted (limit p : Nat) : Nat :=
  (segments limit).countP fun s =>
    decide (s.1 ≤ p) && (segmentMarks (basePrimes (Nat.sqrt limit + 1)) s.1 s.2).getD (p - s.1) false

theorem counted_iff {limit p : Nat} (hp : p.Prime) {lo hi : Nat} (hlo : 2 ≤ lo) (hhi : hi ≤ limit) :
    (decide (lo ≤ p) && (segmentMarks (basePrimes (Nat.sqrt limit + 1)) lo hi).getD (p - lo) false) =
      decide (lo ≤ p ∧ p < hi) := by
  rw [Bool.eq_iff_iff, Bool.and_eq_true, decide_eq_true_iff, decide_eq_true_iff]
  refine and_congr_right fun hle => ?_
  constructor
  · intro hmark
    by_contra hge
    rw [List.getD_eq_default _ _ (by rw [length_segmentMarks]; omega)] at hmark
    cases hmark
  · intro hlt
    rw [getD_segmentMarks_prime hlo hhi (by omega), Nat.add_sub_cancel' hle]
    exact hp

theorem countP_segments (seg p n : Nat) :
    ((List.range n).countP fun c => decide ((c + 1) * seg ≤ p ∧ p < (c + 1 + 1) * seg)) =
      if seg ≤ p ∧ p < (n + 1) * seg then 1 else 0 := by
  induction n with
  | zero =>
    rw [if_neg (by omega)]
    rfl
  | succ n ih =>
    have hle : seg ≤ (n + 1) * seg := Nat.le_mul_of_pos_left _ (by omega)
    have hsucc : (n + 1 + 1) * seg = (n + 1) * seg + seg := Nat.succ_mul ..
    rw [List.range_succ, List.countP_append, ih, List.countP_singleton]
    simp only [decide_eq_true_eq]
    split_ifs
    all_goals omega

theorem timesCounted_eq {limit p : Nat} (h : 1000 ≤ limit) (hp : p.Prime) :
    timesCounted limit p = (if p < limit / 40 + 2 then 1 else 0) +
      if limit / 40 ≤ p ∧ p < 40 * (limit / 40) then 1 else 0 := by
  have hle : 40 * (limit / 40) ≤ limit := Nat.mul_div_le limit 40
  have hfirst := counted_iff hp (le_refl 2) (show limit / 40 + 2 ≤ limit by omega)
  rw [timesCounted, segments_eq h, List.countP_cons, hfirst, List.countP_map, ← countP_segments (limit / 40) p 39,
    Nat.add_comm]
  have h2 := hp.two_le
  refine congrArg₂ (· + ·) (by simp [h2]) (List.countP_congr ?_)
  intro c hc
  have hc := List.mem_range.1 hc
  have hone : limit / 40 ≤ (c + 1) * (limit / 40) := Nat.le_mul_of_pos_left _ (by omega)
  have htop : (c + 1 + 1) * (limit / 40) ≤ 40 * (limit / 40) := Nat.mul_le_mul_right _ (by omega)
  rw [Function.comp_apply, counted_iff hp (by omega) (by omega)]

/-! ## The result text -/

/-- `limit` once clamped. -/
def effectiveLimit (payload : SortedMap Bytes ℚ) : Nat :=
  clamp ⌊(payload.find? (txt "limit")).getD 10000000⌋₊ 1000 200000000

/-- The job ends with the number of primes up to its limit. -/
def FinishesWithPrimeCount (job : Job ℚ) (elapsed : ℚ) : Prop :=
  let limit := effectiveLimit job.payload
  .write (.finish false (decimal (Nat.primeCounting limit) ++ txt " primes <= " ++ decimal limit) elapsed) ∈
    runJob job elapsed

theorem le_effectiveLimit (payload : SortedMap Bytes ℚ) : 1000 ≤ effectiveLimit payload := by
  unfold effectiveLimit clamp
  split_ifs <;> omega

theorem finish_mem_runJob {job : Job ℚ} {elapsed e : ℚ} {failed : Bool} {text : Bytes} :
    .write (.finish failed text e) ∈ runJob job elapsed ↔
      failed = job.plan.failed ∧ text = job.plan.resultText ∧ e = elapsed := by
  simp [runJob, sections]

theorem finishes_iff {job : Job ℚ} (hkind : job.kind = txt "count_primes") (elapsed : ℚ) :
    FinishesWithPrimeCount job elapsed ↔
      countPrimes (effectiveLimit job.payload) = Nat.primeCounting (effectiveLimit job.payload) := by
  have hplan : job.plan = planCountPrimes job.payload := by rw [Job.plan, plan, if_pos hkind]
  have htext : (planCountPrimes job.payload).resultText =
      decimal (countPrimes (effectiveLimit job.payload)) ++ txt " primes <= " ++
        decimal (effectiveLimit job.payload) := rfl
  rw [FinishesWithPrimeCount, finish_mem_runJob, hplan, htext]
  constructor
  · rintro ⟨-, h, -⟩
    exact (decimal_injective (List.append_cancel_right (List.append_cancel_right h))).symm
  · intro h
    exact ⟨rfl, by rw [h], rfl⟩

/-- What is counted twice makes up for what is not counted. -/
theorem count_balance {limit : Nat} (h : 1000 ≤ limit) :
    countPrimes limit + primesIn (40 * (limit / 40)) (limit + 1) =
      Nat.primeCounting limit + primesIn (limit / 40) (limit / 40 + 2) := by
  have hle : 40 * (limit / 40) ≤ limit := Nat.mul_div_le limit 40
  have hnone : primesIn 0 2 = 0 := primesIn_eq_zero.2 fun p hp _ hlt => absurd hp.two_le (by omega)
  rw [countPrimes_eq h, primeCounting_eq]
  calc primesIn 2 (limit / 40 + 2) + primesIn (limit / 40) (40 * (limit / 40)) + primesIn (40 * (limit / 40)) (limit + 1)
      = primesIn 2 (limit / 40 + 2) + primesIn (limit / 40) (limit + 1) := by
        rw [add_assoc, primesIn_add (by omega) (by omega)]
    _ = primesIn 0 (limit / 40 + 2) + primesIn (limit / 40) (limit + 1) := by
        rw [← primesIn_add (show 0 ≤ 2 by omega) (show 2 ≤ limit / 40 + 2 by omega), hnone, Nat.zero_add]
    _ = primesIn 0 (limit / 40) + primesIn (limit / 40) (limit / 40 + 2) + primesIn (limit / 40) (limit + 1) := by
        rw [primesIn_add (Nat.zero_le _) (by omega)]
    _ = primesIn 0 (limit + 1) + primesIn (limit / 40) (limit / 40 + 2) := by
        rw [add_right_comm, primesIn_add (Nat.zero_le _) (by omega)]

theorem counted_once_iff {limit p : Nat} (h : 1000 ≤ limit) (hp : p.Prime) :
    timesCounted limit p = 1 ↔ p ≠ limit / 40 ∧ p ≠ limit / 40 + 1 ∧ p < 40 * (limit / 40) := by
  rw [timesCounted_eq h hp]
  split_ifs
  all_goals omega

/-- The text is right where as many primes are counted twice as are left out, and
each prime is counted once where there are none of either. -/
theorem prime_count_iff {job : Job ℚ} (hkind : job.kind = txt "count_primes") (elapsed : ℚ) :
    let limit := effectiveLimit job.payload
    let segSize := limit / 40
    (FinishesWithPrimeCount job elapsed ↔ primesIn segSize (segSize + 2) = primesIn (40 * segSize) (limit + 1)) ∧
      (FinishesWithPrimeCount job elapsed ∧ (∀ p ≤ limit, p.Prime → timesCounted limit p = 1) ↔
        ¬ segSize.Prime ∧ ¬ (segSize + 1).Prime ∧ ∀ p ≤ limit, p.Prime → p < 40 * segSize) := by
  intro limit segSize
  have hlimit : 1000 ≤ limit := le_effectiveLimit job.payload
  have hbalance : countPrimes limit + primesIn (40 * segSize) (limit + 1) =
      Nat.primeCounting limit + primesIn segSize (segSize + 2) := count_balance hlimit
  have htext : FinishesWithPrimeCount job elapsed ↔
      primesIn segSize (segSize + 2) = primesIn (40 * segSize) (limit + 1) := by
    rw [finishes_iff hkind]
    change countPrimes limit = Nat.primeCounting limit ↔ _
    omega
  refine ⟨htext, ?_⟩
  constructor
  · rintro ⟨-, honce⟩
    refine ⟨?_, ?_, ?_⟩
    · intro hp
      exact ((counted_once_iff hlimit hp).1 (honce segSize (by omega) hp)).1 rfl
    · intro hp
      exact ((counted_once_iff hlimit hp).1 (honce (segSize + 1) (by omega) hp)).2.1 rfl
    · intro p hle hp
      exact ((counted_once_iff hlimit hp).1 (honce p hle hp)).2.2
  · rintro ⟨hseg, hseg', htail⟩
    have htwice : primesIn segSize (segSize + 2) = 0 := by
      refine primesIn_eq_zero.2 fun p hp hge hlt => ?_
      obtain rfl | rfl : p = segSize ∨ p = segSize + 1 := by omega
      · exact hseg hp
      · exact hseg' hp
    have hmissed : primesIn (40 * segSize) (limit + 1) = 0 :=
      primesIn_eq_zero.2 fun p hp hge hlt => absurd (htail p (by omega) hp) (by omega)
    refine ⟨htext.2 (by rw [htwice, hmissed]), ?_⟩
    intro p hle hp
    refine (counted_once_iff hlimit hp).2 ⟨?_, ?_, htail p hle hp⟩
    · rintro rfl
      exact hseg hp
    · rintro rfl
      exact hseg' hp

/-- A `count_primes` job, as submitted. -/
def primesJob (limit : ℚ) : Job ℚ :=
  ⟨txt "J00001", txt "count_primes", SortedMap.empty.insert (txt "limit") limit, txt "queued", [], 0, 0, 0⟩

/-- A round limit hides it: 25, 26 and 1000 are composite. -/
theorem prime_count_1000 : FinishesWithPrimeCount (primesJob 1000) 0 ∧
    ∀ p ≤ 1000, p.Prime → timesCounted 1000 p = 1 := by
  have hlimit : effectiveLimit (primesJob 1000).payload = 1000 := by decide +kernel
  have h := (prime_count_iff (show (primesJob 1000).kind = txt "count_primes" from rfl) 0).2
  rw [hlimit] at h
  refine h.2 ⟨by norm_num, by norm_num, ?_⟩
  intro p hle hp
  rcases Nat.lt_or_eq_of_le hle with hlt | rfl
  · exact hlt
  · norm_num at hp

/-- 1009 is prime, and no segment goes beyond 999. -/
theorem last_prime_not_counted : effectiveLimit (primesJob 1009).payload = 1009 ∧
    ¬ FinishesWithPrimeCount (primesJob 1009) 0 ∧ Nat.Prime 1009 ∧ timesCounted 1009 1009 = 0 := by
  have hlimit : effectiveLimit (primesJob 1009).payload = 1009 := by decide +kernel
  have hp : Nat.Prime 1009 := by norm_num
  have htwice : primesIn (1009 / 40) (1009 / 40 + 2) = 0 := by decide +kernel
  have hmissed : primesIn (40 * (1009 / 40)) (1009 + 1) ≠ 0 := by
    rw [Ne, primesIn_eq_zero]
    intro h
    exact h 1009 hp (by omega) (by omega)
  have hbalance := count_balance (show 1000 ≤ 1009 by omega)
  refine ⟨hlimit, ?_, hp, ?_⟩
  · rw [finishes_iff rfl, hlimit]
    omega
  · rw [timesCounted_eq (by omega) hp]
    norm_num

end NgxLuaCpp
