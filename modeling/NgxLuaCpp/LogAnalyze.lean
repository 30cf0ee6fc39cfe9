import NgxLuaCpp.LogReport
import Mathlib.Data.ENat.Lattice
/-!
# Reading an access log

The loop of `log_analyze` over the characters of a file. `max_lines` is a
`double`: a number, or infinity.
-/

namespace NgxLuaCpp

/-! ## The loop -/

/-- `std::fgetc`: nothing at the end of the file. -/
def fgetc : Bytes → Option UInt8 × Bytes
  | [] => (none, [])
  | c :: file => (some c, file)

/-- `(char)std::fgetc(f)`. `EOF` is -1, and its low byte 255. -/
def narrow (got : Option UInt8) : UInt8 := got.getD 255

/-- Why the loop ended: the end of the file, a character equal to `EOF`, or `max_lines`. -/
inductive LogStop where
  | eof
  | byte
  | limit
  deriving DecidableEq

/-- The file and the variables of the loop. -/
structure LogReader where
  file : Bytes
  skipToNewline : Bool
  line : Bytes
  counts : LogCounts

namespace LogReader

/-- The reader before the first character. -/
def opened (file : Bytes) : LogReader := ⟨file, false, [], .start⟩

/-- One test of the loop's condition, and the body after it. -/
def step (signed : Bool) (maxLines : WithTop ℚ) (r : LogReader) : LogReader ⊕ LogStop × LogCounts :=
  let (got, file) := fgetc r.file
  let c := narrow got
  if charValue signed c = -1 then .inr (if got = none then .eof else .byte, r.counts)
  else
    let r := { r with file := file }
    if r.skipToNewline then .inl (if c = '\n'.toUInt8 then { r with skipToNewline := false } else r)
    else if c = '\n'.toUInt8 then
      let counts := r.counts.addLine signed r.line
      -- `skip_to_newline` is set as well, but the loop is left at once
      if maxLines ≤ (counts.lines : ℚ) then .inr (.limit, counts)
      else .inl { r with line := [], counts := counts }
    else .inl { r with line := r.line ++ [c] }

/-- At most `fuel` passes of the loop. -/
def read (signed : Bool) (maxLines : WithTop ℚ) : Nat → LogReader → Option (LogStop × LogCounts)
  | 0, _ => none
  | fuel + 1, r =>
    match r.step signed maxLines with
    | .inl r => read signed maxLines fuel r
    | .inr result => some result

end LogReader

/-- The report on a file that could be opened. -/
def logAnalyze (signed : Bool) (sorter : StdSort) (elapsed : ℚ) (maxLines : WithTop ℚ) (fuel : Nat) (file : Bytes) :
    Option LogReport :=
  let maxLinesD := if 0 < maxLines then maxLines else (100000 : ℚ)
  (LogReader.read signed maxLinesD fuel (.opened file)).map fun result => result.2.report sorter elapsed

/-! ## What the loop comes to -/

/-- The loop as a recursion over the file. Where a `char` is unsigned nothing ends it. -/
def scan (signed : Bool) (maxLines : WithTop ℚ) : Bytes → Bytes → LogCounts → Option (LogStop × LogCounts)
  | [], _, counts => if signed then some (.eof, counts) else none
  | c :: file, line, counts =>
    if charValue signed c = -1 then some (.byte, counts)
    else if c = '\n'.toUInt8 then
      if maxLines ≤ ((counts.addLine signed line).lines : ℚ) then some (.limit, counts.addLine signed line)
      else scan signed maxLines file [] (counts.addLine signed line)
    else scan signed maxLines file (line ++ [c]) counts

/-- The characters that look like `EOF`. -/
theorem charValue_eq_neg_one {signed : Bool} {c : UInt8} : charValue signed c = -1 ↔ signed = true ∧ c = 255 := by
  have hlt := c.toNat_lt
  have h255 : c = 255 ↔ c.toNat = 255 := by rw [← UInt8.toNat_inj]; rfl
  rw [h255, charValue]
  cases signed with
  | false =>
    simp only [Bool.false_and, Bool.false_eq_true, if_false, false_and, iff_false]
    omega
  | true =>
    simp only [Bool.true_and, decide_eq_true_eq, true_and]
    split
    all_goals omega

section
variable {signed : Bool} {maxLines : WithTop ℚ} {line : Bytes} {counts : LogCounts}

theorem step_nil : (⟨[], false, line, counts⟩ : LogReader).step signed maxLines =
    if signed then .inr (.eof, counts) else .inl ⟨[], false, line ++ [255], counts⟩ := by
  cases signed <;> rfl

theorem step_cons (c : UInt8) (file : Bytes) : (⟨c :: file, false, line, counts⟩ : LogReader).step signed maxLines =
    if charValue signed c = -1 then .inr (.byte, counts)
    else if c = '\n'.toUInt8 then
      if maxLines ≤ ((counts.addLine signed line).lines : ℚ) then .inr (.limit, counts.addLine signed line)
      else .inl ⟨file, false, [], counts.addLine signed line⟩
    else .inl ⟨file, false, line ++ [c], counts⟩ := rfl

end

/-- Whatever the loop ends with, the scan does. -/
theorem scan_of_read {signed : Bool} {maxLines : WithTop ℚ} {fuel : Nat} {file line : Bytes} {counts : LogCounts}
    {result : LogStop × LogCounts} (h : LogReader.read signed maxLines fuel ⟨file, false, line, counts⟩ = some result) :
    scan signed maxLines file line counts = some result := by
  induction fuel generalizing file line counts with
  | zero => cases h
  | succ fuel ih =>
    cases file with
    | nil =>
      rw [LogReader.read, step_nil] at h
      cases signed with
      | false =>
        have hscan : scan false maxLines [] (line ++ [255]) counts = some result := ih h
        cases hscan
      | true => exact h
    | cons c file =>
      rw [LogReader.read, step_cons] at h
      rw [scan]
      split_ifs at h ⊢
      · exact h
      · exact h
      · exact ih h
      · exact ih h

/-- Where the scan ends, the loop does after one read for each character. -/
theorem read_of_scan {signed : Bool} {maxLines : WithTop ℚ} {file line : Bytes} {counts : LogCounts}
    {result : LogStop × LogCounts} (h : scan signed maxLines file line counts = some result) :
    LogReader.read signed maxLines (file.length + 1) ⟨file, false, line, counts⟩ = some result := by
  induction file generalizing line counts with
  | nil =>
    rw [LogReader.read, step_nil]
    cases signed with
    | false => cases h
    | true => exact h
  | cons c file ih =>
    rw [LogReader.read, step_cons]
    rw [scan] at h
    split_ifs at h ⊢
    · exact h
    · exact h
    · exact ih h
    · exact ih h

/-- The loop ends exactly as the recursion does. -/
theorem exists_read_iff {signed : Bool} {maxLines : WithTop ℚ} {file : Bytes} {result : LogStop × LogCounts} :
    (∃ fuel, LogReader.read signed maxLines fuel (.opened file) = some result) ↔
      scan signed maxLines file [] .start = some result := by
  constructor
  · rintro ⟨fuel, h⟩
    exact scan_of_read h
  · intro h
    exact ⟨_, read_of_scan h⟩

/-! ## How many lines are read -/

def newlines (s : Bytes) : Nat := s.count '\n'.toUInt8

/-- `std::ceil(max_lines)` -/
def ceilLines (maxLines : WithTop ℚ) : ℕ∞ := maxLines.map Nat.ceil

theorem ceilLines_le {maxLines : WithTop ℚ} {n : Nat} : ceilLines maxLines ≤ n ↔ maxLines ≤ (n : ℚ) := by
  cases maxLines with
  | top =>
    refine iff_of_false ?_ ?_
    · exact fun h => absurd (top_le_iff.1 h) (ENat.natCast_ne_top n)
    · exact fun h => WithTop.coe_ne_top (top_le_iff.1 h)
  | coe m =>
    have hceil : ceilLines (m : ℚ) = ((⌈m⌉₊ : ℕ) : ℕ∞) := rfl
    rw [hceil, Nat.cast_le, WithTop.coe_le_coe, Nat.ceil_le]

theorem lines_addLine (signed : Bool) (counts : LogCounts) (line : Bytes) :
    (counts.addLine signed line).lines = counts.lines + 1 := by
  unfold LogCounts.addLine
  cases parseLine signed line <;> rfl

/-- The first character that the loop takes for the end of the file, or the end it does
not see, comes after `need` newlines, of which `seen` are before `s`. -/
def Clear (signed : Bool) (need seen : Nat) (s : Bytes) : Prop :=
  if signed then ∀ pre post, s = pre ++ 255 :: post → need ≤ seen + newlines pre else need ≤ seen + newlines s

theorem clear_of_le {signed : Bool} {need seen : Nat} (h : need ≤ seen) (s : Bytes) : Clear signed need seen s := by
  unfold Clear
  split
  · intro pre post _
    omega
  · omega

theorem newlines_cons (c : UInt8) (s : Bytes) :
    newlines (c :: s) = (if c = '\n'.toUInt8 then 1 else 0) + newlines s := by
  rw [newlines, newlines, List.count_cons, Nat.add_comm]
  simp

/-- A character that does not look like the end only counts if it is a newline. -/
theorem clear_cons {signed : Bool} {need seen : Nat} {c : UInt8} {s : Bytes} (hc : charValue signed c ≠ -1) :
    Clear signed need seen (c :: s) ↔ Clear signed need (seen + if c = '\n'.toUInt8 then 1 else 0) s := by
  cases signed with
  | false => simp only [Clear, Bool.false_eq_true, if_false, newlines_cons, Nat.add_assoc]
  | true =>
    simp only [Clear, if_true]
    constructor
    · rintro h pre post rfl
      have := h (c :: pre) post rfl
      rwa [newlines_cons, ← Nat.add_assoc] at this
    · intro h pre post heq
      cases pre with
      | nil =>
        obtain ⟨rfl, -⟩ := List.cons.inj heq
        exact absurd (charValue_eq_neg_one.2 ⟨rfl, rfl⟩) hc
      | cons d pre =>
        obtain ⟨rfl, rfl⟩ := List.cons.inj heq
        rw [newlines_cons, ← Nat.add_assoc]
        exact h pre post rfl

theorem not_clear_255 {need seen : Nat} (h : seen < need) (s : Bytes) : ¬ Clear true need seen (255 :: s) := by
  intro hclear
  have := hclear [] s rfl
  rw [newlines, List.count_nil] at this
  omega

/-- The loop ended at the end of the file or at the limit, and has counted all lines up to it. -/
def EndedWell (maxLines : WithTop ℚ) (need total : Nat) (result : LogStop × LogCounts) : Prop :=
  (result.1 = .eof ∨ result.1 = .limit ∧ maxLines ≤ (result.2.lines : ℚ)) ∧ result.2.lines = min total need

/-- The scan ends as it should exactly on clear text. -/
theorem scan_endedWell_iff {signed : Bool} {maxLines : WithTop ℚ} {need : Nat} {s line : Bytes} {counts : LogCounts}
    (hneed : ∀ n ≤ counts.lines + newlines s, maxLines ≤ (n : ℚ) ↔ need ≤ n) (hbelow : counts.lines < need) :
    (∃ result, scan signed maxLines s line counts = some result ∧
      EndedWell maxLines need (counts.lines + newlines s) result) ↔ Clear signed need counts.lines s := by
  induction s generalizing line counts with
  | nil =>
    cases signed with
    | false =>
      refine iff_of_false ?_ ?_
      · rintro ⟨result, h, -⟩
        cases h
      · simp [Clear, newlines, hbelow]
    | true =>
      refine iff_of_true ⟨_, rfl, .inl rfl, ?_⟩ ?_
      · simp only [newlines, List.count_nil]
        omega
      · simp [Clear]
  | cons c s ih =>
    have hadd := lines_addLine signed counts line
    rw [scan]
    by_cases hc : charValue signed c = -1
    · -- taken for the end of the file
      obtain ⟨rfl, rfl⟩ := charValue_eq_neg_one.1 hc
      rw [if_pos hc]
      refine iff_of_false ?_ (not_clear_255 hbelow s)
      rintro ⟨result, h, hstop, -⟩
      obtain rfl := Option.some.inj h
      simp at hstop
    rw [if_neg hc, clear_cons hc]
    rw [newlines_cons, ← Nat.add_assoc] at hneed ⊢
    by_cases hnl : c = '\n'.toUInt8
    · rw [if_pos hnl, ← hadd] at hneed
      rw [if_pos hnl, if_pos hnl, ← hadd]
      by_cases hlimit : maxLines ≤ ((counts.addLine signed line).lines : ℚ)
      · -- the last line that is wanted
        have hle := (hneed _ (Nat.le_add_right _ _)).1 hlimit
        rw [if_pos hlimit]
        refine iff_of_true ⟨_, rfl, .inr ⟨rfl, hlimit⟩, ?_⟩ (clear_of_le hle s)
        dsimp only
        omega
      · have hgt := mt (hneed _ (Nat.le_add_right _ _)).2 hlimit
        rw [if_neg hlimit]
        exact ih hneed (Nat.lt_of_not_le hgt)
    · rw [if_neg hnl] at hneed
      rw [if_neg hnl, if_neg hnl]
      exact ih hneed hbelow

/-- Ends, only at the end of the file or at the limit, and reports the lines up to it. -/
def ReadsAll (signed : Bool) (file : Bytes) (maxLines : WithTop ℚ) : Prop :=
  ∃ fuel stop counts, LogReader.read signed maxLines fuel (.opened file) = some (stop, counts) ∧
    (stop = .eof ∨ stop = .limit ∧ maxLines ≤ (counts.lines : ℚ)) ∧
    ∃ n : Nat, (∀ (sorter : StdSort) (elapsed : ℚ), ∃ report,
        logAnalyze signed sorter elapsed maxLines fuel file = some report ∧
          report.stats.find? (txt "lines") = some (n : ℚ)) ∧
      (n : ℕ∞) = min (newlines file : ℕ∞) (ceilLines maxLines)

/-- The `lines` reported are those the loop has counted. -/
theorem reported_lines {signed : Bool} {file : Bytes} {maxLines : WithTop ℚ} (hpos : 0 < maxLines) {fuel : Nat}
    {stop : LogStop} {counts : LogCounts}
    (hread : LogReader.read signed maxLines fuel (.opened file) = some (stop, counts)) {n : Nat} :
    (∀ (sorter : StdSort) (elapsed : ℚ), ∃ report, logAnalyze signed sorter elapsed maxLines fuel file = some report ∧
      report.stats.find? (txt "lines") = some (n : ℚ)) ↔ n = counts.lines := by
  have hreport (sorter : StdSort) (elapsed : ℚ) :
      logAnalyze signed sorter elapsed maxLines fuel file = some (counts.report sorter elapsed) := by
    rw [logAnalyze, if_pos hpos, hread, Option.map_some]
  constructor
  · intro h
    obtain ⟨report, heq, hn⟩ := h .stable 0
    rw [hreport, Option.some.injEq] at heq
    rw [← heq] at hn
    exact (Nat.cast_injective (Option.some.inj ((stats_lines counts 0).symm.trans hn))).symm
  · rintro rfl sorter elapsed
    exact ⟨_, hreport sorter elapsed, stats_lines counts elapsed⟩

/-- A whole number that does for `max_lines` within the file, past its end for infinity. -/
theorem exists_need (maxLines : WithTop ℚ) (total : Nat) : ∃ need : Nat,
    (∀ n ≤ total, ceilLines maxLines ≤ n ↔ need ≤ n) ∧
      min (total : ℕ∞) (ceilLines maxLines) = (min total need : Nat) := by
  cases maxLines with
  | top =>
    have htop : ceilLines ⊤ = ⊤ := rfl
    refine ⟨total + 1, ?_, ?_⟩
    · intro n hn
      rw [htop, top_le_iff]
      exact iff_of_false (ENat.natCast_ne_top n) (by omega)
    · rw [htop, min_top_right, min_eq_left (Nat.le_succ total)]
  | coe m =>
    have hceil : ceilLines (m : ℚ) = ((⌈m⌉₊ : ℕ) : ℕ∞) := rfl
    refine ⟨⌈m⌉₊, ?_, ?_⟩
    · intro n _
      rw [hceil, Nat.cast_le]
    · rw [hceil]
      exact (Nat.mono_cast (α := ℕ∞)).map_min.symm

/-- The loop reads all lines it should unless a character that looks like `EOF` comes
before the last of them, or nothing looks like `EOF` and the file has fewer. -/
theorem readsAll_iff (signed : Bool) (file : Bytes) {maxLines : WithTop ℚ} (hpos : 0 < maxLines) :
    ReadsAll signed file maxLines ↔
      if signed then ∀ pre post, file = pre ++ 255 :: post → ceilLines maxLines ≤ newlines pre
      else ceilLines maxLines ≤ newlines file := by
  obtain ⟨need, hneed, hmin⟩ := exists_need maxLines (newlines file)
  have hstart : LogCounts.start.lines = 0 := rfl
  have hle : ∀ n ≤ LogCounts.start.lines + newlines file, maxLines ≤ (n : ℚ) ↔ need ≤ n := by
    intro n hn
    rw [← ceilLines_le, hneed n (by rwa [hstart, Nat.zero_add] at hn)]
  have hbelow : LogCounts.start.lines < need := by
    rw [← Nat.not_le, ← hle _ (Nat.le_add_right _ _), hstart, not_le]
    exact hpos
  have hscan : ReadsAll signed file maxLines ↔ ∃ result, scan signed maxLines file [] .start = some result ∧
      EndedWell maxLines need (LogCounts.start.lines + newlines file) result := by
    rw [hstart, Nat.zero_add]
    constructor
    · rintro ⟨fuel, stop, counts, hread, hstop, n, hreport, hlines⟩
      rw [hmin, Nat.cast_inj, (reported_lines hpos hread).1 hreport] at hlines
      exact ⟨_, exists_read_iff.1 ⟨fuel, hread⟩, hstop, hlines⟩
    · rintro ⟨⟨stop, counts⟩, h, hstop, hlines⟩
      obtain ⟨fuel, hread⟩ := exists_read_iff.2 h
      refine ⟨fuel, stop, counts, hread, hstop, counts.lines, (reported_lines hpos hread).2 rfl, ?_⟩
      rw [hmin, Nat.cast_inj]
      exact hlines
  rw [hscan, scan_endedWell_iff hle hbelow, Clear, hstart]
  simp only [Nat.zero_add]
  split_ifs
  · refine forall_congr' fun pre => forall_congr' fun post => ?_
    refine imp_congr_right fun heq => (hneed _ ?_).symm
    rw [heq, newlines, newlines, List.count_append]
    exact Nat.le_add_right _ _
  · exact (hneed _ (Nat.le_refl _)).symm

/-- Three lines within a limit of 100, on a platform with a signed `char`. -/
theorem three_lines_read : ReadsAll true (txt "a\nb\nc\n") ((100 : ℚ) : WithTop ℚ) := by
  refine (readsAll_iff true _ (by decide)).2 ?_
  intro pre post h
  have hmem : (255 : UInt8) ∈ txt "a\nb\nc\n" := by simp [h]
  exact absurd hmem (by decide)

/-- A byte 0xFF ends the reading where a `char` is signed, and nothing does where it is not. -/
theorem eof_mistaken :
    ¬ ReadsAll true [255, 10] ((100 : ℚ) : WithTop ℚ) ∧ ¬ ReadsAll false [10] ((100 : ℚ) : WithTop ℚ) := by
  constructor
  · rintro ⟨fuel, stop, counts, hread, hstop, -⟩
    have hscan : some (LogStop.byte, LogCounts.start) = some (stop, counts) := exists_read_iff.1 ⟨fuel, hread⟩
    obtain ⟨rfl, -⟩ := Prod.mk.inj (Option.some.inj hscan)
    simp at hstop
  · rintro ⟨fuel, stop, counts, hread, -⟩
    have hnone : scan false ((100 : ℚ) : WithTop ℚ) [10] [] .start = none := by decide +kernel
    have hscan := exists_read_iff.1 ⟨fuel, hread⟩
    rw [hnone] at hscan
    cases hscan

/-! ## The lines behind a report -/

/-- What is counted is lines of the file, whole and in order. -/
theorem scan_lines {signed : Bool} {maxLines : WithTop ℚ} {s line : Bytes} {counts : LogCounts}
    {result : LogStop × LogCounts} (hline : '\n'.toUInt8 ∉ line)
    (h : scan signed maxLines s line counts = some result) :
    ∃ (ls : List Bytes) (rest : Bytes),
      line ++ s = ls.flatMap (· ++ ['\n'.toUInt8]) ++ rest ∧ (∀ l ∈ ls, '\n'.toUInt8 ∉ l) ∧
      result.2 = ls.foldl (LogCounts.addLine signed) counts := by
  induction s generalizing line counts with
  | nil =>
    rw [scan] at h
    split_ifs at h
    obtain rfl := Option.some.inj h
    exact ⟨[], line, by simp, by simp, rfl⟩
  | cons c s ih =>
    rw [scan] at h
    split_ifs at h with hc hnl hlimit
    · obtain rfl := Option.some.inj h
      exact ⟨[], line ++ c :: s, by simp, by simp, rfl⟩
    · obtain rfl := Option.some.inj h
      exact ⟨[line], s, by simp [hnl], by simpa using hline, rfl⟩
    · obtain ⟨ls, rest, heq, hls, hcounts⟩ := ih (List.not_mem_nil) h
      refine ⟨line :: ls, rest, ?_, ?_, hcounts⟩
      · rw [List.nil_append] at heq
        simp [heq, hnl]
      · simpa using ⟨hline, hls⟩
    · obtain ⟨ls, rest, heq, hls, hcounts⟩ := ih (by simp [hline, Ne.symm hnl]) h
      exact ⟨ls, rest, by rwa [List.append_assoc] at heq, hls, hcounts⟩

/-- Every report is one on lines of its file. -/
theorem exists_lines {signed : Bool} {sorter : StdSort} {elapsed : ℚ} {maxLines : WithTop ℚ} {fuel : Nat}
    {file : Bytes} {report : LogReport} (h : logAnalyze signed sorter elapsed maxLines fuel file = some report) :
    ∃ (ls : List Bytes) (rest : Bytes), file = ls.flatMap (· ++ ['\n'.toUInt8]) ++ rest ∧
      (∀ l ∈ ls, '\n'.toUInt8 ∉ l) ∧ report = (analyzed signed ls).report sorter elapsed := by
  obtain ⟨result, hread, rfl⟩ := Option.map_eq_some_iff.1 h
  obtain ⟨ls, rest, heq, hls, hcounts⟩ := scan_lines List.not_mem_nil (exists_read_iff.1 ⟨fuel, hread⟩)
  exact ⟨ls, rest, heq, hls, by rw [hcounts]; rfl⟩

/-- The outputs account for each other on all lines whose statuses the doubles tell apart,
and every report is one on lines of its file. -/
theorem log_accounts_iff (signed : Bool) :
    (∀ ls, (∀ (sorter : StdSort) (elapsed : ℚ), Accounts signed ls ((analyzed signed ls).report sorter elapsed)) ↔
      Distinguished signed ls) ∧
    ∀ sorter elapsed maxLines fuel file report, logAnalyze signed sorter elapsed maxLines fuel file = some report →
      ∃ (ls : List Bytes) (rest : Bytes), file = ls.flatMap (· ++ ['\n'.toUInt8]) ++ rest ∧
        (∀ l ∈ ls, '\n'.toUInt8 ∉ l) ∧ report = (analyzed signed ls).report sorter elapsed := by
  exact ⟨report_accounts_iff signed, fun _ _ _ _ _ _ h => exists_lines h⟩

/-- Two lines with statuses of 17 and of 16 digits. -/
def longStatuses : List Bytes :=
  [txt "h - - [10/Oct/2023:13:55:36 +0000] \"GET / HTTP/1.1\" 10000000000000000 5",
    txt "h - - [10/Oct/2023:13:55:36 +0000] \"GET / HTTP/1.1\" 9999999999999999 5"]

/-- They are one double, so a stable sort leaves the larger one first. -/
theorem long_statuses_not_ascending : ((analyzed true longStatuses).report .stable 0).statuses =
      [(txt "10000000000000000", 1), (txt "9999999999999999", 1)] ∧
    ¬ Accounts true longStatuses ((analyzed true longStatuses).report .stable 0) := by
  have hstatuses : ((analyzed true longStatuses).report .stable 0).statuses =
      [(txt "10000000000000000", 1), (txt "9999999999999999", 1)] := by decide +kernel
  refine ⟨hstatuses, ?_⟩
  intro h
  have hascending := h.statuses_ascending
  rw [hstatuses] at hascending
  exact absurd hascending (by decide)

end NgxLuaCpp
