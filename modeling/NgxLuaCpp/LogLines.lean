import NgxLuaCpp.LogAnalyze
/-!
# Lines in a log

What `log_analyze` does with a line, wherever its loop comes to it in a file. The loop
reads a line to its newline, unless a character in it looks like `EOF`.
-/
open Calendar

namespace NgxLuaCpp

namespace LogReader

/-- The loop after `n` passes, or what it ended with before. -/
def passes (signed : Bool) (maxLines : WithTop ℚ) : Nat → LogReader → LogReader ⊕ LogStop × LogCounts
  | 0, r => .inl r
  | n + 1, r =>
    match r.step signed maxLines with
    | .inl r => passes signed maxLines n r
    | .inr result => .inr result

variable {signed : Bool} {maxLines : WithTop ℚ}

theorem passes_add (m n : Nat) (r : LogReader) : passes signed maxLines (m + n) r =
    match passes signed maxLines m r with
    | .inl r => passes signed maxLines n r
    | .inr result => .inr result := by
  induction m generalizing r with
  | zero => rw [Nat.zero_add]; rfl
  | succ m ih =>
    rw [Nat.add_right_comm, passes, passes]
    cases r.step signed maxLines with
    | inl r => exact ih r
    | inr result => rfl

/-- The whole loop goes on from there. -/
theorem read_passes (n fuel : Nat) (r : LogReader) : read signed maxLines (n + fuel) r =
    match passes signed maxLines n r with
    | .inl r => read signed maxLines fuel r
    | .inr result => some result := by
  induction n generalizing r with
  | zero => rw [Nat.zero_add]; rfl
  | succ n ih =>
    rw [Nat.add_right_comm, read, passes]
    cases r.step signed maxLines with
    | inl r => exact ih r
    | inr result => rfl

/-- So a report is on what those passes have counted and the rest of the file. -/
theorem logAnalyze_passes (sorter : StdSort) (elapsed : ℚ) (hpos : 0 < maxLines) (n fuel : Nat) (file : Bytes) :
    logAnalyze signed sorter elapsed maxLines (n + fuel) file =
      match passes signed maxLines n (.opened file) with
      | .inl r => (read signed maxLines fuel r).map fun result => result.2.report sorter elapsed
      | .inr result => some (result.2.report sorter elapsed) := by
  rw [logAnalyze, if_pos hpos, read_passes]
  cases passes signed maxLines n (.opened file) <;> rfl

/-- A line is read to its newline and added, unless a character of it looks like `EOF`. -/
theorem passes_line {line : Bytes} (hline : '\n'.toUInt8 ∉ line) (begun after : Bytes) (st : LogCounts) :
    passes signed maxLines (line.length + 1) ⟨line ++ '\n'.toUInt8 :: after, false, begun, st⟩ =
      if signed = true ∧ 255 ∈ line then .inr (.byte, st)
      else if maxLines ≤ ((st.addLine signed (begun ++ line)).lines : ℚ) then
        .inr (.limit, st.addLine signed (begun ++ line))
      else .inl ⟨after, false, [], st.addLine signed (begun ++ line)⟩ := by
  have hnewline : charValue signed '\n'.toUInt8 ≠ -1 := fun h => absurd (charValue_eq_neg_one.1 h).2 (by decide)
  induction line generalizing begun with
  | nil =>
    rw [List.nil_append, List.append_nil, List.length_nil, Nat.zero_add, passes, step_cons, if_neg hnewline, if_pos rfl]
    by_cases hlimit : maxLines ≤ ((st.addLine signed begun).lines : ℚ)
    · simp only [hlimit, List.not_mem_nil, and_false, if_false, if_true]
    · simp only [hlimit, List.not_mem_nil, and_false, if_false]
      rfl
  | cons c line ih =>
    rw [List.mem_cons, not_or] at hline
    rw [List.cons_append, List.length_cons, passes, step_cons]
    by_cases hc : charValue signed c = -1
    · obtain ⟨hsigned, rfl⟩ := charValue_eq_neg_one.1 hc
      rw [if_pos hc, if_pos ⟨hsigned, List.mem_cons_self⟩]
    · have hmem : signed = true ∧ 255 ∈ c :: line ↔ signed = true ∧ 255 ∈ line := by
        rw [charValue_eq_neg_one] at hc
        rw [List.mem_cons]
        constructor
        · rintro ⟨hsigned, rfl | hin⟩
          · exact absurd ⟨hsigned, rfl⟩ hc
          · exact ⟨hsigned, hin⟩
        · rintro ⟨hsigned, hin⟩
          exact ⟨hsigned, .inr hin⟩
      rw [if_neg hc, if_neg (Ne.symm hline.1)]
      simp only [hmem]
      rw [ih hline.2, List.append_assoc]
      rfl

end LogReader

open LogReader

/-! ## Lines that are counted -/

/-- Wherever `log_analyze` comes to the line in a file, it counts it once, for `e`, and goes
on behind it or has reached the limit. -/
def CountedAs (signed : Bool) (line : Bytes) (e : LogEntry) : Prop :=
  ∀ (maxLines : WithTop ℚ) (before after : Bytes) (st : LogCounts),
    passes signed maxLines before.length (.opened (before ++ (line ++ '\n'.toUInt8 :: after))) =
      .inl ⟨line ++ '\n'.toUInt8 :: after, false, [], st⟩ →
    passes signed maxLines (before.length + (line.length + 1)) (.opened (before ++ (line ++ '\n'.toUInt8 :: after))) =
      if maxLines ≤ ((st.lines + 1 : Nat) : ℚ) then .inr (.limit, { st with lines := st.lines + 1 }.count e)
      else .inl ⟨after, false, [], { st with lines := st.lines + 1 }.count e⟩

/-- A line is counted for an entry if none of its bytes ends the loop and the parser gives that
entry. -/
theorem countedAs_iff {signed : Bool} {line : Bytes} (hline : '\n'.toUInt8 ∉ line) {e : LogEntry} :
    CountedAs signed line e ↔ ¬ (signed = true ∧ 255 ∈ line) ∧ parseLine signed line = some e := by
  have hlines (st : LogCounts) : (st.addLine signed line).lines = st.lines + 1 := lines_addLine signed st line
  constructor
  · intro h
    -- the line at the start of a file, with a limit of one line
    have hfirst := h 1 [] [] .start rfl
    rw [List.length_nil, Nat.zero_add] at hfirst
    have hpasses : passes signed 1 (line.length + 1) ⟨line ++ '\n'.toUInt8 :: [], false, [], .start⟩ = _ :=
      passes_line hline [] [] .start
    have hread := hpasses.symm.trans hfirst
    have hone : (1 : WithTop ℚ) ≤ ((LogCounts.start.lines + 1 : Nat) : ℚ) := by decide
    rw [List.nil_append, hlines, if_pos hone, if_pos hone] at hread
    by_cases hbyte : signed = true ∧ 255 ∈ line
    · rw [if_pos hbyte] at hread
      cases hread
    · rw [if_neg hbyte, Sum.inr.injEq, Prod.mk.injEq] at hread
      exact ⟨hbyte, LogCounts.parseLine_of_addLine hread.2⟩
  · rintro ⟨hread, hparse⟩ maxLines before after st hcomes
    have hadd := LogCounts.addLine_of_parseLine hparse st
    rw [passes_add, hcomes]
    simp only
    rw [passes_line hline, if_neg hread, List.nil_append, hlines, hadd]

/-- A line in the combined format is counted as what it says, exactly where none of its
characters looks like `EOF` and the first bracket is that of the time, or characters
that state the same second follow it. -/
theorem AccessLine.countedAs_text_iff (signed : Bool) (l : AccessLine) :
    CountedAs signed l.text ⟨l.time.seconds, l.status, some l.uri⟩ ↔
      ¬ (signed = true ∧ 255 ∈ l.text) ∧ ('['.toUInt8 ∉ l.addr ++ l.user ∨
        ∃ i, findChar l.text '['.toUInt8 0 = some i ∧ 20 ≤ l.text.length - i ∧
          States signed (l.text.drop i ++ [0]) l.time.seconds) := by
  rw [countedAs_iff l.newline_notMem_text, l.parseLine_text_iff]

namespace AccessLine

/-- A request by a user who calls himself `[bob`. -/
def bracketUser : AccessLine where
  addr := txt "10.0.0.1"
  user := txt "[bob"
  time := leapNoon
  zone := txt "+0000"
  method := txt "GET"
  uri := txt "/index.html"
  version := txt "1.1"
  status := txt "200"
  rest := txt "512"
  unquoted := by decide
  unspaced := by decide
  unbroken := by decide
  year_lt := by decide
  after_epoch := by decide +kernel
  status_ne := by decide
  status_digits := List.all_eq_true.1 (by decide : (txt "200").all isDigit = true)

/-- The time is read at the name's bracket, and the line is lost. -/
theorem bracketUser_not_counted : ¬ ∀ (signed : Bool) (l : AccessLine),
    CountedAs signed l.text ⟨l.time.seconds, l.status, some l.uri⟩ := by
  intro h
  have hparse := ((countedAs_iff bracketUser.newline_notMem_text).1 (h false bracketUser)).2
  have hnone : parseLine false bracketUser.text = none := by decide +kernel
  exact absurd (hnone.symm.trans hparse) (by simp)

end AccessLine

/-! ## Malformed times -/

/-- What the loop has counted. -/
def countsOf : LogReader ⊕ LogStop × LogCounts → LogCounts := Sum.elim LogReader.counts Prod.snd

/-- Wherever `log_analyze` comes to the line in a file, it counts it only if a well-formed
time starts at its first bracket. -/
def CountedByStamp (signed : Bool) (line : Bytes) : Prop :=
  ∀ (maxLines : WithTop ℚ) (before after : Bytes) (st : LogCounts),
    passes signed maxLines before.length (.opened (before ++ (line ++ '\n'.toUInt8 :: after))) =
      .inl ⟨line ++ '\n'.toUInt8 :: after, false, [], st⟩ →
    (countsOf (passes signed maxLines (before.length + (line.length + 1))
      (.opened (before ++ (line ++ '\n'.toUInt8 :: after))))).total ≠ st.total →
    ∃ i, findChar line '['.toUInt8 0 = some i ∧ IsStamp (line.drop i)

theorem total_addLine (signed : Bool) (st : LogCounts) (line : Bytes) :
    (st.addLine signed line).total = st.total + if (parseLine signed line).isSome then 1 else 0 := by
  unfold LogCounts.addLine
  cases parseLine signed line <;> rfl

theorem total_passes_line {signed : Bool} {maxLines : WithTop ℚ} {line : Bytes} (hline : '\n'.toUInt8 ∉ line)
    (after : Bytes) (st : LogCounts) :
    (countsOf (passes signed maxLines (line.length + 1) ⟨line ++ '\n'.toUInt8 :: after, false, [], st⟩)).total =
      if signed = true ∧ 255 ∈ line then st.total
      else st.total + if (parseLine signed line).isSome then 1 else 0 := by
  rw [passes_line hline, List.nil_append, ← total_addLine]
  split_ifs
  all_goals rfl

/-- A line is counted only by a well-formed time unless the parser lets another pass. -/
theorem countedByStamp_iff {signed : Bool} {line : Bytes} (hline : '\n'.toUInt8 ∉ line) :
    CountedByStamp signed line ↔ signed = true ∧ 255 ∈ line ∨ ((parseLine signed line).isSome = true →
      ∃ i, findChar line '['.toUInt8 0 = some i ∧ IsStamp (line.drop i)) := by
  constructor
  · intro h
    by_cases hbyte : signed = true ∧ 255 ∈ line
    · exact .inl hbyte
    · refine .inr fun hsome => h 1 [] [] .start rfl ?_
      have htotal : (countsOf (passes signed 1 (line.length + 1)
          ⟨line ++ '\n'.toUInt8 :: [], false, [], .start⟩)).total = _ := total_passes_line hline [] .start
      rw [if_neg hbyte, if_pos hsome] at htotal
      rw [List.length_nil, Nat.zero_add]
      exact ne_of_eq_of_ne htotal (Nat.succ_ne_self _)
  · rintro h maxLines before after st hcomes hcounted
    rw [passes_add, hcomes] at hcounted
    simp only at hcounted
    rw [total_passes_line hline] at hcounted
    split_ifs at hcounted with hbyte hsome
    · exact absurd rfl hcounted
    · exact h.resolve_left hbyte hsome
    · exact absurd rfl hcounted

/-- Exactly these malformed times have a value or are read past their end, and exactly
these lines are counted with one. -/
theorem malformed_times_iff (signed : Bool) :
    (∀ s, Checked signed s ↔ s.length < 20 ∨ s[0]? ≠ some '['.toUInt8 ∨
      21 ≤ s.length ∧ ((∀ name ∈ logMonths, ¬ name <+: s.drop 4) ∨ IsStamp s ∨ States signed s 0)) ∧
    ∀ line, '\n'.toUInt8 ∉ line → (CountedByStamp signed line ↔ signed = true ∧ 255 ∈ line ∨
      ∀ i, findChar line '['.toUInt8 0 = some i → Framed line → IsStamp (line.drop i) ∨ line.length - i < 20 ∨
        (∀ name ∈ logMonths, ¬ name <+: (line.drop i ++ [0]).drop 4) ∨
        ∃ t ≤ 0, States signed (line.drop i ++ [0]) t) := by
  refine ⟨checked_iff signed, ?_⟩
  intro line hline
  rw [countedByStamp_iff hline, parseLine_stamp_iff]

/-- A request with a time without colons. -/
def colonless : Bytes := txt "h - - [10/Oct/2023x13x55x36 +0000] \"GET / HTTP/1.1\" 200 5"

theorem colonless_counted_iff : CountedByStamp true colonless ↔ true = true ∧ 255 ∈ colonless ∨
    ∀ i, findChar colonless '['.toUInt8 0 = some i → Framed colonless → IsStamp (colonless.drop i) ∨
      colonless.length - i < 20 ∨ (∀ name ∈ logMonths, ¬ name <+: (colonless.drop i ++ [0]).drop 4) ∨
      ∃ t ≤ 0, States true (colonless.drop i ++ [0]) t :=
  (malformed_times_iff true).2 colonless (by decide)

/-- A time cut off before its last digit is read past its end, and one without colons has
a value and is counted. -/
theorem malformed_time_counted :
    ¬ Checked true (txt "[10/Oct/2023:13:55:3") ∧ ¬ Checked true (txt "[10/Oct/2023x13x55x36") ∧
      ¬ CountedByStamp true colonless := by
  have hcut : logParseTime true (txt "[10/Oct/2023:13:55:3") 20 = none := by decide +kernel
  have hvalue : logParseTime true (txt "[10/Oct/2023x13x55x36") 21 = some 1696946136 := by decide +kernel
  refine ⟨?_, ?_, ?_⟩
  · rintro ⟨v, hv, -⟩
    exact absurd (hcut.symm.trans hv) (by simp)
  · rintro ⟨v, hv, hstamp⟩
    have hv := Option.some.inj (hvalue.symm.trans hv)
    have hcolon := (hstamp (by omega)).colon
    exact absurd hcolon (by decide)
  · intro h
    have hsome : (parseLine true colonless).isSome = true := by decide +kernel
    have hbyte : ¬ (true = true ∧ 255 ∈ colonless) := by decide
    obtain ⟨i, hi, hstamp⟩ := ((countedByStamp_iff (by decide)).1 h).resolve_left hbyte hsome
    have hopen : findChar colonless '['.toUInt8 0 = some 6 := by decide +kernel
    obtain rfl := Option.some.inj (hopen.symm.trans hi)
    exact absurd hstamp.colon (by decide)

end NgxLuaCpp
