import NgxLuaCpp.Base
import NgxLuaCpp.Lib.Calendar
import Mathlib.Data.List.Infix
/-!
# The time of a log line

`log_parse_time` reads a buffer by fixed offsets. A read past the end of the
buffer has no value. `signed` says whether a plain `char` is.
-/
open Calendar

namespace NgxLuaCpp

/-- A plain `char` as an `int`. -/
def charValue (signed : Bool) (c : UInt8) : Int := if signed && 128 ≤ c.toNat then c.toNat - 256 else c.toNat

/-- An `int` or a sum as an `unsigned`. -/
def unsigned (x : Int) : Int := x % 4294967296

/-- The names `log_parse_time` compares with. -/
def logMonths : List Bytes :=
  ["Jan", "Feb", "Mar", "Apr", "May", "Jun", "Jul", "Aug", "Sep", "Oct", "Nov", "Dec"].map txt

/-- `strncmp(s, name, 3) == 0` for a name of three characters. -/
def sameStart : Bytes → Bytes → Option Bool
  | _, [] => some true
  | [], _ :: _ => none
  -- nothing is read beyond a difference
  | c :: s, d :: name => if c = d then sameStart s name else some false

/-- The loop over `log_months`, from the month `m` on. -/
def monthAt (s : Bytes) : List Bytes → Int → Option Int
  | [], _ => some (-1)
  | name :: names, m => do if ← sameStart s name then return m else monthAt s names (m + 1)

/-- `n` characters from `i` on, as decimal digits. -/
def digitsAt (signed : Bool) (s : Bytes) (i n : Nat) : Option Int :=
  (List.range n).foldlM (fun v k => do return v * 10 + (charValue signed (← s[i + k]?) - 48)) 0

/-- Days from the epoch, computed with years that start in March. -/
def daysFromCivil (year month day : Int) : Int :=
  let y := year - if month ≤ 2 then 1 else 0
  let era := (if 0 ≤ y then y else y - 399).tdiv 400
  let yoe := unsigned (y - era * 400)
  let mp := unsigned (month + if 2 < month then -3 else 9)
  let doy := unsigned (unsigned (153 * mp + 2) / 5 + unsigned day - 1)
  let doe := unsigned (yoe * 365 + yoe / 4 - yoe / 100 + doy)
  era * 146097 + doe - 719468

/-- `log_parse_time`; none is a read past the end of the text. -/
def logParseTime (signed : Bool) (s : Bytes) (len : Nat) : Option Int := do
  if len < 20 then return 0
  if (← s[0]?) ≠ '['.toUInt8 then return 0
  let day ← digitsAt signed s 1 2
  let month ← monthAt (s.drop 4) logMonths 1
  let year ← digitsAt signed s 8 4
  let hh ← digitsAt signed s 13 2
  let mi ← digitsAt signed s 16 2
  let ss ← digitsAt signed s 19 2
  if month < 0 then return 0
  return daysFromCivil year month day * 86400 + (hh * 3600 + mi * 60 + ss)

/-! ## The calendar formula -/

/-- `era` is `y / 400`, rounded down. -/
theorem era_eq (y : Int) : (if 0 ≤ y then y else y - 399).tdiv 400 = y / 400 := by
  split_ifs with h
  · exact Int.tdiv_eq_ediv_of_nonneg h
  · rw [Int.tdiv_eq_ediv]
    have hsign : Int.sign 400 = 1 := rfl
    split_ifs
    all_goals omega

theorem unsigned_eq {x : Int} (h0 : 0 ≤ x) (h : x < 4294967296) : unsigned x = x := Int.emod_eq_of_lt h0 h

/-- The formula counts in the calendar, but wraps around where the day is before the
March that its 400 years start with. -/
theorem daysFromCivil_eq (year : Int) {month : Nat} (h1 : 1 ≤ month) (h12 : month ≤ 12) {day : Int}
    (hday : -2147483648 ≤ day ∧ day < 2147483648) :
    daysFromCivil year month day = firstOfMonth year month + (day - 1) +
      if firstOfMonth year month + (day - 1) < cycleStart year month then 4294967296 else 0 := by
  rw [firstOfMonth_eq year h1 h12, cycleStart_eq]
  obtain ⟨y, hy⟩ : ∃ y, y = year - (if (month : Int) ≤ 2 then 1 else 0) := ⟨_, rfl⟩
  obtain ⟨mp, hmp⟩ : ∃ mp, mp = (month : Int) + (if 2 < (month : Int) then -3 else 9) := ⟨_, rfl⟩
  have hmp0 : 0 ≤ mp ∧ mp ≤ 11 := by
    rw [hmp]
    split_ifs <;> omega
  have hyear : (if month ≤ 2 then year - 1 else year) = y := by
    rw [hy]
    split_ifs <;> omega
  have hdays : ((if month ≤ 2 then 31 * (month - 1) + 306 else (153 * (month - 3) + 2) / 5 : Nat) : Int) =
      (153 * mp + 2) / 5 := by
    rw [hmp]
    split_ifs <;> omega
  unfold daysFromCivil
  dsimp only
  rw [era_eq, ← hy, ← hmp]
  simp only [hyear, hdays]
  generalize hbase : (153 * mp + 2) / 5 = base
  have hmpu : unsigned mp = mp := unsigned_eq (by omega) (by omega)
  have hyoe : unsigned (y - y / 400 * 400) = y - y / 400 * 400 := unsigned_eq (by omega) (by omega)
  have hbaseu : unsigned (153 * mp + 2) / 5 = base := by
    rw [unsigned_eq (by omega) (by omega), hbase]
  -- the wraparounds come to one
  have hwrap (a : Int) : unsigned (a + unsigned (base + unsigned day - 1)) = (a + base + (day - 1)) % 4294967296 := by
    unfold unsigned
    omega
  have h4 : (y - y / 400 * 400) / 4 = y / 4 - y / 400 * 100 := by omega
  have h100 : (y - y / 400 * 400) / 100 = y / 100 - y / 400 * 4 := by omega
  rw [hmpu, hyoe, hbaseu, hwrap, h4, h100]
  split_ifs
  all_goals omega

theorem daysFromCivil_date (d : Date) : daysFromCivil d.year d.month d.day = d.daysSinceEpoch := by
  have h1 := d.one_le_day
  have h31 := d.day_le_31
  have hcycle := cycleStart_le d.year d.one_le_month d.month_le
  rw [daysFromCivil_eq _ d.one_le_month d.month_le (by omega), if_neg (by omega), firstOfMonth_date, add_zero]

/-! ## What the reads come to -/

/-- The number a run of characters spells. -/
def digitsValue (signed : Bool) (cs : Bytes) : Int := cs.foldl (fun v c => v * 10 + (charValue signed c - 48)) 0

theorem digitsAt_eq (signed : Bool) {s : Bytes} {i n : Nat} (h : i + n ≤ s.length) :
    digitsAt signed s i n = some (digitsValue signed ((s.drop i).take n)) := by
  induction n with
  | zero => rfl
  | succ n ih =>
    have hlt : i + n < s.length := by omega
    have htake : (s.drop i).take (n + 1) = (s.drop i).take n ++ [s[i + n]] := by
      rw [List.take_add_one, List.getElem?_drop, List.getElem?_eq_getElem hlt, Option.toList_some]
    unfold digitsAt at ih ⊢
    rw [List.range_succ, List.foldlM_append, ih (by omega), htake, digitsValue, digitsValue, List.foldl_append]
    simp [List.getElem?_eq_getElem hlt]

theorem digitsAt_eq_none (signed : Bool) {s : Bytes} {i n : Nat} (h : s.length < i + n) (hn : 0 < n) :
    digitsAt signed s i n = none := by
  obtain ⟨n, rfl⟩ : ∃ k, n = k + 1 := ⟨n - 1, by omega⟩
  unfold digitsAt
  rw [List.range_succ, List.foldlM_append]
  simp [List.getElem?_eq_none (show s.length ≤ i + n by omega)]

theorem sameStart_eq {s name : Bytes} (h : name.length ≤ s.length) : sameStart s name = some (decide (name <+: s)) := by
  induction name generalizing s with
  | nil => simp [sameStart]
  | cons d name ih => cases s with
    | nil => simp at h
    | cons c s =>
      rw [List.length_cons, List.length_cons, Nat.add_le_add_iff_right] at h
      rw [sameStart]
      split
      · next heq => simp [ih h, heq, List.cons_prefix_cons]
      · next hne => simp [List.cons_prefix_cons, Ne.symm hne]

/-- The month whose name `s` starts with, from `m` on. -/
def monthIn (s : Bytes) : List Bytes → Int → Int
  | [], _ => -1
  | name :: names, m => if name <+: s then m else monthIn s names (m + 1)

theorem monthAt_eq {s : Bytes} (h : 3 ≤ s.length) {names : List Bytes} (hnames : ∀ name ∈ names, name.length = 3)
    (m : Int) : monthAt s names m = some (monthIn s names m) := by
  induction names generalizing m with
  | nil => rfl
  | cons name names ih =>
    have hlen := hnames name (by simp)
    rw [monthAt, sameStart_eq (by omega), monthIn]
    by_cases hp : name <+: s
    · simp [hp]
    · simpa [hp] using ih (fun n hn => hnames n (by simp [hn])) (m + 1)

theorem length_logMonths : ∀ name ∈ logMonths, name.length = 3 := by decide

/-- The month a buffer names, -1 where it names none. -/
def monthField (s : Bytes) : Int := monthIn (s.drop 4) logMonths 1

/-- The number `n` characters from `i` on spell. -/
def field (signed : Bool) (s : Bytes) (i n : Nat) : Int := digitsValue signed ((s.drop i).take n)

/-- What the fields of a buffer make. -/
def fieldSeconds (signed : Bool) (s : Bytes) : Int :=
  daysFromCivil (field signed s 8 4) (monthField s) (field signed s 1 2) * 86400 +
    (field signed s 13 2 * 3600 + field signed s 16 2 * 60 + field signed s 19 2)

theorem logParseTime_short {signed : Bool} {s : Bytes} {len : Nat} (h : len < 20) :
    logParseTime signed s len = some 0 := by
  simp [logParseTime, h]

theorem logParseTime_bracket {signed : Bool} {s : Bytes} {len : Nat} {c : UInt8} (hc : s[0]? = some c)
    (hne : c ≠ '['.toUInt8) : logParseTime signed s len = some 0 := by
  unfold logParseTime
  split_ifs
  · rfl
  · simp [hc, hne]

/-- All 21 characters are there. -/
theorem logParseTime_eq (signed : Bool) {s : Bytes} {len : Nat} (hlen : 20 ≤ len) (hs : 21 ≤ s.length)
    (hc : s[0]? = some '['.toUInt8) :
    logParseTime signed s len = some (if monthField s < 0 then 0 else fieldSeconds signed s) := by
  unfold logParseTime
  rw [if_neg (by omega), hc, digitsAt_eq signed (by omega), digitsAt_eq signed (by omega),
    digitsAt_eq signed (by omega), digitsAt_eq signed (by omega), digitsAt_eq signed (by omega),
    monthAt_eq (by rw [List.length_drop]; omega) length_logMonths]
  simp only [Option.bind_eq_bind, Option.bind_some, ne_eq, not_true_eq_false, if_false, Option.pure_def]
  rw [apply_ite some]
  rfl

/-- The 21st is not. -/
theorem logParseTime_eq_none (signed : Bool) {s : Bytes} (hs : s.length = 20) (hc : s[0]? = some '['.toUInt8) :
    logParseTime signed s 20 = none := by
  unfold logParseTime
  rw [if_neg (by omega), hc, digitsAt_eq signed (by omega), digitsAt_eq signed (by omega),
    digitsAt_eq signed (by omega), digitsAt_eq signed (by omega), digitsAt_eq_none signed (by omega) (by omega),
    monthAt_eq (by rw [List.length_drop]; omega) length_logMonths]
  simp

/-! ## The text of a time -/

/-- The name of a month, from 1 on. -/
def monthName (month : Nat) : Bytes := logMonths.getD (month - 1) []

/-- `[dd/Mon/yyyy:HH:MM:SS` -/
def stampText (day month year hour minute second : Nat) : Bytes :=
  txt "[" ++ lastDigits 2 day ++ txt "/" ++ monthName month ++ txt "/" ++ lastDigits 4 year ++ txt ":" ++
    lastDigits 2 hour ++ txt ":" ++ lastDigits 2 minute ++ txt ":" ++ lastDigits 2 second

/-- The text of a moment. -/
def stamp (m : Moment) : Bytes := stampText m.day m.month m.year m.hour m.minute m.second

theorem length_monthName {month : Nat} (h : 1 ≤ month ∧ month ≤ 12) : (monthName month).length = 3 := by
  obtain ⟨h1, h12⟩ := h
  interval_cases month
  all_goals rfl

theorem length_stampText {day month year hour minute second : Nat} (h : 1 ≤ month ∧ month ≤ 12) :
    (stampText day month year hour minute second).length = 21 := by
  simp [stampText, length_monthName h, txt]

theorem charValue_digit (signed : Bool) {d : Nat} (h : d < 10) : charValue signed (digit d) = 48 + d := by
  rw [charValue, toNat_digit h, if_neg (by simp; omega)]
  rfl

theorem digitsValue_lastDigits (signed : Bool) (w n : Nat) :
    digitsValue signed (lastDigits w n) = (n % 10 ^ w : Nat) := by
  induction w generalizing n with
  | zero => simp [lastDigits, digitsValue, Nat.mod_one]
  | succ w ih =>
    have hmod : n % 10 ^ (w + 1) = n / 10 % 10 ^ w * 10 + n % 10 := by
      rw [Nat.pow_succ', Nat.mod_mul]
      omega
    have := ih (n / 10)
    unfold digitsValue at this ⊢
    rw [lastDigits, List.foldl_append, this, List.foldl_cons, List.foldl_nil,
      charValue_digit signed (Nat.mod_lt n (by omega)), hmod]
    push_cast
    omega

theorem monthIn_take {s : Bytes} {names : List Bytes} (hnames : ∀ name ∈ names, name.length = 3) (m : Int) :
    monthIn (s.take 3) names m = monthIn s names m := by
  induction names generalizing m with
  | nil => rfl
  | cons name names ih =>
    have hlen := hnames name (by simp)
    have hstarts : name <+: s.take 3 ↔ name <+: s := by
      rw [List.prefix_iff_eq_take, List.prefix_iff_eq_take, hlen, List.take_take, Nat.min_self]
    rw [monthIn, monthIn, ih (fun n hn => hnames n (by simp [hn]))]
    simp only [hstarts]

theorem monthIn_monthName {month : Nat} (h : 1 ≤ month ∧ month ≤ 12) (rest : Bytes) :
    monthIn (monthName month ++ rest) logMonths 1 = month := by
  rw [← monthIn_take length_logMonths, List.take_left' (length_monthName h)]
  obtain ⟨h1, h12⟩ := h
  interval_cases month
  all_goals decide

/-- The buffer starts with a well-formed time. -/
def IsStamp (s : Bytes) : Prop :=
  ∃ day month year hour minute second : Nat, (1 ≤ day ∧ day ≤ 31) ∧ (1 ≤ month ∧ month ≤ 12) ∧ year < 10000 ∧
    hour < 24 ∧ minute < 60 ∧ second < 60 ∧ stampText day month year hour minute second <+: s

section
variable {month : Nat} (hmonth : 1 ≤ month ∧ month ≤ 12) (signed : Bool) (day year hour minute second : Nat)
  (rest : Bytes)
include hmonth

theorem monthField_stampText : monthField (stampText day month year hour minute second ++ rest) = month := by
  have hdrop : (stampText day month year hour minute second ++ rest).drop 4 = monthName month ++
      (txt "/" ++ lastDigits 4 year ++ txt ":" ++ lastDigits 2 hour ++ txt ":" ++ lastDigits 2 minute ++ txt ":" ++
        lastDigits 2 second ++ rest) := by
    simp only [stampText, List.append_assoc]
    rfl
  rw [monthField, hdrop, monthIn_monthName hmonth]

/-- Each field is read back. -/
theorem fields_stampText :
    let s := stampText day month year hour minute second ++ rest
    s[0]? = some '['.toUInt8 ∧ field signed s 1 2 = (day % 100 : Nat) ∧ field signed s 8 4 = (year % 10000 : Nat) ∧
      field signed s 13 2 = (hour % 100 : Nat) ∧ field signed s 16 2 = (minute % 100 : Nat) ∧
      field signed s 19 2 = (second % 100 : Nat) := by
  -- with the characters named, each offset is a count of them
  obtain ⟨a, b, c, hname⟩ := List.length_eq_three.1 (length_monthName hmonth)
  obtain ⟨y0, y1, y2, y3, hyear⟩ := List.length_eq_four.1 (length_lastDigits 4 year)
  have htwo (n : Nat) : ∃ c c', lastDigits 2 n = [c, c'] := List.length_eq_two.1 (length_lastDigits 2 n)
  obtain ⟨d0, d1, hday⟩ := htwo day
  obtain ⟨h0, h1, hhour⟩ := htwo hour
  obtain ⟨m0, m1, hminute⟩ := htwo minute
  obtain ⟨s0, s1, hsecond⟩ := htwo second
  have hd := digitsValue_lastDigits signed 2 day
  have hy := digitsValue_lastDigits signed 4 year
  have hh := digitsValue_lastDigits signed 2 hour
  have hm := digitsValue_lastDigits signed 2 minute
  have hs := digitsValue_lastDigits signed 2 second
  rw [hday] at hd
  rw [hyear] at hy
  rw [hhour] at hh
  rw [hminute] at hm
  rw [hsecond] at hs
  have hopen : txt "[" = ['['.toUInt8] := rfl
  have hslash : txt "/" = ['/'.toUInt8] := rfl
  have hcolon : txt ":" = [':'.toUInt8] := rfl
  dsimp only
  rw [stampText, hopen, hslash, hcolon, hname, hday, hyear, hhour, hminute, hsecond]
  simp only [field, List.cons_append, List.nil_append, List.drop_succ_cons, List.drop_zero, List.take_succ_cons,
    List.take_zero]
  exact ⟨rfl, hd, hy, hh, hm, hs⟩

end

/-- The stamp of a moment is read back in seconds. -/
theorem logParseTime_stamp (signed : Bool) (m : Moment) (hyear : m.year < 10000) (rest : Bytes) {len : Nat}
    (hlen : 20 ≤ len) : logParseTime signed (stamp m ++ rest) len = some m.seconds := by
  have hmonth := And.intro m.one_le_month m.month_le
  obtain ⟨hbracket, hday, hyr, hhour, hminute, hsecond⟩ :=
    fields_stampText hmonth signed m.day m.year m.hour m.minute m.second rest
  have hmf := monthField_stampText hmonth m.day m.year m.hour m.minute m.second rest
  have hlength : 21 ≤ (stamp m ++ rest).length := by
    rw [List.length_append, stamp, length_stampText hmonth]
    omega
  have h31 := m.toDate.day_le_31
  have h24 := m.hour_lt
  have h60 := m.minute_lt
  have h60' := m.second_lt
  rw [logParseTime_eq signed hlen hlength hbracket, fieldSeconds, stamp, hmf, hday, hyr, hhour, hminute, hsecond,
    if_neg (by omega), Nat.mod_eq_of_lt (show m.day < 100 by omega), Nat.mod_eq_of_lt hyear,
    Nat.mod_eq_of_lt (show m.hour < 100 by omega), Nat.mod_eq_of_lt (show m.minute < 100 by omega),
    Nat.mod_eq_of_lt (show m.second < 100 by omega), daysFromCivil_date, Moment.seconds]
  refine congrArg some ?_
  push_cast
  omega

/-! ## The time that is stated -/

/-- The characters state the second `t`: three of them name a month, and with the numbers
that the others spell it is that second in the calendar, however large the day, the hour,
the minute or the second. The day is not before the 400 years of its month. -/
def States (signed : Bool) (s : Bytes) (t : Int) : Prop :=
  ∃ month, 1 ≤ month ∧ month ≤ 12 ∧ monthName month <+: s.drop 4 ∧
    cycleStart (field signed s 8 4) month ≤ firstOfMonth (field signed s 8 4) month + (field signed s 1 2 - 1) ∧
    (firstOfMonth (field signed s 8 4) month + (field signed s 1 2 - 1)) * 86400 +
      (field signed s 13 2 * 3600 + field signed s 16 2 * 60 + field signed s 19 2) = t

/-- What any characters come to as digits. -/
theorem digitsValue_bounds (signed : Bool) (cs : Bytes) :
    -(23 * (10 ^ cs.length - 1)) ≤ digitsValue signed cs ∧ digitsValue signed cs ≤ 23 * (10 ^ cs.length - 1) := by
  induction cs using List.reverseRecOn with
  | nil => simp [digitsValue]
  | append_singleton cs c ih =>
    have hchar : -128 ≤ charValue signed c ∧ charValue signed c ≤ 255 := by
      have hlt := c.toNat_lt
      unfold charValue
      split
      · next h =>
        rw [Bool.and_eq_true, decide_eq_true_eq] at h
        omega
      · omega
    rw [digitsValue, List.foldl_append, ← digitsValue, List.length_append]
    simp only [List.foldl_cons, List.foldl_nil, List.length_cons, List.length_nil, pow_add, zero_add, pow_one]
    omega

theorem field_bounds (signed : Bool) (s : Bytes) (i n : Nat) :
    -(23 * (10 ^ n - 1)) ≤ field signed s i n ∧ field signed s i n ≤ 23 * (10 ^ n - 1) := by
  have hvalue := digitsValue_bounds signed ((s.drop i).take n)
  have hpow : (10 : Int) ^ ((s.drop i).take n).length ≤ 10 ^ n :=
    pow_le_pow_right₀ (by omega) (List.length_take_le n _)
  unfold field
  omega

/-- The loop over the months finds the first name that fits, or none. -/
theorem monthIn_cases (s : Bytes) (names : List Bytes) (m : Int) :
    (monthIn s names m = -1 ∧ ∀ name ∈ names, ¬ name <+: s) ∨
      ∃ (k : Nat) (name : Bytes), names[k]? = some name ∧ name <+: s ∧ monthIn s names m = m + k := by
  induction names generalizing m with
  | nil => exact .inl ⟨rfl, fun _ h => absurd h List.not_mem_nil⟩
  | cons name names ih =>
    rw [monthIn]
    by_cases hp : name <+: s
    · exact .inr ⟨0, name, rfl, hp, by simp [hp]⟩
    · rw [if_neg hp]
      rcases ih (m + 1) with ⟨hnone, hall⟩ | ⟨k, name', hk, hp', heq⟩
      · refine .inl ⟨hnone, fun n hn => ?_⟩
        rcases List.mem_cons.1 hn with rfl | hn
        · exact hp
        · exact hall n hn
      · refine .inr ⟨k + 1, name', hk, hp', ?_⟩
        rw [heq]
        push_cast
        omega

/-- A buffer names no month, or one. -/
theorem monthField_cases (s : Bytes) :
    (monthField s = -1 ∧ ∀ name ∈ logMonths, ¬ name <+: s.drop 4) ∨
      ∃ month : Nat, 1 ≤ month ∧ month ≤ 12 ∧ monthName month <+: s.drop 4 ∧ monthField s = month := by
  rcases monthIn_cases (s.drop 4) logMonths 1 with hnone | ⟨k, name, hk, hp, heq⟩
  · exact .inl hnone
  · have hlt : k < 12 := (List.getElem?_eq_some_iff.1 hk).1
    refine .inr ⟨k + 1, by omega, by omega, ?_, ?_⟩
    · rwa [monthName, List.getD_eq_getElem?_getD, Nat.add_sub_cancel, hk]
    · rw [monthField, heq]
      push_cast
      omega

theorem monthField_of_prefix {s : Bytes} {month : Nat} (h : 1 ≤ month ∧ month ≤ 12)
    (hp : monthName month <+: s.drop 4) : monthField s = month := by
  obtain ⟨rest, hrest⟩ := hp
  rw [monthField, ← hrest, monthIn_monthName h]

/-- What the fields make is what they state, but where the count wraps around, which makes it
larger than any year of four digits. -/
theorem fieldSeconds_cases (signed : Bool) {s : Bytes} (hmonth : 0 ≤ monthField s) :
    States signed s (fieldSeconds signed s) ∨
      300000000000 < fieldSeconds signed s ∧ ∀ t, ¬ States signed s t := by
  rcases monthField_cases s with ⟨hnone, -⟩ | ⟨month, h1, h12, hp, heq⟩
  · omega
  have hday := field_bounds signed s 1 2
  have hyear := field_bounds signed s 8 4
  have hhour := field_bounds signed s 13 2
  have hminute := field_bounds signed s 16 2
  have hsecond := field_bounds signed s 19 2
  have hfirst := firstOfMonth_eq (field signed s 8 4) h1 h12
  have hrange : -2147483648 ≤ field signed s 1 2 ∧ field signed s 1 2 < 2147483648 := by omega
  have hcivil := daysFromCivil_eq (field signed s 8 4) h1 h12 hrange
  rw [fieldSeconds, heq, hcivil]
  split
  · next hwrap =>
    refine .inr ⟨?_, ?_⟩
    · clear hcivil hwrap
      dsimp only at hfirst
      split at hfirst
      all_goals omega
    · rintro t ⟨month', h1', h12', hp', hcycle, -⟩
      have hsame := monthField_of_prefix ⟨h1', h12'⟩ hp'
      obtain rfl : month' = month := by omega
      omega
  · next hcycle =>
    refine .inl ⟨month, h1, h12, hp, by omega, ?_⟩
    rw [add_zero]

theorem States.eq_fieldSeconds {signed : Bool} {s : Bytes} {t : Int} (h : States signed s t) :
    0 ≤ monthField s ∧ fieldSeconds signed s = t := by
  obtain ⟨month, h1, h12, hp, hcycle, rfl⟩ := h
  have hday := field_bounds signed s 1 2
  have hmonth := monthField_of_prefix ⟨h1, h12⟩ hp
  refine ⟨by omega, ?_⟩
  rw [fieldSeconds, hmonth, daysFromCivil_eq _ h1 h12 (by omega), if_neg (by omega), add_zero]

theorem states_iff {signed : Bool} {s : Bytes} {t : Int} (ht : t ≤ 300000000000) :
    States signed s t ↔ 0 ≤ monthField s ∧ fieldSeconds signed s = t := by
  constructor
  · exact States.eq_fieldSeconds
  · rintro ⟨hmonth, rfl⟩
    rcases fieldSeconds_cases signed hmonth with hstates | ⟨hlarge, -⟩
    · exact hstates
    · omega

theorem states_nonpos_iff {signed : Bool} {s : Bytes} :
    (∃ t ≤ 0, States signed s t) ↔ 0 ≤ monthField s ∧ fieldSeconds signed s ≤ 0 := by
  constructor
  · rintro ⟨t, ht, hstates⟩
    obtain ⟨hmonth, rfl⟩ := hstates.eq_fieldSeconds
    exact ⟨hmonth, ht⟩
  · rintro ⟨hmonth, hle⟩
    exact ⟨_, hle, (states_iff (by omega)).2 ⟨hmonth, rfl⟩⟩

/-- A year of four digits ends before this. -/
theorem seconds_le {m : Moment} (hyear : m.year < 10000) : m.seconds ≤ 300000000000 := by
  have h31 := m.toDate.day_le_31
  have h24 := m.hour_lt
  have h60 := m.minute_lt
  have h60' := m.second_lt
  have hfirst := firstOfMonth_eq m.year m.one_le_month m.month_le
  have h12 := m.month_le
  rw [Moment.seconds, ← firstOfMonth_date]
  dsimp only at hfirst
  split at hfirst
  all_goals omega

theorem monthField_neg_iff {s : Bytes} : monthField s < 0 ↔ ∀ name ∈ logMonths, ¬ name <+: s.drop 4 := by
  rcases monthField_cases s with ⟨hnone, hall⟩ | ⟨month, h1, h12, hp, heq⟩
  · exact iff_of_true (by omega) hall
  · refine iff_of_false (by omega) fun h => h _ ?_ hp
    rw [monthName, List.getD_eq_getElem?_getD, List.getElem?_eq_getElem (by simp [logMonths]; omega)]
    exact List.getElem_mem _

/-! ## Every valid time -/

/-- On every valid date and time the calendar's count of seconds, so later times get
larger ones. -/
theorem logParseTime_calendar (signed : Bool) :
    (∀ (m : Moment) (rest : Bytes), m.year < 10000 →
      logParseTime signed (stamp m ++ rest) (stamp m ++ rest).length = some m.seconds) ∧
    ∀ (m n : Moment) (rest rest' : Bytes), m.year < 10000 → n.year < 10000 → m.fields < n.fields →
      ∃ t t' : Int, logParseTime signed (stamp m ++ rest) (stamp m ++ rest).length = some t ∧
        logParseTime signed (stamp n ++ rest') (stamp n ++ rest').length = some t' ∧ t < t' := by
  have hparse (m : Moment) (rest : Bytes) (hyear : m.year < 10000) :
      logParseTime signed (stamp m ++ rest) (stamp m ++ rest).length = some m.seconds := by
    apply logParseTime_stamp signed m hyear
    rw [List.length_append, stamp, length_stampText ⟨m.one_le_month, m.month_le⟩]
    omega
  refine ⟨hparse, ?_⟩
  intro m n rest rest' hm hn hlt
  exact ⟨m.seconds, n.seconds, hparse m rest hm, hparse n rest' hn, Moment.seconds_lt hlt⟩

/-- Noon of the 29th of February 2024, and a midnight of the March after it. -/
def leapNoon : Moment :=
  ⟨⟨2024, 2, 29, by decide, by decide, by decide, by decide⟩, 12, 0, 0, by decide, by decide, by decide⟩

def leapMidnight : Moment :=
  ⟨⟨2024, 3, 2, by decide, by decide, by decide, by decide⟩, 0, 0, 0, by decide, by decide, by decide⟩

theorem leap_day_parsed : ∃ t t' : Int,
    logParseTime true (stamp leapNoon ++ txt " +0000]") (stamp leapNoon ++ txt " +0000]").length = some t ∧
      logParseTime true (stamp leapMidnight ++ []) (stamp leapMidnight ++ []).length = some t' ∧ t < t' :=
  (logParseTime_calendar true).2 leapNoon leapMidnight (txt " +0000]") [] (by decide) (by decide) (by decide)

example : logParseTime true (txt "[29/Feb/2024:12:34:56 +0000]") 28 = some 1709210096 := by decide +kernel

end NgxLuaCpp
