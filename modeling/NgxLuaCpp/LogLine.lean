import NgxLuaCpp.LogTime
import NgxLuaCpp.Lib.Tally
/-!
# A line of an access log

The body of `log_analyze`'s loop for one line: what it takes out of the line,
and what it counts. A count, and a time, is a `double` below 2^53, so exact.
-/
open Calendar

namespace NgxLuaCpp

/-! ## Finding -/

/-- `s.find(c, start)` -/
def findChar (s : Bytes) (c : UInt8) (start : Nat) : Option Nat :=
  ((s.drop start).findIdx? fun b => b == c).map (start + ·)

/-- `s.find(text)` -/
def findText (s text : Bytes) : Option Nat := (List.range s.length).find? fun i => text.isPrefixOf (s.drop i)

/-- `s.substr(pos, n)` -/
def substr (s : Bytes) (pos n : Nat) : Bytes := (s.drop pos).take n

theorem findChar_append {p q : Bytes} {c : UInt8} (h : c ∉ q) (r : Bytes) {n : Nat} (hn : n = p.length) :
    findChar (p ++ (q ++ c :: r)) c n = some (p.length + q.length) := by
  have hidx : (q ++ c :: r).findIdx? (fun b => b == c) = some q.length := by
    rw [List.findIdx?_append, List.findIdx?_eq_none_iff.2]
    · simp [List.findIdx?_cons]
    · intro b hb
      rw [beq_eq_false_iff_ne]
      rintro rfl
      exact h hb
  subst hn
  rw [findChar, List.drop_left, hidx, Option.map_some]

theorem substr_append {p q r : Bytes} {pos n : Nat} (hpos : p.length = pos) (hn : q.length = n) :
    substr (p ++ (q ++ r)) pos n = q := by
  rw [substr, List.drop_left' hpos, List.take_left' hn]

theorem findText_le {s text : Bytes} {j : Nat} (hj : j < s.length) (h : text <+: s.drop j) :
    ∃ i ≤ j, findText s text = some i := by
  cases hf : findText s text with
  | none =>
    have := List.find?_eq_none.1 hf j (List.mem_range.2 hj)
    rw [List.isPrefixOf_iff_prefix] at this
    exact absurd h this
  | some i =>
    refine ⟨i, ?_, rfl⟩
    by_contra hlt
    have hbefore := (List.find?_range_eq_some.1 hf).2.2 j (by omega)
    rw [List.isPrefixOf_iff_prefix.2 h] at hbefore
    cases hbefore

/-! ## Parsing -/

/-- What a counted line is counted for. -/
@[ext]
structure LogEntry where
  ts : Int
  status : Bytes
  url : Option Bytes
  deriving DecidableEq

def isBlank (c : UInt8) : Bool := c == ' '.toUInt8 || c == '\t'.toUInt8

def isDigit (c : UInt8) : Bool := 48 ≤ c.toNat && c.toNat < 58

/-- Between the first two spaces of `METHOD /path HTTP/x.y`. -/
def requestUrl (req : Bytes) : Option Bytes := do
  let sp1 ← findChar req ' '.toUInt8 0
  let sp2 ← findChar req ' '.toUInt8 (sp1 + 1)
  return substr req (sp1 + 1) (sp2 - sp1 - 1)

/-- `log_parse_time` from `tsStart` on. The string's terminator can be read too. -/
def timeFrom (signed : Bool) (line : Bytes) (tsStart : Nat) : Option Int :=
  logParseTime signed (line.drop tsStart ++ [0]) (line.length - tsStart)

/-- What `line` is counted for, if it is. -/
def parseLine (signed : Bool) (line : Bytes) : Option LogEntry := do
  let tsStart ← findChar line '['.toUInt8 0
  let quote1 ← findChar line '"'.toUInt8 0
  let quote2 ← findChar line '"'.toUInt8 (quote1 + 1)
  let httpPos ← findText line (txt "HTTP/")
  if httpPos < quote2 then
    let ts ← timeFrom signed line tsStart
    let req := substr line (quote1 + 1) (quote2 - quote1 - 1)
    let status := ((line.drop (quote2 + 1)).dropWhile isBlank).takeWhile isDigit
    if 0 < ts ∧ status ≠ [] then some ⟨ts, status, requestUrl req⟩ else none
  else none

/-! ## The time a line states -/

theorem findChar_eq_some {s : Bytes} {c : UInt8} {i : Nat} (h : findChar s c 0 = some i) :
    i < s.length ∧ s[i]? = some c := by
  rw [findChar, List.drop_zero] at h
  obtain ⟨j, hj, rfl⟩ := Option.map_eq_some_iff.1 h
  obtain ⟨hlt, hc, -⟩ := List.findIdx?_eq_some_iff_getElem.1 hj
  rw [Nat.zero_add, List.getElem?_eq_getElem hlt]
  exact ⟨hlt, congrArg some (by simpa using hc)⟩

theorem timeFrom_eq {signed : Bool} {line : Bytes} {i : Nat} (hi : findChar line '['.toUInt8 0 = some i) :
    timeFrom signed line i = some (if 20 ≤ line.length - i ∧ 0 ≤ monthField (line.drop i ++ [0]) then
      fieldSeconds signed (line.drop i ++ [0]) else 0) := by
  obtain ⟨hlt, hc⟩ := findChar_eq_some hi
  unfold timeFrom
  by_cases hlen : line.length - i < 20
  · rw [logParseTime_short hlen, if_neg (by omega)]
  · have hbracket : (line.drop i ++ [0])[0]? = some '['.toUInt8 := by
      rw [List.getElem?_append_left (by rw [List.length_drop]; omega), List.getElem?_drop]
      exact hc
    rw [logParseTime_eq signed (Nat.le_of_not_lt hlen) (by simp; omega) hbracket, Option.some.injEq]
    split_ifs
    all_goals omega

/-- The time taken at the first bracket is the one that the characters there state, with
the terminator as one more. -/
theorem timeFrom_eq_iff {signed : Bool} {line : Bytes} {i : Nat} (hi : findChar line '['.toUInt8 0 = some i) {t : Int}
    (ht : 0 < t) (hle : t ≤ 300000000000) :
    timeFrom signed line i = some t ↔ 20 ≤ line.length - i ∧ States signed (line.drop i ++ [0]) t := by
  rw [timeFrom_eq hi, states_iff hle, Option.some.injEq]
  split_ifs
  all_goals omega

theorem timeFrom_pos_iff {signed : Bool} {line : Bytes} {i : Nat} (hi : findChar line '['.toUInt8 0 = some i) :
    (∃ ts, timeFrom signed line i = some ts ∧ 0 < ts) ↔
      ¬ (line.length - i < 20 ∨ (∀ name ∈ logMonths, ¬ name <+: (line.drop i ++ [0]).drop 4) ∨
        ∃ t ≤ 0, States signed (line.drop i ++ [0]) t) := by
  rw [← monthField_neg_iff, states_nonpos_iff, timeFrom_eq hi]
  simp only [Option.some.injEq, exists_eq_left']
  split_ifs
  all_goals omega

/-! ## Counting -/

/-- The variables the loop fills. -/
structure LogCounts where
  lines : Nat
  total : Nat
  firstTs : Int
  lastTs : Int
  secondCounts : SortedMap Int Nat
  statusCounts : SortedMap Bytes Nat
  urlCounts : SortedMap Bytes Nat

namespace LogCounts

/-- The counts before the first line. -/
def start : LogCounts := ⟨0, 0, 0, 0, .empty, .empty, .empty⟩

/-- What a counted line adds. -/
def count (st : LogCounts) (e : LogEntry) : LogCounts :=
  { st with
    total := st.total + 1
    firstTs := if st.firstTs = 0 then e.ts else st.firstTs
    lastTs := e.ts
    secondCounts := st.secondCounts.bump e.ts
    statusCounts := st.statusCounts.bump e.status
    urlCounts := match e.url with
      | none => st.urlCounts
      | some url => st.urlCounts.bump url }

/-- The end of a line. -/
def addLine (signed : Bool) (st : LogCounts) (line : Bytes) : LogCounts :=
  let st := { st with lines := st.lines + 1 }
  match parseLine signed line with
  | none => st
  | some e => st.count e

/-- A state tells what was counted. -/
theorem count_injective {e e' : LogEntry} (h : start.count e = start.count e') : e = e' := by
  have hts : e.ts = e'.ts := congrArg lastTs h
  have hstatus : e.status = e'.status := by
    have := congrArg (fun st => st.statusCounts.entries) h
    exact congrArg Prod.fst (List.cons.inj this).1
  have hurl : e.url = e'.url := by
    have := congrArg (fun st => st.urlCounts.entries) h
    cases hu : e.url with
    | none => cases hu' : e'.url with
      | none => rfl
      | some u' =>
        simp only [count, hu, hu', start, SortedMap.bump_empty] at this
        cases this
    | some u => cases hu' : e'.url with
      | none =>
        simp only [count, hu, hu', start, SortedMap.bump_empty] at this
        cases this
      | some u' =>
        simp only [count, hu, hu', start, SortedMap.bump_empty] at this
        exact congrArg some (congrArg Prod.fst (List.cons.inj this).1)
  exact LogEntry.ext hts hstatus hurl

theorem addLine_of_parseLine {signed : Bool} {line : Bytes} {e : LogEntry} (h : parseLine signed line = some e)
    (st : LogCounts) : st.addLine signed line = { st with lines := st.lines + 1 }.count e := by
  unfold addLine
  rw [h]

/-- What the first line was counted for is what it parses as. -/
theorem parseLine_of_addLine {signed : Bool} {line : Bytes} {e : LogEntry}
    (h : start.addLine signed line = { start with lines := start.lines + 1 }.count e) :
    parseLine signed line = some e := by
  unfold addLine at h
  cases hp : parseLine signed line with
  | none =>
    rw [hp] at h
    exact absurd (congrArg total h) (by simp [count, start])
  | some e' =>
    rw [hp] at h
    have hsame : start.count e' = start.count e := congrArg (fun st => { st with lines := 0 }) h
    rw [count_injective hsame]

end LogCounts

/-! ## The combined format -/

/-- `addr - user [dd/Mon/yyyy:HH:MM:SS zone] "METHOD uri HTTP/x.y" status ...` -/
structure AccessLine where
  addr : Bytes
  user : Bytes
  time : Moment
  zone : Bytes
  method : Bytes
  uri : Bytes
  version : Bytes
  status : Bytes
  rest : Bytes
  unquoted : ∀ s ∈ [addr, user, zone, method, uri, version], '"'.toUInt8 ∉ s
  unspaced : ∀ s ∈ [method, uri], ' '.toUInt8 ∉ s
  unbroken : ∀ s ∈ [addr, user, zone, method, uri, version, rest], '\n'.toUInt8 ∉ s
  year_lt : time.year < 10000
  after_epoch : 0 < time.seconds
  status_ne : status ≠ []
  status_digits : ∀ c ∈ status, isDigit c = true

namespace AccessLine
variable (l : AccessLine)

/-- What stands before the time. -/
def client : Bytes := l.addr ++ txt " - " ++ l.user ++ txt " "

/-- What stands before the request. -/
def head : Bytes := l.client ++ stamp l.time ++ txt " " ++ l.zone ++ txt "] "

def request : Bytes := l.method ++ txt " " ++ l.uri ++ txt " HTTP/" ++ l.version

def text : Bytes := l.head ++ txt "\"" ++ l.request ++ txt "\" " ++ l.status ++ txt " " ++ l.rest

theorem mem_lastDigits {b : UInt8} {w n : Nat} (h : b ∈ lastDigits w n) : 48 ≤ b.toNat ∧ b.toNat < 58 := by
  induction w generalizing n with
  | zero => simp [lastDigits] at h
  | succ w ih =>
    rcases List.mem_append.1 h with h | h
    · exact ih h
    · rw [List.mem_singleton.1 h, toNat_digit (Nat.mod_lt n (by omega))]
      omega

/-- Every character of a time comes after the quote and the newline. -/
theorem le_of_mem_stamp {c : UInt8} {m : Moment} (h : c ∈ stamp m) : 47 ≤ c.toNat := by
  have hdigits {w n : Nat} (h : c ∈ lastDigits w n) : 47 ≤ c.toNat := Nat.le_of_succ_le (mem_lastDigits h).1
  have hname : ∀ name ∈ logMonths, ∀ c ∈ name, 47 ≤ c.toNat := by decide +kernel
  have hmonth (h : c ∈ monthName m.month) : 47 ≤ c.toNat := by
    have h1 := m.one_le_month
    have h12 := m.month_le
    have hlt : m.month - 1 < logMonths.length := by simp only [logMonths, List.length_map, List.length_cons]; omega
    rw [monthName, List.getD_eq_getElem?_getD, List.getElem?_eq_getElem hlt] at h
    exact hname _ (List.getElem_mem hlt) c h
  have hbracket : ∀ c ∈ txt "[", 47 ≤ c.toNat := by decide +kernel
  have hslash : ∀ c ∈ txt "/", 47 ≤ c.toNat := by decide +kernel
  have hcolon : ∀ c ∈ txt ":", 47 ≤ c.toNat := by decide +kernel
  simp only [stamp, stampText, List.mem_append] at h
  rcases h with ((((((((((h | h) | h) | h) | h) | h) | h) | h) | h) | h) | h) | h
  · exact hbracket c h
  · exact hdigits h
  · exact hslash c h
  · exact hmonth h
  · exact hslash c h
  · exact hdigits h
  · exact hcolon c h
  · exact hdigits h
  · exact hcolon c h
  · exact hdigits h
  · exact hcolon c h
  · exact hdigits h

theorem quote_notMem_stamp (m : Moment) : '"'.toUInt8 ∉ stamp m := fun h => absurd (le_of_mem_stamp h) (by decide)

theorem quote_notMem_head : '"'.toUInt8 ∉ l.head := by
  have haddr := l.unquoted l.addr (by simp)
  have huser := l.unquoted l.user (by simp)
  have hzone := l.unquoted l.zone (by simp)
  have hdash : '"'.toUInt8 ∉ txt " - " := by decide
  have hspace : '"'.toUInt8 ∉ txt " " := by decide
  have hclose : '"'.toUInt8 ∉ txt "] " := by decide
  simp only [head, client, List.mem_append, not_or]
  exact ⟨⟨⟨⟨⟨⟨⟨haddr, hdash⟩, huser⟩, hspace⟩, quote_notMem_stamp _⟩, hspace⟩, hzone⟩, hclose⟩

theorem quote_notMem_request : '"'.toUInt8 ∉ l.request := by
  have hmethod := l.unquoted l.method (by simp)
  have huri := l.unquoted l.uri (by simp)
  have hversion := l.unquoted l.version (by simp)
  have hspace : '"'.toUInt8 ∉ txt " " := by decide
  have hhttp : '"'.toUInt8 ∉ txt " HTTP/" := by decide
  simp only [request, List.mem_append, not_or]
  exact ⟨⟨⟨⟨hmethod, hspace⟩, huri⟩, hhttp⟩, hversion⟩

/-- The line around its two quotes. -/
theorem text_eq :
    l.text = l.head ++ '"'.toUInt8 :: (l.request ++ '"'.toUInt8 :: (txt " " ++ l.status ++ txt " " ++ l.rest)) := by
  have hopen : txt "\"" = ['"'.toUInt8] := by decide
  have hclose : txt "\" " = '"'.toUInt8 :: txt " " := by decide
  simp only [text, hopen, hclose, List.append_assoc, List.cons_append, List.nil_append]

theorem find_quote1 : findChar l.text '"'.toUInt8 0 = some l.head.length := by
  rw [text_eq]
  simpa using findChar_append (p := []) l.quote_notMem_head _ rfl

theorem find_quote2 :
    findChar l.text '"'.toUInt8 (l.head.length + 1) = some (l.head.length + 1 + l.request.length) := by
  rw [text_eq, List.append_cons]
  simpa using findChar_append (p := l.head ++ ['"'.toUInt8]) l.quote_notMem_request _ (by simp)

/-- There is an `HTTP/` in the text of a log line. -/
theorem find_http : ∃ i < l.head.length + 1 + l.request.length, findText l.text (txt "HTTP/") = some i := by
  have hhttp : txt " HTTP/" = txt " " ++ txt "HTTP/" := by decide
  have hdrop : ∃ before after : Bytes, l.text = before ++ (txt "HTTP/" ++ after) ∧
      before.length < l.head.length + 1 + l.request.length := by
    refine ⟨l.head ++ txt "\"" ++ l.method ++ txt " " ++ l.uri ++ txt " ",
      l.version ++ txt "\" " ++ l.status ++ txt " " ++ l.rest, ?_, ?_⟩
    · simp only [text, request, hhttp, List.append_assoc]
    · simp [request, txt]
      omega
  obtain ⟨before, after, heq, hlt⟩ := hdrop
  have hlen : before.length < l.text.length := by
    rw [heq]
    simp [txt]
  have hstarts : txt "HTTP/" <+: l.text.drop before.length := by
    rw [heq, List.drop_left]
    exact List.prefix_append _ _
  obtain ⟨i, hi, hfind⟩ := findText_le hlen hstarts
  exact ⟨i, by omega, hfind⟩

/-- The URL is read back. -/
theorem requestUrl_request : requestUrl l.request = some l.uri := by
  have hmethod := l.unspaced l.method (by simp)
  have huri := l.unspaced l.uri (by simp)
  have hspace : txt " " = [' '.toUInt8] := by decide
  have hhttp : txt " HTTP/" = ' '.toUInt8 :: txt "HTTP/" := by decide
  have heq : l.request = l.method ++ ' '.toUInt8 :: (l.uri ++ ' '.toUInt8 :: (txt "HTTP/" ++ l.version)) := by
    simp only [request, hspace, hhttp, List.append_assoc, List.cons_append, List.nil_append]
  have hsp1 : findChar l.request ' '.toUInt8 0 = some l.method.length := by
    rw [heq]
    simpa using findChar_append (p := []) hmethod _ rfl
  have hsp2 : findChar l.request ' '.toUInt8 (l.method.length + 1) = some (l.method.length + 1 + l.uri.length) := by
    rw [heq, List.append_cons]
    simpa using findChar_append (p := l.method ++ [' '.toUInt8]) huri _ (by simp)
  have hurl : substr l.request (l.method.length + 1) l.uri.length = l.uri := by
    rw [heq, List.append_cons]
    exact substr_append (by simp) rfl
  simp only [requestUrl, hsp1, hsp2, Option.bind_eq_bind, Option.bind_some, Option.pure_def,
    show l.method.length + 1 + l.uri.length - l.method.length - 1 = l.uri.length by omega]
  exact congrArg some hurl

/-- The status is read back. -/
theorem status_text :
    ((l.text.drop (l.head.length + 1 + l.request.length + 1)).dropWhile isBlank).takeWhile isDigit = l.status := by
  have hdrop : l.text.drop (l.head.length + 1 + l.request.length + 1) =
      ' '.toUInt8 :: (l.status ++ (txt " " ++ l.rest)) := by
    have heq : l.text = (l.head ++ '"'.toUInt8 :: (l.request ++ ['"'.toUInt8])) ++
        ' '.toUInt8 :: (l.status ++ (txt " " ++ l.rest)) := by
      rw [text_eq]
      simp only [List.append_assoc, List.cons_append, List.nil_append]
      rfl
    rw [heq, List.drop_left' (by simp; omega)]
  obtain ⟨d, ds, hstatus⟩ := List.exists_cons_of_ne_nil l.status_ne
  have hd : isDigit d = true := l.status_digits d (by rw [hstatus]; simp)
  have hblank : isBlank d = false := by
    rw [isBlank, Bool.or_eq_false_iff, beq_eq_false_iff_ne, beq_eq_false_iff_ne]
    constructor
    all_goals
      rintro rfl
      exact absurd hd (by decide)
  rw [hdrop, List.dropWhile_cons_of_pos (by decide), hstatus, List.cons_append,
    List.dropWhile_cons_of_neg (by simp [hblank]), ← List.cons_append, ← hstatus,
    List.takeWhile_append_of_pos l.status_digits]
  have hspace : txt " " = [' '.toUInt8] := by decide
  rw [hspace, List.cons_append, List.takeWhile_cons_of_neg (by decide), List.append_nil]

/-- The time the parser reads: at the first bracket. -/
def bracketTime (signed : Bool) (line : Bytes) : Option Int := do timeFrom signed line (← findChar line '['.toUInt8 0)

/-- Only the time can come out wrong. -/
theorem parseLine_text (signed : Bool) : parseLine signed l.text =
    (bracketTime signed l.text).bind fun ts => if 0 < ts then some ⟨ts, l.status, some l.uri⟩ else none := by
  obtain ⟨i, hi, hhttp⟩ := l.find_http
  have hreq :
      substr l.text (l.head.length + 1) (l.head.length + 1 + l.request.length - l.head.length - 1) = l.request := by
    rw [show l.head.length + 1 + l.request.length - l.head.length - 1 = l.request.length by omega, text_eq,
      List.append_cons]
    exact substr_append (by simp) rfl
  unfold parseLine bracketTime
  simp only [find_quote1, find_quote2, hhttp, Option.bind_eq_bind, Option.bind_some, hi, if_true, status_text, hreq,
    requestUrl_request, ne_eq, l.status_ne, not_false_eq_true, and_true, Option.bind_assoc]

/-- The time is read back. -/
theorem bracketTime_text (signed : Bool) (h : '['.toUInt8 ∉ l.addr ++ l.user) :
    bracketTime signed l.text = some l.time.seconds := by
  have hmonth := And.intro l.time.one_le_month l.time.month_le
  obtain ⟨tail, htail⟩ : ∃ tail, l.text = l.client ++ (stamp l.time ++ tail) :=
    ⟨_, by simp only [text, head, List.append_assoc]; rfl⟩
  have hclient : '['.toUInt8 ∉ l.client := by
    have hdash : '['.toUInt8 ∉ txt " - " := by decide
    have hspace : '['.toUInt8 ∉ txt " " := by decide
    rw [List.mem_append, not_or] at h
    simp only [client, List.mem_append, not_or]
    exact ⟨⟨⟨h.1, hdash⟩, h.2⟩, hspace⟩
  obtain ⟨more, hstamp⟩ : ∃ more, stamp l.time ++ tail = '['.toUInt8 :: more := ⟨_, rfl⟩
  have hfind : findChar l.text '['.toUInt8 0 = some l.client.length := by
    rw [htail, hstamp]
    simpa using findChar_append (p := []) hclient more rfl
  have hlen : 20 ≤ l.text.length - l.client.length := by
    rw [htail, List.length_append, List.length_append, stamp, length_stampText hmonth]
    omega
  rw [bracketTime, hfind, Option.bind_eq_bind, Option.bind_some, timeFrom, htail, List.drop_left, List.append_assoc,
    ← htail]
  exact logParseTime_stamp signed l.time l.year_lt _ hlen

/-- A line in the combined format parses as what it says, where the first bracket is
that of the time or is followed by the same time. -/
theorem parseLine_text_iff (signed : Bool) :
    parseLine signed l.text = some ⟨l.time.seconds, l.status, some l.uri⟩ ↔
      '['.toUInt8 ∉ l.addr ++ l.user ∨ ∃ i, findChar l.text '['.toUInt8 0 = some i ∧ 20 ≤ l.text.length - i ∧
        States signed (l.text.drop i ++ [0]) l.time.seconds := by
  have hbracket : bracketTime signed l.text = some l.time.seconds ↔
      ∃ i, findChar l.text '['.toUInt8 0 = some i ∧ 20 ≤ l.text.length - i ∧
        States signed (l.text.drop i ++ [0]) l.time.seconds := by
    unfold bracketTime
    rw [Option.bind_eq_bind, Option.bind_eq_some_iff]
    refine exists_congr fun i => and_congr_right fun hi => ?_
    exact timeFrom_eq_iff hi l.after_epoch (seconds_le l.year_lt)
  rw [parseLine_text, ← hbracket]
  constructor
  · intro h
    obtain ⟨ts, hts, h⟩ := Option.bind_eq_some_iff.1 h
    split at h
    · have hsame := congrArg LogEntry.ts (Option.some.inj h)
      exact .inr (hts.trans (congrArg some hsame))
    · cases h
  · intro h
    have htime : bracketTime signed l.text = some l.time.seconds := by
      rcases h with h | h
      · exact l.bracketTime_text signed h
      · exact h
    rw [htime]
    simp [l.after_epoch]

theorem newline_notMem_text : '\n'.toUInt8 ∉ l.text := by
  have hfields := l.unbroken
  simp only [List.mem_cons, List.not_mem_nil, or_false, forall_eq_or_imp, forall_eq] at hfields
  obtain ⟨haddr, huser, hzone, hmethod, huri, hversion, hrest⟩ := hfields
  have hstamp : '\n'.toUInt8 ∉ stamp l.time := fun h => absurd (le_of_mem_stamp h) (by decide)
  have hstatus : '\n'.toUInt8 ∉ l.status := fun h => absurd (l.status_digits _ h) (by decide)
  have hdash : '\n'.toUInt8 ∉ txt " - " := by decide
  have hspace : '\n'.toUInt8 ∉ txt " " := by decide
  have hclose : '\n'.toUInt8 ∉ txt "] " := by decide
  have hquote : '\n'.toUInt8 ∉ txt "\"" := by decide
  have hhttp : '\n'.toUInt8 ∉ txt " HTTP/" := by decide
  have hend : '\n'.toUInt8 ∉ txt "\" " := by decide
  simp only [text, head, client, request, List.mem_append, not_or]
  simp only [haddr, huser, hzone, hmethod, huri, hversion, hrest, hstamp, hstatus, hdash, hspace, hclose, hquote,
    hhttp, hend, not_false_eq_true, and_self]

end AccessLine

/-! ## Malformed times -/

/-- All of a counted line but its time. -/
def Framed (line : Bytes) : Prop :=
  ∃ quote1 quote2 httpPos, findChar line '"'.toUInt8 0 = some quote1 ∧
    findChar line '"'.toUInt8 (quote1 + 1) = some quote2 ∧ findText line (txt "HTTP/") = some httpPos ∧
    httpPos < quote2 ∧ ((line.drop (quote2 + 1)).dropWhile isBlank).takeWhile isDigit ≠ []

/-- What a line needs to be counted. -/
theorem parseLine_isSome {signed : Bool} {line : Bytes} : (parseLine signed line).isSome = true ↔
    ∃ i ts, findChar line '['.toUInt8 0 = some i ∧ timeFrom signed line i = some ts ∧ 0 < ts ∧ Framed line := by
  constructor
  · intro h
    obtain ⟨e, he⟩ := Option.isSome_iff_exists.1 h
    unfold parseLine at he
    simp only [Option.bind_eq_bind, Option.bind_eq_some_iff] at he
    obtain ⟨i, hi, quote1, h1, quote2, h2, httpPos, hhttp, he⟩ := he
    split at he
    · next hlt =>
      obtain ⟨ts, hts, he⟩ := Option.bind_eq_some_iff.1 he
      split at he
      · next hok => exact ⟨i, ts, hi, hts, hok.1, quote1, quote2, httpPos, h1, h2, hhttp, hlt, hok.2⟩
      · cases he
    · cases he
  · rintro ⟨i, ts, hi, hts, hpos, quote1, quote2, httpPos, h1, h2, hhttp, hlt, hstatus⟩
    unfold parseLine
    simp only [hi, h1, h2, hhttp, hlt, hts, hpos, Option.bind_eq_bind, Option.bind_some, if_true, true_and, ne_eq,
      hstatus, not_false_eq_true, Option.isSome_some]

/-- Nothing is read past the end, and only a well-formed time has a value. -/
def Checked (signed : Bool) (s : Bytes) : Prop :=
  ∃ v, logParseTime signed s s.length = some v ∧ (v ≠ 0 → IsStamp s)

theorem checked_iff (signed : Bool) (s : Bytes) : Checked signed s ↔
    s.length < 20 ∨ s[0]? ≠ some '['.toUInt8 ∨
      21 ≤ s.length ∧
        ((∀ name ∈ logMonths, ¬ name <+: s.drop 4) ∨ IsStamp s ∨ States signed s 0) := by
  rw [← monthField_neg_iff]
  by_cases hshort : s.length < 20
  · exact iff_of_true ⟨0, logParseTime_short hshort, fun h => absurd rfl h⟩ (.inl hshort)
  by_cases hbracket : s[0]? = some '['.toUInt8
  · rcases Nat.lt_or_eq_of_le (Nat.le_of_not_lt hshort) with hlong | h20
    · -- everything is read
      have hvalue := logParseTime_eq signed (Nat.le_of_not_lt hshort) hlong hbracket
      have hzero : States signed s 0 ↔ 0 ≤ monthField s ∧ fieldSeconds signed s = 0 := states_iff (by omega)
      rw [Checked, hvalue]
      constructor
      · rintro ⟨v, hv, hstamp⟩
        refine .inr (.inr ⟨hlong, ?_⟩)
        by_cases hmonth : monthField s < 0
        · exact .inl hmonth
        · rw [if_neg hmonth, Option.some.injEq] at hv
          by_cases h0 : fieldSeconds signed s = 0
          · exact .inr (.inr (hzero.2 ⟨by omega, h0⟩))
          · exact .inr (.inl (hstamp (hv ▸ h0)))
      · rintro (h | h | ⟨-, hmonth | hstamp | hzero'⟩)
        · exact absurd h hshort
        · exact absurd hbracket h
        · exact ⟨0, by rw [if_pos hmonth], fun h => absurd rfl h⟩
        · exact ⟨_, rfl, fun _ => hstamp⟩
        · refine ⟨0, ?_, fun h => absurd rfl h⟩
          rw [(hzero.1 hzero').2, ite_self]
    · -- the last read goes past the end
      refine iff_of_false ?_ ?_
      · rintro ⟨v, hv, -⟩
        rw [← h20, logParseTime_eq_none signed h20.symm hbracket] at hv
        cases hv
      · rintro (h | h | ⟨h, -⟩)
        · exact hshort h
        · exact h hbracket
        · omega
  · obtain ⟨c, hc⟩ : ∃ c, s[0]? = some c := ⟨s[0], List.getElem?_eq_getElem (by omega)⟩
    have hne : c ≠ '['.toUInt8 := by
      rintro rfl
      exact hbracket hc
    exact iff_of_true ⟨0, logParseTime_bracket hc hne, fun h => absurd rfl h⟩ (.inr (.inl hbracket))

/-- A line parses only with a well-formed time, unless its fields make one that is. -/
theorem parseLine_stamp_iff (signed : Bool) (line : Bytes) :
    ((parseLine signed line).isSome = true → ∃ i, findChar line '['.toUInt8 0 = some i ∧ IsStamp (line.drop i)) ↔
      ∀ i, findChar line '['.toUInt8 0 = some i → Framed line → IsStamp (line.drop i) ∨ line.length - i < 20 ∨
        (∀ name ∈ logMonths, ¬ name <+: (line.drop i ++ [0]).drop 4) ∨
        ∃ t ≤ 0, States signed (line.drop i ++ [0]) t := by
  rw [parseLine_isSome]
  constructor
  · intro h i hi hframed
    by_cases hpos : ∃ ts, timeFrom signed line i = some ts ∧ 0 < ts
    · obtain ⟨ts, hts, hpos⟩ := hpos
      obtain ⟨j, hj, hstamp⟩ := h ⟨i, ts, hi, hts, hpos, hframed⟩
      rw [hi, Option.some.injEq] at hj
      exact .inl (hj ▸ hstamp)
    · rw [timeFrom_pos_iff hi, not_not] at hpos
      exact .inr hpos
  · rintro h ⟨i, ts, hi, hts, hpos, hframed⟩
    have hvalue := (timeFrom_pos_iff hi).1 ⟨ts, hts, hpos⟩
    exact ⟨i, hi, (h i hi hframed).resolve_right hvalue⟩

theorem IsStamp.colon {s : Bytes} (h : IsStamp s) : s[12]? = some ':'.toUInt8 := by
  obtain ⟨day, month, year, hour, minute, second, -, hmonth, -, -, -, -, rest, rfl⟩ := h
  have hdate :
      (txt "[" ++ lastDigits 2 day ++ txt "/" ++ monthName month ++ txt "/" ++ lastDigits 4 year).length = 12 := by
    simp [txt, length_monthName hmonth]
  have hcolon : txt ":" = [':'.toUInt8] := rfl
  unfold stampText
  generalize txt "[" ++ lastDigits 2 day ++ txt "/" ++ monthName month ++ txt "/" ++ lastDigits 4 year = date at hdate
  simp only [hcolon, List.append_assoc, List.cons_append, List.nil_append]
  rw [List.getElem?_append_right hdate.le, hdate, Nat.sub_self, List.getElem?_cons_zero]

end NgxLuaCpp
