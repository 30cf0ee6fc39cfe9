import NgxLuaCpp.LogAnalyze
import Mathlib.Algebra.BigOperators.Ring.Finset
/-!
# The classes of statuses

`stats` has a counter for each class. It adds up the codes of a list, so a code of the class
that the list leaves out is not in it.
-/

namespace NgxLuaCpp

/-- A counter of `stats`, the digit its codes begin with, and those that are added up. -/
structure StatusClass where
  name : String
  digit : UInt8
  codes : List String

def statusClasses : List StatusClass := [
  ⟨"status_2xx", '2'.toUInt8, ["200", "201", "202", "204"]⟩,
  ⟨"status_3xx", '3'.toUInt8, ["301", "302", "304", "307"]⟩,
  ⟨"status_4xx", '4'.toUInt8, ["400", "401", "403", "404", "429"]⟩,
  ⟨"status_5xx", '5'.toUInt8, ["500", "502", "503", "504"]⟩]

/-- Three digits, of which this is the first. -/
def InClass (digit : UInt8) (status : Bytes) : Prop := status.length = 3 ∧ status.head? = some digit

instance decidableInClass (digit : UInt8) (status : Bytes) : Decidable (InClass digit status) :=
  inferInstanceAs (Decidable (_ ∧ _))

/-- The counts of a class's codes. -/
def LogReport.classSum (r : LogReport) (digit : UInt8) : Nat :=
  ((r.statuses.filter fun s => InClass digit s.1).map Prod.snd).sum

/-- The counters are the sums of their classes, and the total where each code is in one. -/
structure ClassesAgree (r : LogReport) : Prop where
  counters : ∀ cls ∈ statusClasses, r.stats.find? (txt cls.name) = some (r.classSum cls.digit : ℚ)
  total : (∀ s ∈ r.statuses, ∃ cls ∈ statusClasses, InClass cls.digit s.1) →
    (statusClasses.map fun cls => (r.stats.find? (txt cls.name)).getD 0).sum = (r.stats.find? (txt "total")).getD 0

/-- Every code of a class is among those it adds up. -/
def Listed (signed : Bool) (ls : List Bytes) : Prop :=
  ∀ cls ∈ statusClasses, ∀ e ∈ counted signed ls, InClass cls.digit e.status → e.status ∈ cls.codes.map txt

theorem stats_class (st : LogCounts) (elapsed : ℚ) :
    ∀ cls ∈ statusClasses, (st.stats elapsed).find? (txt cls.name) = some (st.statusSum cls.codes : ℚ) := by
  simp [statusClasses, LogCounts.stats, SortedMap.find?_insert, txt]

theorem codes_nodup : ∀ cls ∈ statusClasses, (cls.codes.map txt).Nodup := by decide

theorem codes_inClass : ∀ cls ∈ statusClasses, ∀ code ∈ cls.codes.map txt, InClass cls.digit code := by decide

section
variable {signed : Bool} {ls : List Bytes}

theorem statusSum_eq {cls : StatusClass} (h : cls ∈ statusClasses) : (analyzed signed ls).statusSum cls.codes =
    ((counted signed ls).map LogEntry.status).countP fun s => decide (s ∈ cls.codes.map txt) := by
  rw [LogCounts.statusSum, (analyzed_eq signed ls).2.2.2.1,
    ← SortedMap.sum_getD_tally (codes_nodup cls h) (fun _ => decide_eq_true_iff), List.map_map]
  rfl

theorem classSum_eq (sorter : StdSort) (elapsed : ℚ) (digit : UInt8) :
    ((analyzed signed ls).report sorter elapsed).classSum digit =
      ((counted signed ls).map LogEntry.status).countP fun s => decide (InClass digit s) := by
  have hweak := StdSort.strictWeak_key fun e : Bytes × Nat => atof e.1
  have hperm := sorter.perm hweak (analyzed signed ls).statusCounts.entries
  rw [LogReport.classSum, LogCounts.report, ((hperm.filter _).map Prod.snd).sum_eq, (analyzed_eq signed ls).2.2.2.1]
  exact SortedMap.sum_filter_tally (fun s => decide (InClass digit s)) _

/-- Fewer are counted unless all are. -/
theorem countP_eq_iff {α : Type*} {p q : α → Bool} (h : ∀ x, p x = true → q x = true) (l : List α) :
    l.countP p = l.countP q ↔ ∀ x ∈ l, q x = true → p x = true := by
  constructor
  · intro he
    have hsplit := List.countP_eq_countP_filter_add l q p
    rw [List.countP_filter, List.countP_filter] at hsplit
    have hp : l.countP (fun x => q x && p x) = l.countP p := List.countP_congr fun x _ => by simpa using h x
    have hzero : l.countP (fun x => q x && !p x) = 0 := by omega
    intro x hx hq
    simpa [hq] using List.countP_eq_zero.1 hzero x hx
  · exact fun hall => List.countP_congr fun x hx => ⟨h x, hall x hx⟩

theorem counter_iff (sorter : StdSort) (elapsed : ℚ) {cls : StatusClass} (h : cls ∈ statusClasses) :
    ((analyzed signed ls).report sorter elapsed).stats.find? (txt cls.name) =
        some (((analyzed signed ls).report sorter elapsed).classSum cls.digit : ℚ) ↔
      ∀ e ∈ counted signed ls, InClass cls.digit e.status → e.status ∈ cls.codes.map txt := by
  rw [LogCounts.report, stats_class _ _ cls h, ← LogCounts.report, Option.some.injEq, Nat.cast_inj, statusSum_eq h,
    classSum_eq, countP_eq_iff]
  · simp
  · simpa using codes_inClass cls h

/-- A code is in one class at most. -/
theorem sum_countP_classes {l : List Bytes} (h : ∀ s ∈ l, ∃ cls ∈ statusClasses, InClass cls.digit s) :
    (statusClasses.map fun cls => l.countP fun s => decide (InClass cls.digit s)).sum = l.length := by
  induction l with
  | nil => rfl
  | cons s l ih =>
    rw [List.forall_mem_cons] at h
    obtain ⟨⟨cls, hcls, hlen, hhead⟩, hrest⟩ := h
    have hin (cls' : StatusClass) : InClass cls'.digit s ↔ cls'.digit = cls.digit := by
      rw [InClass, hhead, Option.some.injEq]
      exact ⟨fun h => h.2.symm, fun h => ⟨hlen, h.symm⟩⟩
    have hone : (statusClasses.map fun cls => if InClass cls.digit s then 1 else 0).sum = 1 := by
      simp only [hin]
      clear hin hlen hhead
      revert cls
      decide
    simp only [List.countP_cons, List.sum_map_add, ih hrest, List.length_cons, decide_eq_true_eq, hone]

end

/-- The classes agree if and only if every status counted is a listed one. -/
theorem classesAgree_iff (signed : Bool) (ls : List Bytes) (sorter : StdSort) (elapsed : ℚ) :
    ClassesAgree ((analyzed signed ls).report sorter elapsed) ↔ Listed signed ls := by
  constructor
  · intro h cls hcls
    exact (counter_iff sorter elapsed hcls).1 (h.counters cls hcls)
  · intro h
    have hcounters : ∀ cls ∈ statusClasses, ((analyzed signed ls).report sorter elapsed).stats.find? (txt cls.name) =
        some (((analyzed signed ls).report sorter elapsed).classSum cls.digit : ℚ) :=
      fun cls hcls => (counter_iff sorter elapsed hcls).2 (h cls hcls)
    refine ⟨hcounters, fun hall => ?_⟩
    have hweak := StdSort.strictWeak_key fun e : Bytes × Nat => atof e.1
    have hstatus : ∀ s ∈ (counted signed ls).map LogEntry.status, ∃ cls ∈ statusClasses, InClass cls.digit s := by
      intro s hs
      obtain ⟨e, he, rfl⟩ := List.mem_map.1 hs
      obtain ⟨n, hn⟩ := exists_statusCounts he
      exact hall (e.status, n) ((sorter.perm hweak _).mem_iff.2 hn)
    have hsum := sum_countP_classes hstatus
    rw [List.length_map] at hsum
    have htotal : ((analyzed signed ls).report sorter elapsed).stats.find? (txt "total") =
        some ((counted signed ls).length : ℚ) := by
      rw [← (analyzed_eq signed ls).2.1]
      exact stats_total _ elapsed
    rw [htotal, Option.getD_some, ← hsum, Nat.cast_list_sum, List.map_map]
    refine congrArg List.sum (List.map_congr_left fun cls hcls => ?_)
    rw [hcounters cls hcls, classSum_eq, Option.getD_some, Function.comp_apply]

/-- The counters agree with the counts of the statuses exactly where no code of the log is left
out, and every report is one on lines of its file. -/
theorem log_classes_iff (signed : Bool) :
    (∀ ls sorter elapsed, ClassesAgree ((analyzed signed ls).report sorter elapsed) ↔ Listed signed ls) ∧
    ∀ sorter elapsed maxLines fuel file report, logAnalyze signed sorter elapsed maxLines fuel file = some report →
      ∃ (ls : List Bytes) (rest : Bytes), file = ls.flatMap (· ++ ['\n'.toUInt8]) ++ rest ∧
        (∀ l ∈ ls, '\n'.toUInt8 ∉ l) ∧ report = (analyzed signed ls).report sorter elapsed := by
  exact ⟨classesAgree_iff signed, fun _ _ _ _ _ _ h => exists_lines h⟩

/-- A line with status 206. -/
def partialContent : List Bytes := [txt "h - - [10/Oct/2023:13:55:36 +0000] \"GET / HTTP/1.1\" 206 5"]

/-- It is in no counter. -/
theorem partialContent_not_counted : ¬ ClassesAgree ((analyzed true partialContent).report .stable 0) := by
  intro h
  have hcounter := h.counters ⟨"status_2xx", '2'.toUInt8, ["200", "201", "202", "204"]⟩ (by simp [statusClasses])
  have hstat : (analyzed true partialContent).statusSum ["200", "201", "202", "204"] = 0 := by decide +kernel
  have hsum : ((analyzed true partialContent).report .stable 0).classSum '2'.toUInt8 = 1 := by decide +kernel
  rw [hsum, LogCounts.report, stats_class _ _ _ (List.mem_cons_self ..), hstat] at hcounter
  simp at hcounter

end NgxLuaCpp
