import NgxLuaCpp.LogLine
import NgxLuaCpp.Lib.Binary64
import NgxLuaCpp.Lib.StdSort
import Mathlib.Algebra.Order.Ring.WithTop
import Mathlib.Data.Prod.Lex
/-!
# What an access log comes to

The end of `log_analyze`: three maps are sorted and cut, and the totals put into
`stats`. The report is accounted for by the lines the loop has read.
-/

namespace NgxLuaCpp

/-! ## The report -/

/-- `std::atof` of digits: the nearest `double`, or infinity. -/
def atof (s : Bytes) : WithTop ℚ :=
  if (number s : ℚ) < 2 ^ 1024 - 2 ^ 970 then Binary64.round (number s) else ⊤

/-- What `log_analyze` returns. -/
structure LogReport where
  stats : SortedMap Bytes ℚ
  topUrls : List (Bytes × Nat)
  statuses : List (Bytes × Nat)
  perSecond : List (Nat × Nat)

namespace LogCounts
variable (st : LogCounts)

/-- The counts of some statuses, added up. -/
def statusSum (codes : List String) : Nat := (codes.map fun code => (st.statusCounts.find? (txt code)).getD 0).sum

/-- `stats`, by name. -/
def stats (elapsed : ℚ) : SortedMap Bytes ℚ :=
  let values : List (String × ℚ) := [
    ("lines", st.lines),
    ("total", st.total),
    ("status_2xx", st.statusSum ["200", "201", "202", "204"]),
    ("status_3xx", st.statusSum ["301", "302", "304", "307"]),
    ("status_4xx", st.statusSum ["400", "401", "403", "404", "429"]),
    ("status_5xx", st.statusSum ["500", "502", "503", "504"]),
    ("qps", if st.firstTs < st.lastTs ∧ 0 < st.total then Binary64.round (st.total / (st.lastTs - st.firstTs)) else 0),
    ("span_seconds", if st.firstTs < st.lastTs then st.lastTs - st.firstTs else 0),
    ("elapsed_ms", elapsed)]
  values.foldl (fun stats v => stats.insert (txt v.1) v.2) .empty

/-- The report of what was counted. -/
def report (sorter : StdSort) (elapsed : ℚ) : LogReport :=
  let secVec := sorter.sort (fun a b => decide (toLex a < toLex b)) st.secondCounts.entries
  { stats := st.stats elapsed
    topUrls := (sorter.sort (fun a b => decide (b.2 < a.2)) st.urlCounts.entries).take 20
    statuses := sorter.sort (fun a b => decide (atof a.1 < atof b.1)) st.statusCounts.entries
    -- the index is counted from the oldest of them
    perSecond := (secVec.drop (secVec.length - 60)).zipIdx.map fun s => (s.2, s.1.2) }

end LogCounts

/-! ## What the loop has counted -/

/-- The state after the loop has read `ls`. -/
def analyzed (signed : Bool) (ls : List Bytes) : LogCounts := ls.foldl (LogCounts.addLine signed) .start

/-- What was counted. -/
def counted (signed : Bool) (ls : List Bytes) : List LogEntry := ls.filterMap (parseLine signed)

theorem analyzed_concat (signed : Bool) (ls : List Bytes) (line : Bytes) :
    analyzed signed (ls ++ [line]) = (analyzed signed ls).addLine signed line := List.foldl_concat ..

theorem tally_concat {κ : Type} [LinearOrder κ] (l : List κ) (k : κ) :
    SortedMap.tally (l ++ [k]) = (SortedMap.tally l).bump k := List.foldl_concat ..

/-- The maps are the tallies of what was counted. -/
theorem analyzed_eq (signed : Bool) (ls : List Bytes) :
    (analyzed signed ls).lines = ls.length ∧ (analyzed signed ls).total = (counted signed ls).length ∧
      (analyzed signed ls).secondCounts = .tally ((counted signed ls).map LogEntry.ts) ∧
      (analyzed signed ls).statusCounts = .tally ((counted signed ls).map LogEntry.status) ∧
      (analyzed signed ls).urlCounts = .tally ((counted signed ls).filterMap LogEntry.url) := by
  induction ls using List.reverseRecOn with
  | nil => exact ⟨rfl, rfl, rfl, rfl, rfl⟩
  | append_singleton ls line ih =>
    obtain ⟨hlines, htotal, hsecond, hstatus, hurl⟩ := ih
    rw [analyzed_concat, counted, List.filterMap_append, ← counted, LogCounts.addLine]
    cases hp : parseLine signed line with
    | none =>
      simp [hp, hlines, htotal, hsecond, hstatus, hurl]
    | some e =>
      cases hu : e.url
      all_goals simp [hp, hu, LogCounts.count, hlines, htotal, hsecond, hstatus, hurl, tally_concat]

/-! ## The account -/

/-- How many lines were counted with a URL. -/
def hits (signed : Bool) (ls : List Bytes) (url : Bytes) : Nat :=
  (counted signed ls).countP fun e => decide (e.url = some url)

/-- The report holds what the lines come to. -/
structure Accounts (signed : Bool) (ls : List Bytes) (r : LogReport) : Prop where
  lines : r.stats.find? (txt "lines") = some (ls.length : ℚ)
  total : r.stats.find? (txt "total") = some ((counted signed ls).length : ℚ)
  total_le : (counted signed ls).length ≤ ls.length
  statuses_sum : (r.statuses.map Prod.snd).sum = (counted signed ls).length
  statuses_ascending : r.statuses.Pairwise fun a b => number a.1 ≤ number b.1
  per_second : ∃ times : List Int, times.Pairwise (· < ·) ∧ (∀ t, t ∈ times ↔ ∃ e ∈ counted signed ls, e.ts = t) ∧
    r.perSecond = (times.drop (times.length - 60)).zipIdx.map (fun t =>
      (t.2, (counted signed ls).countP fun e => e.ts == t.1)) ∧
    (times.length ≤ 60 → (r.perSecond.map Prod.snd).sum = (counted signed ls).length)
  top_urls_length : r.topUrls.length = min 20 ((counted signed ls).filterMap LogEntry.url).dedup.length
  top_urls_nodup : (r.topUrls.map Prod.fst).Nodup
  top_urls_sorted : r.topUrls.Pairwise fun a b => b.2 ≤ a.2
  top_urls_exact : ∀ e ∈ r.topUrls, e.2 = hits signed ls e.1
  top_urls_top : ∀ url ∉ r.topUrls.map Prod.fst, ∀ e ∈ r.topUrls, hits signed ls url ≤ e.2

theorem stats_lines (st : LogCounts) (elapsed : ℚ) : (st.stats elapsed).find? (txt "lines") = some (st.lines : ℚ) := by
  simp [LogCounts.stats, SortedMap.find?_insert, txt]

theorem stats_total (st : LogCounts) (elapsed : ℚ) : (st.stats elapsed).find? (txt "total") = some (st.total : ℚ) := by
  simp [LogCounts.stats, SortedMap.find?_insert, txt]

/-! ## Statuses -/

/-- Rounding keeps the order. -/
theorem atof_mono {s t : Bytes} (h : number s ≤ number t) : atof s ≤ atof t := by
  have hcast : (number s : ℚ) ≤ number t := by exact_mod_cast h
  have hround : Binary64.round (number s) ≤ Binary64.round (number t) := by
    rcases Nat.eq_zero_or_pos (number s) with h0 | hpos
    · have hzero : Binary64.round 0 = 0 := by
        have : Binary64.roundEven 0 = 0 := Binary64.roundEven_intCast 0
        rw [Binary64.round, zero_div, this, Int.cast_zero, zero_mul]
      rw [h0, Nat.cast_zero, hzero]
      rcases Nat.eq_zero_or_pos (number t) with ht | ht
      · rw [ht, Nat.cast_zero, hzero]
      · exact Binary64.round_nonneg (by exact_mod_cast ht)
    · exact Binary64.round_mono (by exact_mod_cast hpos) hcast
  unfold atof
  split_ifs with hs ht ht
  · exact WithTop.coe_le_coe.2 hround
  · exact le_top
  · exact absurd (lt_of_le_of_lt hcast ht) hs
  · exact le_refl ⊤

/-- Statuses with the same double are the same number. -/
def Distinguished (signed : Bool) (ls : List Bytes) : Prop :=
  ∀ e ∈ counted signed ls, ∀ e' ∈ counted signed ls, atof e.status = atof e'.status → number e.status = number e'.status

section
variable {signed : Bool} {ls : List Bytes}

theorem mem_statusCounts {e : Bytes × Nat} (h : e ∈ (analyzed signed ls).statusCounts.entries) :
    ∃ x ∈ counted signed ls, x.status = e.1 := by
  rw [(analyzed_eq signed ls).2.2.2.1] at h
  exact List.mem_map.1 (SortedMap.mem_entries_tally.1 h).1

theorem exists_statusCounts {x : LogEntry} (h : x ∈ counted signed ls) :
    ∃ n, (x.status, n) ∈ (analyzed signed ls).statusCounts.entries := by
  rw [(analyzed_eq signed ls).2.2.2.1]
  exact ⟨_, SortedMap.mem_entries_tally.2 ⟨List.mem_map_of_mem h, rfl⟩⟩

/-- The order of the codes is that of their doubles. -/
theorem statuses_ascending_iff : (∀ (sorter : StdSort) (elapsed : ℚ),
      ((analyzed signed ls).report sorter elapsed).statuses.Pairwise fun a b => number a.1 ≤ number b.1) ↔
    Distinguished signed ls := by
  have hweak := StdSort.strictWeak_key fun e : Bytes × Nat => atof e.1
  constructor
  · intro h e he e' he' hsame
    by_contra hne
    obtain ⟨n, hn⟩ := exists_statusCounts he
    obtain ⟨n', hn'⟩ := exists_statusCounts he'
    have hpair : (e.status, n) ≠ (e'.status, n') := by
      intro heq
      exact hne (congrArg number (congrArg Prod.fst heq))
    -- either order is that of some sort
    obtain ⟨sorter, hsub⟩ := @StdSort.exists_sort_pair _ (fun a b => decide (atof a.1 < atof b.1)) _ _ _ hn hn' hpair
      (by simp [hsame])
    obtain ⟨sorter', hsub'⟩ := @StdSort.exists_sort_pair _ (fun a b => decide (atof a.1 < atof b.1)) _ _ _ hn' hn
      hpair.symm (by simp [hsame])
    have hle : number e.status ≤ number e'.status := by simpa using (h sorter 0).sublist hsub
    have hge : number e'.status ≤ number e.status := by simpa using (h sorter' 0).sublist hsub'
    exact hne (le_antisymm hle hge)
  · intro h sorter elapsed
    refine (sorter.sorted hweak _).imp_of_mem ?_
    intro a b ha hb hab
    obtain ⟨x, hx, hxa⟩ := mem_statusCounts ((sorter.perm hweak _).subset ha)
    obtain ⟨y, hy, hyb⟩ := mem_statusCounts ((sorter.perm hweak _).subset hb)
    have hle : atof a.1 ≤ atof b.1 := by simpa using hab
    by_contra hlt
    have hge : atof b.1 ≤ atof a.1 := atof_mono (by omega)
    have := h x hx y hy (by rw [hxa, hyb]; exact le_antisymm hle hge)
    rw [hxa, hyb] at this
    omega

theorem statuses_sum (sorter : StdSort) (elapsed : ℚ) :
    (((analyzed signed ls).report sorter elapsed).statuses.map Prod.snd).sum = (counted signed ls).length := by
  have hweak := StdSort.strictWeak_key fun e : Bytes × Nat => atof e.1
  have hperm := (sorter.perm hweak (analyzed signed ls).statusCounts.entries).map Prod.snd
  rw [LogCounts.report, hperm.sum_eq, (analyzed_eq signed ls).2.2.2.1, SortedMap.sum_tally, List.length_map]

/-! ## Seconds -/

/-- The distinct times, in order. -/
def times (signed : Bool) (ls : List Bytes) : List Int := (SortedMap.tally ((counted signed ls).map LogEntry.ts)).keys

theorem mem_times {t : Int} : t ∈ times signed ls ↔ ∃ e ∈ counted signed ls, e.ts = t := by
  rw [times, SortedMap.mem_keys_tally, List.mem_map]

/-- A map is sorted by its keys already. -/
theorem sort_seconds (sorter : StdSort) (m : SortedMap Int Nat) :
    sorter.sort (fun a b => decide (toLex a < toLex b)) m.entries = m.entries := by
  refine sorter.sort_of_sorted (StdSort.strictWeak_key toLex) (m.sorted.imp fun h => ?_)
  exact decide_eq_true (Prod.Lex.toLex_lt_toLex.2 (.inl h))

theorem perSecond_eq (sorter : StdSort) (elapsed : ℚ) : ((analyzed signed ls).report sorter elapsed).perSecond =
    ((times signed ls).drop ((times signed ls).length - 60)).zipIdx.map fun t =>
      (t.2, (counted signed ls).countP fun e => e.ts == t.1) := by
  have hentries : (analyzed signed ls).secondCounts.entries =
      (times signed ls).map fun t => (t, ((counted signed ls).map LogEntry.ts).count t) := by
    rw [(analyzed_eq signed ls).2.2.1, SortedMap.entries_tally, times]
  rw [LogCounts.report]
  dsimp only
  rw [sort_seconds, hentries, List.length_map, ← List.map_drop, List.zipIdx_map, List.map_map]
  refine List.map_congr_left fun t _ => ?_
  simp only [Function.comp_apply, List.count, List.countP_map]
  rfl

theorem perSecond_sum (sorter : StdSort) (elapsed : ℚ) (h : (times signed ls).length ≤ 60) :
    (((analyzed signed ls).report sorter elapsed).perSecond.map Prod.snd).sum = (counted signed ls).length := by
  rw [LogCounts.report]
  dsimp only
  have hlen : (analyzed signed ls).secondCounts.entries.length = (times signed ls).length := by
    rw [(analyzed_eq signed ls).2.2.1, times, SortedMap.length_keys, SortedMap.size]
  have hsum := SortedMap.sum_tally ((counted signed ls).map LogEntry.ts)
  rw [← (analyzed_eq signed ls).2.2.1, List.length_map] at hsum
  rw [sort_seconds, hlen, Nat.sub_eq_zero_of_le h, List.drop_zero, List.map_map, ← hsum]
  conv_rhs => rw [← List.zipIdx_map_fst 0 (analyzed signed ls).secondCounts.entries, List.map_map]
  rfl

/-! ## URLs -/

theorem count_filterMap_url (l : List LogEntry) (url : Bytes) :
    (l.filterMap LogEntry.url).count url = l.countP fun e => decide (e.url = some url) := by
  induction l with
  | nil => rfl
  | cons e l ih =>
    rw [List.filterMap_cons, List.countP_cons, ← ih]
    cases e.url with
    | none => simp
    | some u => simp [List.count_cons]

theorem mem_urlCounts {e : Bytes × Nat} : e ∈ (analyzed signed ls).urlCounts.entries ↔
    e.1 ∈ (counted signed ls).filterMap LogEntry.url ∧ e.2 = hits signed ls e.1 := by
  obtain ⟨url, n⟩ := e
  rw [(analyzed_eq signed ls).2.2.2.2, SortedMap.mem_entries_tally, hits, ← count_filterMap_url]
  -- the two sides compare keys by different instances
  convert Iff.rfl

/-- By falling counts. -/
theorem strictWeak_hits : StrictWeak fun a b : Bytes × Nat => decide (b.2 < a.2) where
  asymm a b h := by simpa using (of_decide_eq_true h).le
  negTrans a b c h h' := by simp only [decide_eq_false_iff_not] at h h' ⊢; omega

/-- The URLs as sorted, of which the first 20 are reported. -/
theorem topUrls_eq (signed : Bool) (ls : List Bytes) (sorter : StdSort) (elapsed : ℚ) : ∃ all : List (Bytes × Nat),
    ((analyzed signed ls).report sorter elapsed).topUrls = all.take 20 ∧
      all.Perm (analyzed signed ls).urlCounts.entries ∧ all.Pairwise fun a b => b.2 ≤ a.2 := by
  refine ⟨_, rfl, sorter.perm strictWeak_hits _, (sorter.sorted strictWeak_hits _).imp fun h => ?_⟩
  simpa using h

/-- A URL left out is not above one that is listed. -/
theorem topUrls_top (sorter : StdSort) (elapsed : ℚ) {url : Bytes}
    (hurl : url ∉ ((analyzed signed ls).report sorter elapsed).topUrls.map Prod.fst) {e : Bytes × Nat}
    (he : e ∈ ((analyzed signed ls).report sorter elapsed).topUrls) : hits signed ls url ≤ e.2 := by
  obtain ⟨all, htop, hperm, hsorted⟩ := topUrls_eq signed ls sorter elapsed
  rw [htop] at hurl he
  by_cases hmem : url ∈ (counted signed ls).filterMap LogEntry.url
  · have hall : (url, hits signed ls url) ∈ all := hperm.mem_iff.2 (mem_urlCounts.2 ⟨hmem, rfl⟩)
    -- it was sorted behind the first 20
    rw [← List.take_append_drop 20 all, List.mem_append] at hall
    rcases hall with hin | hout
    · exact absurd (List.mem_map_of_mem (f := Prod.fst) hin) hurl
    · rw [← List.take_append_drop 20 all] at hsorted
      exact (List.pairwise_append.1 hsorted).2.2 e he _ hout
  · have hzero : hits signed ls url = 0 := by
      rw [hits, ← count_filterMap_url]
      exact List.count_eq_zero_of_not_mem hmem
    rw [hzero]
    exact Nat.zero_le _

end

/-- The report holds what the lines come to, whatever sort is used, exactly where no two
statuses are told apart by their numbers but not by their doubles. -/
theorem report_accounts_iff (signed : Bool) (ls : List Bytes) :
    (∀ (sorter : StdSort) (elapsed : ℚ), Accounts signed ls ((analyzed signed ls).report sorter elapsed)) ↔
      Distinguished signed ls := by
  rw [← statuses_ascending_iff]
  refine ⟨fun h sorter elapsed => (h sorter elapsed).statuses_ascending, ?_⟩
  intro hascending sorter elapsed
  obtain ⟨hlines, htotal, -, -, hurls⟩ := analyzed_eq signed ls
  obtain ⟨all, htop, hperm, hsorted⟩ := topUrls_eq signed ls sorter elapsed
  refine
    { lines := ?_
      total := ?_
      total_le := List.length_filterMap_le _ _
      statuses_sum := statuses_sum sorter elapsed
      statuses_ascending := hascending sorter elapsed
      per_second := ⟨times signed ls, SortedMap.keys_sorted _, fun t => mem_times, perSecond_eq sorter elapsed,
        perSecond_sum sorter elapsed⟩
      top_urls_length := ?_
      top_urls_nodup := ?_
      top_urls_sorted := ?_
      top_urls_exact := ?_
      top_urls_top := fun url hurl e he => topUrls_top sorter elapsed hurl he }
  · rw [← hlines]
    exact stats_lines _ elapsed
  · rw [← htotal]
    exact stats_total _ elapsed
  · have hkeys : (analyzed signed ls).urlCounts.keys.Perm ((counted signed ls).filterMap LogEntry.url).dedup := by
      refine SortedMap.keys_perm (List.nodup_dedup _) fun url => ?_
      rw [List.mem_dedup, ← SortedMap.mem_keys, hurls, SortedMap.mem_keys_tally]
    rw [htop, List.length_take, hperm.length_eq, ← hkeys.length_eq, SortedMap.length_keys, SortedMap.size]
  · rw [htop, List.map_take]
    exact ((hperm.map Prod.fst).nodup_iff.2 (SortedMap.keys_nodup _)).sublist (List.take_sublist _ _)
  · rw [htop]
    exact hsorted.sublist (List.take_sublist _ _)
  · intro e he
    rw [htop] at he
    exact (mem_urlCounts.1 (hperm.subset (List.mem_of_mem_take he))).2

end NgxLuaCpp
