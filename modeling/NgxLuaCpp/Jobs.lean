import NgxLuaCpp.Base
import NgxLuaCpp.Lib.SortedMap
import NgxLuaCpp.Lib.Window
/-!
# The job table

`jobs` maps an id to a `shared_ptr<ngx_job_t>`: here, to an index into the
records made so far, so a record lives on when the table drops it. `R` stands
for `double`.
-/
open Window

namespace NgxLuaCpp

variable {R : Type}

/-- `ngx_job_t`. -/
structure Job (R : Type) where
  id : Bytes
  kind : Bytes
  payload : SortedMap Bytes R
  status : Bytes
  result : Bytes
  progress : R
  elapsedMs : R
  createdMs : R

/-- The job state of an instance; `heap` lists every record, in order of submission. -/
structure JobTable (R : Type) where
  running : Bool
  jobs : SortedMap Bytes Nat
  jobCounter : Nat
  heap : List (Job R)

/-- `snprintf(.., "J%05zu", job_counter)`. -/
def jobId (counter : Nat) : Bytes := txt "J" ++ padded 5 counter

namespace JobTable

/-- A started instance with no jobs. -/
def started : JobTable R := ⟨true, .empty, 0, []⟩

/-- `while (jobs.size() > 200) jobs.erase(jobs.begin());` -/
def dropOldest (jobs : SortedMap Bytes Nat) : SortedMap Bytes Nat :=
  if jobs.size > 200 then dropOldest jobs.eraseFirst else jobs
termination_by jobs.size
decreasing_by simp only [SortedMap.size, SortedMap.eraseFirst, List.length_tail] at *; omega

/-- `job_submit`: a job under the next id; beyond 200 of them the first ones in the map go. -/
def jobSubmit [Zero R] (s : JobTable R) (now : R) (kind : Bytes) (payload : SortedMap Bytes R) : JobTable R × Bytes :=
  if !s.running then (s, [])
  else
    let counter := s.jobCounter + 1
    let job : Job R := ⟨jobId counter, kind, payload, txt "queued", [], 0, 0, now⟩
    ({ s with
      jobs := dropOldest (s.jobs.insert job.id s.heap.length)
      jobCounter := counter
      heap := s.heap ++ [job] }, job.id)

/-- The record `jobs[id]` points to. -/
def find? (s : JobTable R) (id : Bytes) : Option (Job R) := do s.heap[← s.jobs.find? id]?

/-- `(status, progress, elapsed_ms, result)`. -/
def jobQuery [Zero R] (s : JobTable R) (id : Bytes) : Bytes × R × R × Bytes :=
  match s.find? id with
  | none => (txt "not_found", 0, 0, [])
  | some job => (job.status, job.progress, job.elapsedMs, job.result)

/-- `(id, kind, status, progress, elapsed_ms)` of each job in the table. -/
def jobList (s : JobTable R) : List (Bytes × Bytes × Bytes × R × R) :=
  s.jobs.entries.filterMap fun e => s.heap[e.2]?.map fun job => (e.1, job.kind, job.status, job.progress, job.elapsedMs)

end JobTable

/-! ## Ids in order of submission -/

theorem jobId_lt {m n : Nat} (hn : n ≤ 99999) (h : m < n) : jobId m < jobId n := by
  rw [jobId, jobId, padded_eq_lastDigits (by omega) (by omega), padded_eq_lastDigits (by omega) (by omega)]
  exact List.append_left_lt (lastDigits_lt (by omega) h)

/-- The id of the 100000th job sorts before those of the 200 jobs before it. -/
theorem jobId_wraps {m : Nat} (h : 99800 ≤ m) (hm : m ≤ 99999) : jobId 100000 < jobId m := by
  have h0 : padded 5 100000 = txt "100000" := by decide +kernel
  have hd : digit (m / 10 / 10 / 10 / 10 % 10) = digit 9 := by congr 1; omega
  rw [jobId, jobId, h0, padded_eq_lastDigits (by omega) (by omega)]
  refine List.append_left_lt ?_
  simp only [lastDigits, List.nil_append, List.cons_append, hd]
  exact List.cons_lt_cons_iff.2 (.inl (by decide))

/-! ## Runs -/

/-- A critical section of `run_job`. -/
inductive RunnerWrite (R : Type) where
  | running
  | progress (x : R)
  | finish (failed : Bool) (result : Bytes) (elapsedMs : R)

/-- What a critical section does to the record. -/
def RunnerWrite.apply : RunnerWrite R → Job R → Job R
  | .running, job => { job with status := txt "running" }
  | .progress x, job => { job with progress := x }
  | .finish failed result elapsedMs, job =>
    { job with status := if failed then txt "failed" else txt "done", result := result, elapsedMs := elapsedMs }

/-- A call of the job API, or a critical section of a runner. -/
inductive JobOp (R : Type) where
  | submit (now : R) (kind : Bytes) (payload : SortedMap Bytes R)
  | query (id : Bytes)
  | list
  | runner (ref : Nat) (w : RunnerWrite R)

def JobOp.isSubmit : JobOp R → Bool
  | .submit .. => true
  | _ => false

variable [Zero R]

/-- `job_query` and `job_list` only read. -/
def JobTable.step (s : JobTable R) : JobOp R → JobTable R
  | .submit now kind payload => (s.jobSubmit now kind payload).1
  | .query _ => s
  | .list => s
  | .runner ref w => { s with heap := s.heap.modify ref w.apply }

/-- The table after these calls and critical sections. -/
def JobTable.run (ops : List (JobOp R)) : JobTable R := ops.foldl JobTable.step .started

/-- The jobs submitted in a run are `0`, `1`, .. in order. -/
def submits (ops : List (JobOp R)) : Nat := ops.countP JobOp.isSubmit

/-- The table holds the last `min n 200` of the `n` jobs submitted. -/
def HoldsRecent (s : JobTable R) (n : Nat) : Prop :=
  ∀ ref, (∃ id, s.jobs.find? id = some ref) ↔ ref < n ∧ n ≤ ref + 200

/-- A submission whose id finds the new job, and which removes no job but the earliest. -/
def SubmitsWell (s : JobTable R) (n : Nat) (now : R) (kind : Bytes) (payload : SortedMap Bytes R) : Prop :=
  let r := s.jobSubmit now kind payload
  (r.2 ≠ [] → r.1.jobs.find? r.2 = some n ∧ r.1.jobQuery r.2 = (txt "queued", 0, 0, [])) ∧
  ∀ id ref, s.jobs.find? id = some ref → (∀ id', r.1.jobs.find? id' ≠ some ref) →
    ∀ id' ref', s.jobs.find? id' = some ref' → ref ≤ ref'

/-- At every moment of the run the table holds the most recent jobs. -/
def KeepsRecent (ops : List (JobOp R)) : Prop :=
  (∀ pre, pre <+: ops → HoldsRecent (JobTable.run pre) (submits pre)) ∧
  ∀ pre now kind payload, pre ++ [.submit now kind payload] <+: ops →
    SubmitsWell (JobTable.run pre) (submits pre) now kind payload

/-! ## The invariant -/

omit [Zero R] in
theorem dropOldest_entries (m : SortedMap Bytes Nat) : (JobTable.dropOldest m).entries = m.entries.rtake 200 := by
  induction m using JobTable.dropOldest.induct with
  | case1 m h ih =>
    rw [JobTable.dropOldest, if_pos h, ih, SortedMap.eraseFirst_entries]
    simp only [SortedMap.size] at h
    rw [List.rtake, List.rtake, List.length_tail, ← List.drop_one, List.drop_drop]
    exact congrArg (m.entries.drop ·) (by omega)
  | case2 m h =>
    rw [JobTable.dropOldest, if_neg h, rtake_eq_self (by simpa [SortedMap.size] using h)]

/-- The entries of the first `n` jobs, were none dropped. -/
def submitted (n : Nat) : List (Bytes × Nat) := (List.range n).map fun i => (jobId (i + 1), i)

/-- After `n` submissions, the table holds the last 200 entries, by id. -/
structure Recent (s : JobTable R) (n : Nat) : Prop where
  running : s.running = true
  counter : s.jobCounter = n
  made : s.heap.length = n
  entries : s.jobs.entries = (submitted n).rtake 200

omit [Zero R] in
theorem recent_started : Recent (JobTable.started : JobTable R) 0 := ⟨rfl, rfl, rfl, rfl⟩

omit [Zero R] in
/-- The ids in the table are those of the last 200 jobs. -/
theorem Recent.find?_iff {s : JobTable R} {n : Nat} (h : Recent s n) {id : Bytes} {ref : Nat} :
    s.jobs.find? id = some ref ↔ id = jobId (ref + 1) ∧ ref < n ∧ n ≤ ref + 200 := by
  rw [← SortedMap.mem_entries, h.entries, submitted, ← map_rtake, List.mem_map]
  have hmem : ∀ i, i ∈ (List.range n).rtake 200 ↔ i < n ∧ n ≤ i + 200 := by
    intro i
    rw [List.rtake, List.mem_drop_iff_getElem]
    constructor
    · rintro ⟨j, hj, rfl⟩
      simp only [List.length_range, List.getElem_range] at hj ⊢; omega
    · rintro ⟨h1, h2⟩
      exact ⟨i - (n - 200), by simp; omega, by simp; omega⟩
  constructor
  · rintro ⟨i, hi, he⟩
    obtain ⟨rfl, rfl⟩ := Prod.mk.injEq .. ▸ he
    exact ⟨rfl, (hmem i).1 hi⟩
  · rintro ⟨rfl, hr⟩
    exact ⟨ref, (hmem ref).2 hr, rfl⟩

omit [Zero R] in
/-- `job_list` lists the ids of the last 200 submissions, in order. -/
theorem Recent.jobList_ids {s : JobTable R} {n : Nat} (h : Recent s n) :
    s.jobList.map Prod.fst = ((submitted n).rtake 200).map Prod.fst := by
  have hheap : ∀ e ∈ s.jobs.entries, ∃ job, s.heap[e.2]? = some job := by
    rintro ⟨id, ref⟩ he
    obtain ⟨-, hr, -⟩ := h.find?_iff.1 (SortedMap.mem_entries.1 he)
    rw [← h.made] at hr
    exact ⟨s.heap[ref], List.getElem?_eq_getElem hr⟩
  rw [JobTable.jobList, ← h.entries, List.map_filterMap]
  generalize s.jobs.entries = l at hheap
  induction l with
  | nil => rfl
  | cons e l ih =>
    obtain ⟨job, hj⟩ := hheap e (by simp)
    rw [List.filterMap_cons, hj, List.map_cons, ← ih fun x hx => hheap x (by simp [hx])]
    rfl

theorem Recent.submit {s : JobTable R} {n : Nat} (h : Recent s n) (hn : n + 1 ≤ 99999) (now : R) (kind : Bytes)
    (payload : SortedMap Bytes R) : Recent (s.jobSubmit now kind payload).1 (n + 1) := by
  simp only [JobTable.jobSubmit, h.running, Bool.not_true, Bool.false_eq_true, if_false]
  refine ⟨rfl, by rw [h.counter], by simp [h.made], ?_⟩
  have hlast : ∀ e ∈ s.jobs.entries, e.1 < jobId (n + 1) := by
    rintro ⟨id, ref⟩ he
    obtain ⟨rfl, hr, -⟩ := h.find?_iff.1 (SortedMap.mem_entries.1 he)
    exact jobId_lt hn (by omega)
  rw [dropOldest_entries, h.counter, h.made, SortedMap.insert_last hlast, h.entries, rtake_append_rtake]
  congr 1
  simp [submitted, List.range_succ]

/-- The new record is found under the new id. -/
theorem Recent.submit_find {s : JobTable R} {n : Nat} (h : Recent s n) (hn : n + 1 ≤ 99999) (now : R) (kind : Bytes)
    (payload : SortedMap Bytes R) :
    let r := s.jobSubmit now kind payload
    r.1.jobs.find? r.2 = some n ∧ r.1.jobQuery r.2 = (txt "queued", 0, 0, []) := by
  have hid : (s.jobSubmit now kind payload).2 = jobId (n + 1) := by
    simp [JobTable.jobSubmit, h.running, h.counter]
  have hf : (s.jobSubmit now kind payload).1.jobs.find? (jobId (n + 1)) = some n :=
    (h.submit hn now kind payload).find?_iff.2 ⟨rfl, by omega, by omega⟩
  refine ⟨hid ▸ hf, ?_⟩
  have hheap : (s.jobSubmit now kind payload).1.heap[n]? =
      some ⟨jobId (n + 1), kind, payload, txt "queued", [], 0, 0, now⟩ := by
    simp [JobTable.jobSubmit, h.running, h.counter, ← h.made]
  rw [hid, JobTable.jobQuery, JobTable.find?, hf]
  simp [hheap]

theorem Recent.submitsWell {s : JobTable R} {n : Nat} (h : Recent s n) (hn : n + 1 ≤ 99999) (now : R) (kind : Bytes)
    (payload : SortedMap Bytes R) : SubmitsWell s n now kind payload := by
  refine ⟨fun _ => h.submit_find hn now kind payload, ?_⟩
  intro id ref hr hgone id' ref' hr'
  have hs := h.submit hn now kind payload
  obtain ⟨-, h1, h2⟩ := h.find?_iff.1 hr
  obtain ⟨-, h1', h2'⟩ := h.find?_iff.1 hr'
  by_contra hlt
  exact hgone (jobId (ref + 1)) (hs.find?_iff.2 ⟨rfl, by omega, by omega⟩)

theorem Recent.step {s : JobTable R} {n : Nat} (h : Recent s n) (op : JobOp R)
    (hn : n + (if op.isSubmit then 1 else 0) ≤ 99999) : Recent (s.step op) (n + if op.isSubmit then 1 else 0) := by
  cases op with
  | submit now kind payload => exact h.submit hn now kind payload
  | query id => exact h
  | list => exact h
  | runner ref w => exact ⟨h.running, h.counter, by simp [JobTable.step, h.made]; rfl, h.entries⟩

theorem JobTable.run_concat (ops : List (JobOp R)) (op : JobOp R) :
    JobTable.run (ops ++ [op]) = (JobTable.run ops).step op := List.foldl_concat ..

omit [Zero R] in
theorem submits_concat (ops : List (JobOp R)) (op : JobOp R) :
    submits (ops ++ [op]) = submits ops + if op.isSubmit then 1 else 0 := by
  simp [submits, List.countP_append, List.countP_singleton]

theorem recent_run (ops : List (JobOp R)) (h : submits ops ≤ 99999) : Recent (JobTable.run ops) (submits ops) := by
  induction ops using List.reverseRecOn with
  | nil => exact recent_started
  | append_singleton ops op ih =>
    rw [submits_concat] at h ⊢
    rw [JobTable.run_concat]
    exact (ih (by omega)).step op h

/-! ## The 100000th job -/

/-- With 99999 jobs submitted, the next one is dropped at once. -/
theorem Recent.submit_lost {s : JobTable R} (h : Recent s 99999) (now : R) (kind : Bytes)
    (payload : SortedMap Bytes R) :
    (s.jobSubmit now kind payload).2 = jobId 100000 ∧
      (s.jobSubmit now kind payload).1.jobs.find? (jobId 100000) = none := by
  have hfirst : ∀ e ∈ s.jobs.entries, jobId 100000 < e.1 := by
    rintro ⟨id, ref⟩ he
    obtain ⟨rfl, h1, h2⟩ := h.find?_iff.1 (SortedMap.mem_entries.1 he)
    exact jobId_wraps (by omega) (by omega)
  have hlen : s.jobs.entries.length = 200 := by
    rw [h.entries, length_rtake, submitted, List.length_map, List.length_range]; rfl
  simp only [JobTable.jobSubmit, h.running, Bool.not_true, Bool.false_eq_true, if_false, h.counter, true_and]
  -- the new id is the first key, and the 201st
  have hent : (JobTable.dropOldest (s.jobs.insert (jobId 100000) s.heap.length)).entries = s.jobs.entries := by
    rw [dropOldest_entries, SortedMap.insert_first hfirst, List.rtake, List.length_cons, hlen]
    rfl
  rw [SortedMap.find?_eq_none, SortedMap.keys, hent]
  intro hmem
  obtain ⟨e, he, hk⟩ := List.mem_map.1 hmem
  exact absurd (hk ▸ hfirst e he) (lt_irrefl _)

omit [Zero R] in
theorem exists_submission {ops : List (JobOp R)} {k : Nat} (h : k < submits ops) :
    ∃ pre now kind payload, pre ++ [.submit now kind payload] <+: ops ∧ submits pre = k := by
  induction ops using List.reverseRecOn with
  | nil => simp [submits] at h
  | append_singleton ops op ih =>
    rcases Nat.lt_or_ge k (submits ops) with hk | hk
    · obtain ⟨pre, now, kind, payload, hp, hs⟩ := ih hk
      exact ⟨pre, now, kind, payload, hp.trans (List.prefix_append _ _), hs⟩
    · rw [submits_concat] at h
      cases op with
      | submit now kind payload =>
        have hk' : submits ops = k := by simp [JobOp.isSubmit] at h; omega
        exact ⟨ops, now, kind, payload, List.prefix_refl _, hk'⟩
      | _ => simp [JobOp.isSubmit] at h; omega

/-- A run that keeps the recent jobs stops short of the 100000th. -/
theorem submits_le_of_keepsRecent {ops : List (JobOp R)} (h : KeepsRecent ops) : submits ops ≤ 99999 := by
  by_contra hlt
  obtain ⟨pre, now, kind, payload, hp, hs⟩ := exists_submission (show 99999 < submits ops by omega)
  have hr : Recent (JobTable.run pre) 99999 := hs ▸ recent_run pre (by omega)
  obtain ⟨hid, hlost⟩ := hr.submit_lost now kind payload
  have hfound := ((h.2 pre now kind payload hp).1 (by rw [hid, jobId]; simp [txt])).1
  rw [hid, hlost] at hfound
  cases hfound

theorem keepsRecent_of_submits_le {ops : List (JobOp R)} (h : submits ops ≤ 99999) : KeepsRecent ops := by
  have hsub : ∀ {pre : List (JobOp R)}, pre <+: ops → submits pre ≤ submits ops := fun hp => hp.sublist.countP_le
  refine ⟨fun pre hp ref => ?_, fun pre now kind payload hp => ?_⟩
  · have hr := recent_run pre (by have := hsub hp; omega)
    exact ⟨fun ⟨id, hid⟩ => (hr.find?_iff.1 hid).2, fun hb => ⟨jobId (ref + 1), hr.find?_iff.2 ⟨rfl, hb⟩⟩⟩
  · have hle := hsub hp
    rw [submits_concat] at hle
    have hn : submits pre + 1 ≤ submits ops := hle
    exact (recent_run pre (by omega)).submitsWell (by omega) now kind payload

/-- The table keeps the most recent jobs in exactly the runs of at most 99999 submissions. -/
theorem keepsRecent_iff (ops : List (JobOp R)) : KeepsRecent ops ↔ submits ops ≤ 99999 :=
  ⟨submits_le_of_keepsRecent, keepsRecent_of_submits_le⟩

/-- `n` submissions of one job. -/
def sameJob (n : Nat) : List (JobOp Nat) := List.replicate n (.submit 0 (txt "sleep_steps") .empty)

theorem submits_sameJob (n : Nat) : submits (sameJob n) = n := by
  simp [submits, sameJob, List.countP_replicate, JobOp.isSubmit]

/-- After 99999 submissions, `job_query` does not find the job just submitted. -/
theorem job_100000_lost :
    let r := (JobTable.run (sameJob 99999)).jobSubmit 0 (txt "sleep_steps") .empty
    r.2 = txt "J100000" ∧ r.1.jobQuery r.2 = (txt "not_found", 0, 0, []) ∧ ¬KeepsRecent (sameJob 100000) := by
  have hr : Recent (JobTable.run (sameJob 99999)) 99999 := by
    have h := recent_run (sameJob 99999) (submits_sameJob _).le
    rwa [submits_sameJob] at h
  obtain ⟨hid, hlost⟩ := hr.submit_lost 0 (txt "sleep_steps") .empty
  refine ⟨hid.trans (by decide +kernel), ?_, fun h => ?_⟩
  · rw [JobTable.jobQuery, JobTable.find?, hid, hlost]; rfl
  · have := submits_le_of_keepsRecent h
    rw [submits_sameJob] at this
    omega

end NgxLuaCpp
