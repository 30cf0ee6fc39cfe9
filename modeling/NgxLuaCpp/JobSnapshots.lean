import Mathlib.Data.List.GetD
import NgxLuaCpp.RunJob
/-!
# Snapshots of a job

What `job_query` and `job_list` return of a job among running runners, and
that it only moves forward.
-/

namespace NgxLuaCpp

/-! ## What is asked of snapshots -/

/-- A snapshot: what `job_query` returns. -/
abbrev Snapshot := Bytes × ℚ × ℚ × Bytes

/-- The statuses a job does not leave. -/
def Final (status : Bytes) : Prop := status = txt "done" ∨ status = txt "failed"

def rank (status : Bytes) : Nat := if status = txt "queued" then 0 else if status = txt "running" then 1 else 2

/-- What every snapshot must satisfy. -/
structure SnapshotOk (a : Snapshot) : Prop where
  status : a.1 = txt "queued" ∨ a.1 = txt "running" ∨ Final a.1
  progress : 0 ≤ a.2.1 ∧ a.2.1 ≤ 1
  result : a.2.2.2 ≠ [] ↔ Final a.1
  done : a.1 = txt "done" → a.2.1 = 1

/-- `b` is a later snapshot than `a`. -/
structure MovesForward (a b : Snapshot) : Prop where
  status : rank a.1 ≤ rank b.1
  final : Final a.1 → b.1 = a.1
  progress : a.2.1 ≤ b.2.1

/-! ## What a runner has done -/

/-! The record after `w` critical sections. -/

/-- The status after `w` writes of the runner. -/
def JobPlan.statusAfter (p : JobPlan) (w : Nat) : Bytes :=
  if w = 0 then txt "queued" else if w ≤ p.progress.length + 1 then txt "running"
  else if p.failed then txt "failed" else txt "done"

def JobPlan.progressAfter (p : JobPlan) (w : Nat) : ℚ := (0 :: p.progress).getD (min (w - 1) p.progress.length) 0

def JobPlan.resultAfter (p : JobPlan) (w : Nat) : Bytes := if w ≤ p.progress.length + 1 then [] else p.resultText

theorem statusAfter_last {p : JobPlan} {w : Nat} (h : p.progress.length + 1 < w) :
    p.statusAfter w = if p.failed then txt "failed" else txt "done" := by
  rw [JobPlan.statusAfter, if_neg (show w ≠ 0 by omega), if_neg (show ¬ w ≤ p.progress.length + 1 by omega)]

/-- The record is what the first `w` critical sections of its runner make of it. -/
structure Follows (job : Job ℚ) (w : Nat) : Prop where
  status : job.status = job.plan.statusAfter w
  progress : job.progress = job.plan.progressAfter w
  result : job.result = job.plan.resultAfter w

theorem plan_apply (w : RunnerWrite ℚ) (job : Job ℚ) : (w.apply job).plan = job.plan := by
  cases w <;> rfl

/-- The record after the next critical section. -/
theorem follows_write {job : Job ℚ} {w : Nat} (h : Follows job w) {elapsed : ℚ} {s : RunnerWrite ℚ × Bytes}
    (hs : (sections job elapsed)[w]? = some s) : Follows (s.1.apply job) (w + 1) := by
  unfold sections at hs
  obtain ⟨hstatus, hprogress, hresult⟩ := h
  cases w with
  | zero =>
    obtain rfl : _ = s := by simpa using hs
    refine ⟨?_, ?_, ?_⟩
    · rw [plan_apply]
      simp [RunnerWrite.apply, JobPlan.statusAfter]
    · rw [plan_apply]
      simpa [RunnerWrite.apply, JobPlan.progressAfter] using hprogress
    · rw [plan_apply]
      simpa [RunnerWrite.apply, JobPlan.resultAfter] using hresult
  | succ i =>
    rw [List.cons_append, List.getElem?_cons_succ] at hs
    rcases Nat.lt_trichotomy i job.plan.progress.length with hi | rfl | hi
    · rw [List.getElem?_append_left (by simpa using hi), List.getElem?_map, List.getElem?_eq_getElem hi] at hs
      obtain rfl : _ = s := by simpa using hs
      refine ⟨?_, ?_, ?_⟩
      · rw [plan_apply]
        simp only [RunnerWrite.apply, hstatus, JobPlan.statusAfter]
        rw [if_neg (by omega), if_pos (by omega), if_neg (by omega), if_pos (by omega)]
      · rw [plan_apply]
        simp only [RunnerWrite.apply, JobPlan.progressAfter]
        rw [min_eq_left (by omega)]
        simp [hi]
      · rw [plan_apply]
        simp only [RunnerWrite.apply, hresult, JobPlan.resultAfter]
        rw [if_pos (by omega), if_pos (by omega)]
    · rw [List.getElem?_append_right (by simp), List.length_map, Nat.sub_self] at hs
      obtain rfl : _ = s := by simpa using hs
      refine ⟨?_, ?_, ?_⟩
      · rw [plan_apply]
        rw [statusAfter_last (Nat.lt_succ_self _)]
        rfl
      · rw [plan_apply]
        simp only [RunnerWrite.apply, hprogress, JobPlan.progressAfter]
        rw [min_eq_right (by omega), min_eq_right (by omega)]
      · rw [plan_apply]
        simp only [RunnerWrite.apply, JobPlan.resultAfter]
        rw [if_neg (by omega)]
    · rw [List.getElem?_eq_none (by simp; omega)] at hs
      simp at hs

/-! ## Snapshots of one record -/

theorem JobPlan.Sound.grows {p : JobPlan} (h : p.Sound) {i j : Nat} (hij : i ≤ j) (hj : j ≤ p.progress.length) :
    (0 :: p.progress).getD i 0 ≤ (0 :: p.progress).getD j 0 := by
  have hsorted : (0 :: p.progress).Pairwise (· ≤ ·) := List.pairwise_cons.2 ⟨fun x hx => (h.bounds x hx).1, h.sorted⟩
  have hlen : (0 :: p.progress).length = p.progress.length + 1 := rfl
  rcases hij.lt_or_eq with hlt | rfl
  · rw [List.getD_eq_getElem _ _ (by omega), List.getD_eq_getElem _ _ (by omega)]
    exact List.pairwise_iff_getElem.1 hsorted i j (by omega) (by omega) hlt
  · exact le_refl _

theorem JobPlan.Sound.progress_mono {p : JobPlan} (h : p.Sound) {w w' : Nat} (hw : w ≤ w') :
    p.progressAfter w ≤ p.progressAfter w' := by
  apply h.grows <;> omega

theorem JobPlan.Sound.progress_bounds {p : JobPlan} (h : p.Sound) (w : Nat) :
    0 ≤ p.progressAfter w ∧ p.progressAfter w ≤ 1 := by
  refine ⟨h.grows (i := 0) (Nat.zero_le _) (min_le_right _ _), ?_⟩
  unfold JobPlan.progressAfter
  have hlt : min (w - 1) p.progress.length < (0 :: p.progress).length := by
    simp only [List.length_cons]
    omega
  rw [List.getD_eq_getElem _ _ hlt]
  rcases List.mem_cons.1 (List.getElem_mem hlt) with h0 | hmem
  · rw [h0]
    exact zero_le_one
  · exact (h.bounds _ hmem).2

theorem JobPlan.Sound.progress_full {p : JobPlan} (h : p.Sound) (hf : p.failed = false) {w : Nat}
    (hw : p.progress.length + 1 < w) : p.progressAfter w = 1 := by
  have hlast : (0 :: p.progress).getLast? = some 1 := by
    rw [List.getLast?_cons, h.full hf]
    rfl
  rw [List.getLast?_eq_getElem?, List.length_cons, Nat.add_sub_cancel] at hlast
  rw [JobPlan.progressAfter, min_eq_right (by omega), List.getD_eq_getElem?_getD, hlast]
  rfl

/-- The status is final after the last critical section. -/
theorem final_iff (p : JobPlan) (w : Nat) : Final (p.statusAfter w) ↔ p.progress.length + 1 < w := by
  unfold Final JobPlan.statusAfter
  split
  · subst w
    constructor
    · intro h
      exact absurd h (by decide)
    · intro h
      omega
  · split
    · constructor
      · intro h
        exact absurd h (by decide)
      · intro h
        omega
    · have hlt : p.progress.length + 1 < w := by omega
      cases p.failed <;> simp [hlt]

/-- What `job_query` returns of the record. -/
def Job.snapshot (job : Job ℚ) : Snapshot := (job.status, job.progress, job.elapsedMs, job.result)

/-- A record that follows its plan is a good snapshot. -/
theorem Follows.ok {job : Job ℚ} {w : Nat} (h : Follows job w) : SnapshotOk job.snapshot := by
  have hsound : job.plan.Sound := plan_sound job.kind job.payload
  obtain ⟨hstatus, hprogress, hresult⟩ := h
  refine ⟨?_, ?_, ?_, ?_⟩
  · show job.status = _ ∨ job.status = _ ∨ Final job.status
    rw [hstatus, final_iff]
    unfold JobPlan.statusAfter
    by_cases h0 : w = 0
    · exact .inl (if_pos h0)
    · by_cases hle : w ≤ job.plan.progress.length + 1
      · rw [if_neg h0, if_pos hle]
        exact .inr (.inl rfl)
      · exact .inr (.inr (by omega))
  · show 0 ≤ job.progress ∧ job.progress ≤ 1
    rw [hprogress]
    exact hsound.progress_bounds w
  · show job.result ≠ [] ↔ Final job.status
    rw [hresult, hstatus, final_iff, JobPlan.resultAfter]
    split
    · rename_i hle
      simpa using hle
    · rename_i hlt
      simpa [hsound.text] using hlt
  · intro hdone
    have hdone : job.plan.statusAfter w = txt "done" := hstatus.symm.trans hdone
    have hlt := (final_iff _ _).1 (.inl hdone)
    have hf : job.plan.failed = false := by
      rw [statusAfter_last hlt] at hdone
      by_contra hne
      rw [if_pos (by simpa using hne)] at hdone
      exact absurd hdone (by decide)
    exact hprogress.trans (hsound.progress_full hf hlt)

theorem rank_statusAfter (p : JobPlan) (w : Nat) :
    rank (p.statusAfter w) = if w = 0 then 0 else if w ≤ p.progress.length + 1 then 1 else 2 := by
  unfold JobPlan.statusAfter
  split
  · rfl
  · split
    · rfl
    · cases p.failed <;> rfl

theorem Follows.forward {job job' : Job ℚ} {w w' : Nat} (h : Follows job w) (h' : Follows job' w')
    (hplan : job'.plan = job.plan) (hw : w ≤ w') : MovesForward job.snapshot job'.snapshot := by
  have hsound : job.plan.Sound := plan_sound job.kind job.payload
  refine ⟨?_, ?_, ?_⟩
  · show rank job.status ≤ rank job'.status
    rw [h.status, h'.status, hplan, rank_statusAfter, rank_statusAfter]
    split_ifs <;> omega
  · show Final job.status → job'.status = job.status
    rw [h.status, h'.status, hplan, final_iff]
    intro hlt
    rw [statusAfter_last hlt, statusAfter_last (hlt.trans_le hw)]
  · show job.progress ≤ job'.progress
    rw [h.progress, h'.progress, hplan]
    exact hsound.progress_mono hw

/-! ## Every record of a run -/

theorem flatMap_pairs {α β : Type} (f g : α → β) (l : List α) (i : Nat) :
    (l.flatMap fun x => [f x, g x])[2 * i]? = l[i]?.map f ∧
      (l.flatMap fun x => [f x, g x])[2 * i + 1]? = l[i]?.map g := by
  induction l generalizing i with
  | nil => simp
  | cons x l ih =>
    cases i with
    | zero => simp
    | succ i =>
      rw [List.flatMap_cons, show 2 * (i + 1) = 2 * i + 1 + 1 by omega, List.getElem?_cons_succ]
      exact ih i

/-- `done` actions are half as many critical sections, the one begun included. -/
structure JobSystem.Inv (s : JobSystem) : Prop where
  running : s.table.running = true
  counter : s.table.jobCounter = s.table.heap.length
  runners : s.runners.length = s.table.heap.length
  follows : ∀ (ref : Nat) (job : Job ℚ) (done : Nat), s.table.heap[ref]? = some job → s.runners[ref]? = some done →
    Follows job ((done + 1) / 2)
  found : ∀ (id : Bytes) (ref : Nat), s.table.jobs.find? id = some ref →
    id = jobId (ref + 1) ∧ ref < s.table.heap.length

theorem inv_started : JobSystem.started.Inv where
  running := rfl
  counter := rfl
  runners := rfl
  follows ref job done h := by simp [JobSystem.started, JobTable.started] at h
  found id ref h := by simp [JobSystem.started, JobTable.started] at h

theorem find?_dropOldest {m : SortedMap Bytes Nat} {id : Bytes} {ref : Nat}
    (h : (JobTable.dropOldest m).find? id = some ref) : m.find? id = some ref := by
  rw [← SortedMap.mem_entries, dropOldest_entries] at h
  exact SortedMap.mem_entries.1 ((Window.rtake_sublist 200 m.entries).subset h)

theorem jobId_ne_nil (n : Nat) : jobId n ≠ [] := by simp [jobId, txt]

/-- The record a submission makes. -/
def newJob (s : JobSystem) (now : ℚ) (kind : Bytes) (payload : SortedMap Bytes ℚ) : Job ℚ :=
  ⟨jobId (s.table.jobCounter + 1), kind, payload, txt "queued", [], 0, 0, now⟩

theorem step_submit {s : JobSystem} (h : s.Inv) (now : ℚ) (kind : Bytes) (payload : SortedMap Bytes ℚ) :
    s.step (.submit now kind payload) =
      ⟨⟨true, JobTable.dropOldest (s.table.jobs.insert (jobId (s.table.jobCounter + 1)) s.table.heap.length),
        s.table.jobCounter + 1, s.table.heap ++ [newJob s now kind payload]⟩, s.bus, s.runners ++ [0]⟩ := by
  simp only [JobSystem.step, JobTable.jobSubmit, h.running, Bool.not_true, Bool.false_eq_true, if_false,
    if_neg (jobId_ne_nil _), newJob]

/-- A job submitted starts at its first critical section. -/
theorem JobSystem.Inv.submit {s : JobSystem} (h : s.Inv) (now : ℚ) (kind : Bytes) (payload : SortedMap Bytes ℚ) :
    (s.step (.submit now kind payload)).Inv := by
  rw [step_submit h]
  refine ⟨rfl, ?_, ?_, ?_, ?_⟩
  · simp [h.counter]
  · simp [h.runners]
  · intro ref job done hjob hdone
    rcases Nat.lt_or_ge ref s.table.heap.length with hlt | hge
    · rw [List.getElem?_append_left hlt] at hjob
      rw [List.getElem?_append_left (by rwa [h.runners])] at hdone
      exact h.follows ref job done hjob hdone
    · -- the new record
      rw [List.getElem?_append_right hge] at hjob
      rw [List.getElem?_append_right (by rwa [h.runners]), h.runners] at hdone
      obtain ⟨hi, rfl⟩ := List.getElem?_eq_some_iff.1 hjob
      obtain ⟨_, rfl⟩ := List.getElem?_eq_some_iff.1 hdone
      have h0 : ref - s.table.heap.length = 0 := by simpa using hi
      simp only [h0, List.getElem_cons_zero]
      exact ⟨rfl, rfl, rfl⟩
  · intro id ref hfind
    have hfind := find?_dropOldest hfind
    rw [SortedMap.find?_insert] at hfind
    by_cases hid : id = jobId (s.table.jobCounter + 1)
    · rw [if_pos hid] at hfind
      obtain rfl : s.table.heap.length = ref := by simpa using hfind
      exact ⟨by rw [hid, h.counter], by simp⟩
    · rw [if_neg hid] at hfind
      obtain ⟨hid, hlt⟩ := h.found id ref hfind
      exact ⟨hid, by simp; omega⟩

/-- A runner's actions are critical sections and publications in turn. -/
theorem runJob_action {job : Job ℚ} {elapsed : ℚ} {done : Nat} {a : RunnerAction}
    (h : (runJob job elapsed)[done]? = some a) :
    (∃ w sec, done = 2 * w ∧ (sections job elapsed)[w]? = some sec ∧ a = .write sec.1) ∨
      ∃ w payload, done = 2 * w + 1 ∧ a = .pub payload := by
  obtain ⟨w, hw⟩ : ∃ w, done = 2 * w ∨ done = 2 * w + 1 := ⟨done / 2, by omega⟩
  obtain ⟨hwrite, hpub⟩ := flatMap_pairs (fun s => RunnerAction.write s.1) (fun s => .pub s.2) (sections job elapsed) w
  unfold runJob at h
  rcases hw with rfl | rfl
  · rw [hwrite, Option.map_eq_some_iff] at h
    obtain ⟨sec, hsec, rfl⟩ := h
    exact .inl ⟨w, sec, rfl, hsec, rfl⟩
  · rw [hpub, Option.map_eq_some_iff] at h
    obtain ⟨sec, -, rfl⟩ := h
    exact .inr ⟨w, sec.2, rfl, rfl⟩

/-- What a runner can do: nothing, write its record, or publish. -/
inductive RunnerStep (s : JobSystem) (ref : Nat) (now elapsed : ℚ) : JobSystem → Prop where
  | idle : RunnerStep s ref now elapsed s
  | write {job : Job ℚ} {w : Nat} {sec : RunnerWrite ℚ × Bytes} :
      s.table.heap[ref]? = some job → s.runners[ref]? = some (2 * w) → (sections job elapsed)[w]? = some sec →
      RunnerStep s ref now elapsed
        ⟨{ s.table with heap := s.table.heap.modify ref sec.1.apply }, s.bus, s.runners.modify ref (· + 1)⟩
  | pub {w : Nat} {payload : Bytes} :
      s.runners[ref]? = some (2 * w + 1) →
      RunnerStep s ref now elapsed ⟨s.table, s.bus.pub (txt "jobs") now payload, s.runners.modify ref (· + 1)⟩

theorem runner_step (s : JobSystem) (ref : Nat) (now elapsed : ℚ) :
    RunnerStep s ref now elapsed (s.step (.runner ref now elapsed)) := by
  rw [JobSystem.step]
  cases hnext : s.next? ref elapsed with
  | none => exact .idle
  | some a =>
    unfold JobSystem.next? at hnext
    obtain ⟨job, hjob, hnext⟩ := Option.bind_eq_some_iff.1 hnext
    obtain ⟨done, hdone, hnext⟩ := Option.bind_eq_some_iff.1 hnext
    rcases runJob_action hnext with ⟨w, sec, rfl, hsec, rfl⟩ | ⟨w, payload, rfl, rfl⟩
    · exact .write hjob hdone hsec
    · exact .pub hdone

def JobEvent.isSubmit : JobEvent → Bool
  | .submit .. => true
  | _ => false

/-- Runners write the table as `JobOp.runner` does, so its runs are known. -/
theorem table_run (evs : List JobEvent) :
    ∃ ops, (JobSystem.run evs).table = JobTable.run ops ∧ submits ops = evs.countP JobEvent.isSubmit := by
  induction evs using List.reverseRecOn with
  | nil => exact ⟨[], rfl, rfl⟩
  | append_singleton evs ev ih =>
    obtain ⟨ops, htable, hsubmits⟩ := ih
    have hop (op : JobOp ℚ) (ht : ((JobSystem.run evs).step ev).table = (JobSystem.run evs).table.step op)
        (hs : op.isSubmit = ev.isSubmit) : ∃ ops, ((JobSystem.run evs).step ev).table = JobTable.run ops ∧
          submits ops = (evs ++ [ev]).countP JobEvent.isSubmit := by
      refine ⟨ops ++ [op], ?_, ?_⟩
      · rw [ht, htable, JobTable.run_concat]
      · rw [submits_concat, hsubmits, hs, List.countP_append, List.countP_singleton]
    rw [JobSystem.run_concat]
    cases ev with
    | submit now kind payload => exact hop (.submit now kind payload) rfl rfl
    | query id => exact hop (.query id) rfl rfl
    | list => exact hop .list rfl rfl
    | runner ref now elapsed =>
      have hstep := runner_step (JobSystem.run evs) ref now elapsed
      generalize (JobSystem.run evs).step (.runner ref now elapsed) = s' at hstep hop ⊢
      cases hstep with
      | idle => exact hop (.query []) rfl rfl
      | @write _ _ sec => exact hop (.runner ref sec.1) rfl rfl
      | pub => exact hop (.query []) rfl rfl

/-- So the table holds the most recent jobs whatever the runners do. -/
theorem holdsRecent_run {evs : List JobEvent} (h : evs.countP JobEvent.isSubmit ≤ 99999) :
    HoldsRecent (JobSystem.run evs).table (evs.countP JobEvent.isSubmit) := by
  obtain ⟨ops, htable, hsubmits⟩ := table_run evs
  rw [← hsubmits] at h ⊢
  rw [htable]
  exact (keepsRecent_of_submits_le h).1 ops (List.prefix_refl ops)

/-- An action of a runner keeps the invariant. -/
theorem JobSystem.Inv.runner {s s' : JobSystem} (h : s.Inv) {ref : Nat} {now elapsed : ℚ}
    (hs : RunnerStep s ref now elapsed s') : s'.Inv := by
  cases hs with
  | idle => exact h
  | @write job w sec hjob hdone hsec =>
    have hfollows := h.follows ref job (2 * w) hjob hdone
    rw [show (2 * w + 1) / 2 = w by omega] at hfollows
    have hwrite := follows_write hfollows hsec
    refine ⟨h.running, ?_, ?_, ?_, ?_⟩
    · simp [h.counter]
    · simp [h.runners]
    · intro ref' job' done' hjob' hdone'
      simp only [List.getElem?_modify] at hjob' hdone'
      by_cases hr : ref = ref'
      · subst hr
        obtain rfl : sec.1.apply job = job' := by simpa [hjob] using hjob'
        obtain rfl : 2 * w + 1 = done' := by simpa [hdone] using hdone'
        rw [show (2 * w + 1 + 1) / 2 = w + 1 by omega]
        exact hwrite
      · exact h.follows ref' job' done' (by simpa [hr] using hjob') (by simpa [hr] using hdone')
    · intro id ref' hfind
      obtain ⟨hid, hlt⟩ := h.found id ref' hfind
      exact ⟨hid, by simpa using hlt⟩
  | @pub w payload hdone =>
    refine ⟨h.running, h.counter, ?_, ?_, h.found⟩
    · simp [h.runners]
    · intro ref' job' done' hjob' hdone'
      simp only [List.getElem?_modify] at hdone'
      by_cases hr : ref = ref'
      · subst hr
        obtain rfl : 2 * w + 1 + 1 = done' := by simpa [hdone] using hdone'
        rw [show (2 * w + 1 + 1 + 1) / 2 = (2 * w + 1 + 1) / 2 by omega]
        exact h.follows ref job' (2 * w + 1) hjob' hdone
      · exact h.follows ref' job' done' hjob' (by simpa [hr] using hdone')

theorem inv_run (evs : List JobEvent) : (JobSystem.run evs).Inv := by
  induction evs using List.reverseRecOn with
  | nil => exact inv_started
  | append_singleton evs ev ih =>
    rw [JobSystem.run_concat]
    cases ev with
    | submit now kind payload => exact ih.submit now kind payload
    | runner ref now elapsed => exact ih.runner (runner_step _ ref now elapsed)
    | query id => exact ih
    | list => exact ih

/-! ## Later states -/

/-- The records of `s` are in `s'`, their runners no less far. -/
def Later (s s' : JobSystem) : Prop :=
  ∀ (ref : Nat) (job : Job ℚ) (done : Nat), s.table.heap[ref]? = some job → s.runners[ref]? = some done →
    ∃ job' done', s'.table.heap[ref]? = some job' ∧ s'.runners[ref]? = some done' ∧
      job'.plan = job.plan ∧ done ≤ done'

theorem later_refl (s : JobSystem) : Later s s := fun _ job done hjob hdone =>
  ⟨job, done, hjob, hdone, rfl, le_refl done⟩

theorem Later.trans {s s' s'' : JobSystem} (h : Later s s') (h' : Later s' s'') : Later s s'' := by
  intro ref job done hjob hdone
  obtain ⟨job', done', hjob', hdone', hplan, hle⟩ := h ref job done hjob hdone
  obtain ⟨job'', done'', hjob'', hdone'', hplan', hle'⟩ := h' ref job' done' hjob' hdone'
  exact ⟨job'', done'', hjob'', hdone'', hplan'.trans hplan, hle.trans hle'⟩

theorem later_submit {s : JobSystem} (h : s.Inv) (now : ℚ) (kind : Bytes) (payload : SortedMap Bytes ℚ) :
    Later s (s.step (.submit now kind payload)) := by
  intro ref job done hjob hdone
  rw [step_submit h]
  refine ⟨job, done, ?_, ?_, rfl, le_refl done⟩
  · exact List.getElem?_append_left (List.getElem?_eq_some_iff.1 hjob).1 ▸ hjob
  · exact List.getElem?_append_left (List.getElem?_eq_some_iff.1 hdone).1 ▸ hdone

/-- An action of a runner only takes a record further. -/
theorem later_runner {s s' : JobSystem} {ref : Nat} {now elapsed : ℚ} (hs : RunnerStep s ref now elapsed s') :
    Later s s' := by
  intro ref' job' done' hjob' hdone'
  have hmore : ∃ done'', (s.runners.modify ref (· + 1))[ref']? = some done'' ∧ done' ≤ done'' := by
    rw [List.getElem?_modify, hdone']
    by_cases hr : ref = ref'
    · exact ⟨done' + 1, by simp [hr], Nat.le_succ done'⟩
    · exact ⟨done', by simp [hr], le_refl done'⟩
  obtain ⟨done'', hmore, hle⟩ := hmore
  cases hs with
  | idle => exact ⟨job', done', hjob', hdone', rfl, le_refl done'⟩
  | @write job w sec =>
    by_cases hr : ref = ref'
    · refine ⟨sec.1.apply job', done'', ?_, hmore, plan_apply sec.1 job', hle⟩
      simp [hr, hjob']
    · refine ⟨job', done'', ?_, hmore, rfl, hle⟩
      simp [hr, hjob']
  | pub => exact ⟨job', done'', hjob', hmore, rfl, hle⟩

theorem later_run (evs more : List JobEvent) : Later (JobSystem.run evs) (JobSystem.run (evs ++ more)) := by
  induction more using List.reverseRecOn with
  | nil =>
    rw [List.append_nil]
    exact later_refl _
  | append_singleton more ev ih =>
    rw [← List.append_assoc, JobSystem.run_concat]
    apply ih.trans
    cases ev with
    | submit now kind payload => exact later_submit (inv_run _) now kind payload
    | runner ref now elapsed => exact later_runner (runner_step _ ref now elapsed)
    | query id => exact later_refl _
    | list => exact later_refl _

/-! ## Snapshots -/

theorem jobId_injective {m n : Nat} (h : jobId m = jobId n) : m = n :=
  padded_injective (List.append_cancel_left h)

/-- `job_query` finds the record of the runner it stands for. -/
theorem JobSystem.Inv.query {s : JobSystem} (h : s.Inv) {id : Bytes}
    (hfound : (s.table.jobQuery id).1 ≠ txt "not_found") :
    ∃ ref job done, id = jobId (ref + 1) ∧ s.table.heap[ref]? = some job ∧ s.runners[ref]? = some done ∧
      s.table.jobQuery id = job.snapshot := by
  unfold JobTable.jobQuery at hfound ⊢
  cases hfind : s.table.find? id with
  | none =>
    rw [hfind] at hfound
    exact absurd rfl hfound
  | some job =>
    obtain ⟨ref, hid, hjob⟩ := Option.bind_eq_some_iff.1 hfind
    obtain ⟨hid, hlt⟩ := h.found id ref hid
    rw [← h.runners] at hlt
    exact ⟨ref, job, s.runners[ref], hid, hjob, List.getElem?_eq_getElem hlt, rfl⟩

/-- `job_list` shows what `job_query` does. -/
theorem JobSystem.Inv.list {s : JobSystem} (h : s.Inv) {e : Bytes × Bytes × Bytes × ℚ × ℚ} (he : e ∈ s.table.jobList) :
    e.2.2.1 ≠ txt "not_found" ∧ ∃ result, s.table.jobQuery e.1 = (e.2.2.1, e.2.2.2.1, e.2.2.2.2, result) := by
  unfold JobTable.jobList at he
  obtain ⟨⟨id, ref⟩, hmem, he⟩ := List.mem_filterMap.1 he
  obtain ⟨job, hjob, rfl⟩ := Option.map_eq_some_iff.1 he
  have hfind : s.table.find? id = some job := by
    rw [JobTable.find?, SortedMap.mem_entries.1 hmem]
    exact hjob
  constructor
  · obtain ⟨-, hlt⟩ := h.found id ref (SortedMap.mem_entries.1 hmem)
    rw [← h.runners] at hlt
    have hstatus := (h.follows ref job _ hjob (List.getElem?_eq_getElem hlt)).ok.status
    intro hnot
    rw [show job.snapshot.1 = txt "not_found" from hnot] at hstatus
    revert hstatus
    unfold Final
    decide
  · refine ⟨job.result, ?_⟩
    rw [JobTable.jobQuery, hfind]

/-- Any two snapshots of a job, in any order of submissions, runner steps and
queries: each is in order, and the later one is no less far. The entries of
`job_list` are such snapshots too. -/
theorem snapshots_move_forward (evs more : List JobEvent) :
    (∀ id, ((JobSystem.run evs).table.jobQuery id).1 ≠ txt "not_found" →
      ((JobSystem.run (evs ++ more)).table.jobQuery id).1 ≠ txt "not_found" →
      SnapshotOk ((JobSystem.run evs).table.jobQuery id) ∧
      MovesForward ((JobSystem.run evs).table.jobQuery id) ((JobSystem.run (evs ++ more)).table.jobQuery id)) ∧
    ∀ e ∈ (JobSystem.run evs).table.jobList, e.2.2.1 ≠ txt "not_found" ∧
      ∃ result, (JobSystem.run evs).table.jobQuery e.1 = (e.2.2.1, e.2.2.2.1, e.2.2.2.2, result) := by
  have hinv := inv_run evs
  have hinv' := inv_run (evs ++ more)
  refine ⟨?_, fun e he => hinv.list he⟩
  intro id ha hb
  obtain ⟨ref, job, done, hid, hjob, hdone, hquery⟩ := hinv.query ha
  obtain ⟨ref', job'', done'', hid', hjob'', hdone'', hquery'⟩ := hinv'.query hb
  obtain ⟨job', done', hjob', hdone', hplan, hle⟩ := later_run evs more ref job done hjob hdone
  -- ids are not used again
  obtain rfl : ref = ref' := Nat.succ_injective (jobId_injective (hid.symm.trans hid'))
  obtain rfl : job' = job'' := Option.some.inj (hjob'.symm.trans hjob'')
  obtain rfl : done' = done'' := Option.some.inj (hdone'.symm.trans hdone'')
  have hfollows := hinv.follows ref job done hjob hdone
  have hfollows' := hinv'.follows ref job' done' hjob' hdone'
  rw [hquery, hquery']
  exact ⟨hfollows.ok, hfollows.forward hfollows' hplan (by omega)⟩

/-- A job of one step, begun. -/
def napBegun : List JobEvent :=
  [.submit 0 (txt "sleep_steps") (SortedMap.empty.insert (txt "steps") 1), .runner 0 0 0, .runner 0 0 0]

theorem nap_moves_forward :
    let before := (JobSystem.run napBegun).table.jobQuery (txt "J00001")
    let after := (JobSystem.run (napBegun ++ List.replicate 4 (.runner 0 5 5))).table.jobQuery (txt "J00001")
    before.1 = txt "running" ∧ after.1 = txt "done" ∧ SnapshotOk before ∧ MovesForward before after := by
  have hbefore : ((JobSystem.run napBegun).table.jobQuery (txt "J00001")).1 = txt "running" := by decide +kernel
  have hafter : ((JobSystem.run (napBegun ++ List.replicate 4 (.runner 0 5 5))).table.jobQuery (txt "J00001")).1 =
      txt "done" := by decide +kernel
  refine ⟨hbefore, hafter, (snapshots_move_forward napBegun (List.replicate 4 (.runner 0 5 5))).1 _ ?_ ?_⟩
  · rw [hbefore]
    decide
  · rw [hafter]
    decide

end NgxLuaCpp
