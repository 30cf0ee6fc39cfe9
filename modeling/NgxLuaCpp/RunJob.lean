import NgxLuaCpp.CountPrimes
import NgxLuaCpp.EventBus
import NgxLuaCpp.Jobs
import NgxLuaCpp.Lib.Binary64
/-!
# Running jobs

`run_job` takes the mutex for each write to its record and publishes after it.
Any number of runners take these steps in any order, among submissions and
queries. A finite `double` is its value.
-/

namespace NgxLuaCpp

/-! ## What a job does -/

/-- `std::to_string` of a `double`: six decimals. -/
def dblToString (x : ℚ) : Bytes :=
  let m := (Binary64.roundEven (x * 1000000)).toNat
  decimal (m / 1000000) ++ txt "." ++ lastDigits 6 (m % 1000000)

/-- The progress reported in `n` of `total` steps. -/
def reports (total n : Nat) : List ℚ := (List.range n).map fun i => Binary64.round ((i + 1 : Nat) / total)

/-- What a kind and its payload come to. -/
structure JobPlan where
  progress : List ℚ
  failed : Bool
  resultText : Bytes

/-- What `count_primes` comes to. -/
def planCountPrimes (payload : SortedMap Bytes ℚ) : JobPlan :=
  let limit := clamp ⌊(payload.find? (txt "limit")).getD 10000000⌋₊ 1000 200000000
  { progress := reports chunks (segments limit).length
    failed := false
    resultText := decimal (countPrimes limit) ++ txt " primes <= " ++ decimal limit }

/-- What `sleep_steps` comes to. -/
def planSleepSteps (payload : SortedMap Bytes ℚ) : JobPlan :=
  let steps := clamp ⌊(payload.find? (txt "steps")).getD 50⌋₊ 1 200
  let ms := clamp ((payload.find? (txt "ms")).getD 2000) 100 60000
  let stepMs := max ⌊Binary64.round (ms / steps)⌋₊ 1
  { progress := reports steps steps
    failed := false
    resultText := txt "slept " ++ decimal (steps * stepMs) ++ txt " ms in " ++ decimal steps ++ txt " steps" }

def plan (kind : Bytes) (payload : SortedMap Bytes ℚ) : JobPlan :=
  if kind = txt "count_primes" then planCountPrimes payload
  else if kind = txt "sleep_steps" then planSleepSteps payload
  else { progress := [], failed := true, resultText := txt "unknown job kind: " ++ kind }

def Job.plan (job : Job ℚ) : JobPlan := NgxLuaCpp.plan job.kind job.payload

/-- `id|kind|status|progress|elapsed` -/
def Job.message (job : Job ℚ) (status progress elapsed : Bytes) : Bytes :=
  (txt "|").intercalate [job.id, job.kind, status, progress, elapsed]

/-- The critical sections of `run_job`, each with what is published after it.
`job` is the record at that time, and `elapsed` what the clock shows. -/
def sections (job : Job ℚ) (elapsed : ℚ) : List (RunnerWrite ℚ × Bytes) :=
  (.running, job.message (txt "running") (txt "0.0") (txt "0.0")) ::
    job.plan.progress.map (fun x =>
      (.progress x, job.message (txt "running") (dblToString job.progress) (dblToString elapsed))) ++
    [(.finish job.plan.failed job.plan.resultText elapsed,
      job.message (if job.plan.failed then txt "failed" else txt "done") (txt "1.0") (dblToString job.elapsedMs))]

/-- What a runner does next: a critical section, or the publication after it. -/
inductive RunnerAction where
  | write (w : RunnerWrite ℚ)
  | pub (payload : Bytes)

/-- `run_job`: what it does, in order. -/
def runJob (job : Job ℚ) (elapsed : ℚ) : List RunnerAction :=
  (sections job elapsed).flatMap fun s => [.write s.1, .pub s.2]

/-! ## Runners among queries -/

/-- The table, the bus, and how many actions the runner of each record has taken. -/
structure JobSystem where
  table : JobTable ℚ
  bus : EventBus ℚ
  runners : List Nat

/-- A call of the job API, or the next action of a runner. -/
inductive JobEvent where
  | submit (now : ℚ) (kind : Bytes) (payload : SortedMap Bytes ℚ)
  | runner (ref : Nat) (now elapsed : ℚ)
  | query (id : Bytes)
  | list

namespace JobSystem

def started : JobSystem := ⟨.started, .new, []⟩

def act (s : JobSystem) (ref : Nat) (now : ℚ) : RunnerAction → JobSystem
  | .write w => { s with table := s.table.step (.runner ref w) }
  | .pub payload => { s with bus := s.bus.pub (txt "jobs") now payload }

/-- The next action of a runner. -/
def next? (s : JobSystem) (ref : Nat) (elapsed : ℚ) : Option RunnerAction := do
  let job ← s.table.heap[ref]?
  let done ← s.runners[ref]?
  (runJob job elapsed)[done]?

/-- A call, or the next action of a runner, if it has one. -/
def step (s : JobSystem) : JobEvent → JobSystem
  | .submit now kind payload =>
    let r := s.table.jobSubmit now kind payload
    -- a refused job has no runner
    { s with table := r.1, runners := if r.2 = [] then s.runners else s.runners ++ [0] }
  | .runner ref now elapsed =>
    match s.next? ref elapsed with
    | none => s
    | some a => { s.act ref now a with runners := s.runners.modify ref (· + 1) }
  | .query id => { s with table := s.table.step (.query id) }
  | .list => { s with table := s.table.step .list }

/-- The system after these events. -/
def run (evs : List JobEvent) : JobSystem := evs.foldl step started

theorem run_concat (evs : List JobEvent) (ev : JobEvent) : run (evs ++ [ev]) = (run evs).step ev :=
  List.foldl_concat ..

end JobSystem

/-! ## Plans -/

/-- Progress grows to 1, and there is a result. -/
structure JobPlan.Sound (p : JobPlan) : Prop where
  sorted : p.progress.Pairwise (· ≤ ·)
  bounds : ∀ x ∈ p.progress, 0 ≤ x ∧ x ≤ 1
  full : p.failed = false → p.progress.getLast? = some 1
  text : p.resultText ≠ []

theorem reports_sorted (total n : Nat) (h : 0 < total) : (reports total n).Pairwise (· ≤ ·) := by
  have hpos : (0 : ℚ) < total := by exact_mod_cast h
  rw [reports, List.pairwise_map]
  refine List.pairwise_lt_range.imp ?_
  intro i j hij
  apply Binary64.round_mono
  · positivity
  · rw [div_le_div_iff_of_pos_right hpos]
    exact_mod_cast Nat.succ_le_succ hij.le

theorem reports_bounds {total n : Nat} (h : 0 < total) (hn : n ≤ total) : ∀ x ∈ reports total n, 0 ≤ x ∧ x ≤ 1 := by
  have hpos : (0 : ℚ) < total := by exact_mod_cast h
  intro x hx
  obtain ⟨i, hi, rfl⟩ := List.mem_map.1 hx
  have hi := List.mem_range.1 hi
  have h0 : (0 : ℚ) < (i + 1 : Nat) / total := by positivity
  have h1 : ((i + 1 : Nat) : ℚ) / total ≤ 1 := by
    rw [div_le_one hpos]
    exact_mod_cast (show i + 1 ≤ total by omega)
  refine ⟨Binary64.round_nonneg h0, ?_⟩
  rw [← Binary64.round_one]
  exact Binary64.round_mono h0 h1

theorem reports_full {total : Nat} (h : 0 < total) : (reports total total).getLast? = some 1 := by
  have hpos : (total : ℚ) ≠ 0 := by exact_mod_cast h.ne'
  obtain ⟨n, rfl⟩ : ∃ n, total = n + 1 := ⟨total - 1, by omega⟩
  rw [reports, List.range_succ, List.map_append, List.map_singleton, List.getLast?_concat, div_self hpos,
    Binary64.round_one]

theorem le_clamp (v : Nat) {lo hi : Nat} (h : lo ≤ hi) : lo ≤ clamp v lo hi := by
  unfold clamp
  split
  · exact le_refl _
  · split <;> omega

theorem reports_sound {total : Nat} (h : 0 < total) {text : Bytes} (htext : text ≠ []) :
    JobPlan.Sound ⟨reports total total, false, text⟩ :=
  ⟨reports_sorted total total h, reports_bounds h (le_refl total), fun _ => reports_full h, htext⟩

theorem plan_sound (kind : Bytes) (payload : SortedMap Bytes ℚ) : (plan kind payload).Sound := by
  unfold plan
  split
  · -- the chunk loop never breaks
    have hlimit := le_clamp ⌊(payload.find? (txt "limit")).getD 10000000⌋₊ (show 1000 ≤ 200000000 by omega)
    rw [planCountPrimes, length_segments hlimit]
    apply reports_sound (show 0 < 40 by omega)
    simp [txt]
  · split
    · have hsteps := le_clamp ⌊(payload.find? (txt "steps")).getD 50⌋₊ (show 1 ≤ 200 by omega)
      rw [planSleepSteps]
      apply reports_sound hsteps
      simp [txt]
    · refine ⟨.nil, by simp, by simp, ?_⟩
      simp [txt]

end NgxLuaCpp
