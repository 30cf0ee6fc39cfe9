import NgxLuaCpp.HttpUrl
import NgxLuaCpp.Lib.Trace
import Mathlib.Data.Rat.Defs
import Mathlib.Data.List.Range
/-!
# Fetching URLs side by side

`fetch` dispatches a task for each URL that parses and awaits them in the order of their
dispatch, while the pool completes them in any order. An `await` gives what its task
returned, once it has.
-/

namespace NgxLuaCpp.Http

/-! ## The model -/

/-- `fetch_entry_t` -/
structure FetchEntry where
  url : Bytes := []
  ok : Bool := false
  status : Nat := 0
  size : Nat := 0
  elapsedMs : ℚ := 0
  text : Bytes := []
  deriving DecidableEq

/-- The arguments of an `http_get`. -/
structure Call where
  url : HttpUrl
  timeoutMs : Nat
  maxBytes : Nat

/-- `http_get`: the URL of the request, and what came of it. -/
def httpGet (network : Call → FetchEntry) (call : Call) : FetchEntry :=
  { network call with url := call.url.request.url }

/-- The arguments of `fetch`, and what comes of the task with each number. -/
structure Setup where
  model : DataModel
  undefined : Bytes → Int
  network : Nat → Call → FetchEntry
  timeoutMs : Nat
  urls : List Bytes

/-- Where the coroutine is: in one of its loops, or at its end. -/
inductive Place where
  | fanOut (i : Nat)
  | fanIn (k : Nat)
  | returned
  deriving DecidableEq

/-- A task dispatched: the URL it fetches, and its entry once it has completed. -/
structure Task where
  url : HttpUrl
  ret : Option FetchEntry

/-- The coroutine with its entries, its tasks and `task_indices`. -/
structure State where
  place : Place
  entries : List FetchEntry
  tasks : List Task
  taskIndices : List Nat

namespace Setup
variable (c : Setup)

/-- What the coroutine makes of a URL. -/
def parse (text : Bytes) : HttpUrl := parseHttpUrl c.model c.undefined text

/-- What the task with the number `k` returns for a URL. -/
def answer (k : Nat) (url : HttpUrl) : FetchEntry :=
  httpGet (c.network k) ⟨url, clamp c.timeoutMs 100 30000, 1024 * 1024⟩

/-- The coroutine as it begins, with an empty entry for each URL. -/
def start : State where
  place := if c.urls = [] then .returned else .fanOut 0
  entries := List.replicate c.urls.length {}
  tasks := []
  taskIndices := []

end Setup

/-- A step of the coroutine, or the completion of a task. -/
inductive Turn where
  | coroutine
  | complete (k : Nat)
  deriving DecidableEq

namespace State
variable (s : State)

/-- The entry of a parse error. -/
def fill (i : Nat) (text error : Bytes) : State :=
  { s with
    place := .fanOut (i + 1)
    entries := s.entries.modify i fun entry => { entry with url := text, text := error } }

/-- A valid URL gets a task of its own. -/
def dispatch (i : Nat) (url : HttpUrl) : State :=
  { s with
    place := .fanOut (i + 1)
    tasks := s.tasks ++ [⟨url, none⟩]
    taskIndices := s.taskIndices ++ [i] }

/-- `entries[task_indices[k]] = co_await *tasks[k]` -/
def receive (k i : Nat) (entry : FetchEntry) : State :=
  { s with
    place := .fanIn (k + 1)
    entries := s.entries.set i entry }

/-- A task completes with its entry. -/
def complete (k : Nat) (task : Task) (entry : FetchEntry) : State :=
  { s with tasks := s.tasks.set k { task with ret := some entry } }

end State

/-- Nothing where a turn cannot be taken. -/
def step (c : Setup) (s : State) : Turn → Option State
  | .coroutine =>
    match s.place with
    | .fanOut i => match c.urls[i]? with
      | none => some { s with place := .fanIn 0 }
      | some text =>
        let url := c.parse text
        if !url.ok then some (s.fill i text url.error) else some (s.dispatch i url)
    | .fanIn k => match s.taskIndices[k]? with
      | none => some { s with place := .returned }
      | some i => do
        -- suspended until the task has completed
        let entry ← (← s.tasks[k]?).ret
        some (s.receive k i entry)
    | .returned => none
  | .complete k => do
    let task ← s.tasks[k]?
    match task.ret with
    | some _ => none
    | none => some (s.complete k task (c.answer k task.url))

/-- The call after these turns, if each of them can be taken. -/
def run (c : Setup) (turns : List Turn) : Option State := turns.foldlM (step c) c.start

/-! ## What is returned -/

namespace Setup
variable (c : Setup)

/-- The parse of a URL by its index. -/
def urlAt (i : Nat) : HttpUrl := c.parse (c.urls.getD i [])

/-- The indices below `n` of the URLs that parse. -/
def valid (n : Nat) : List Nat := (List.range n).filter fun i => (c.urlAt i).ok

/-- The entry of a URL: the error of its parse, or what its own task returned. -/
def entryAt (i : Nat) : FetchEntry :=
  if (c.urlAt i).ok then c.answer ((c.valid c.urls.length).idxOf i) (c.urlAt i)
  else { url := c.urls.getD i [], text := (c.urlAt i).error }

theorem valid_succ (n : Nat) : c.valid (n + 1) = c.valid n ++ if (c.urlAt n).ok then [n] else [] := by
  unfold valid
  rw [List.range_succ, List.filter_append, List.filter_singleton]
  cases (c.urlAt n).ok <;> rfl

theorem mem_valid {n i : Nat} : i ∈ c.valid n ↔ i < n ∧ (c.urlAt i).ok = true := by
  unfold valid
  rw [List.mem_filter, List.mem_range]

theorem valid_nodup (n : Nat) : (c.valid n).Nodup := List.nodup_range.filter _

theorem length_valid_le (n : Nat) : (c.valid n).length ≤ n := by
  have := List.length_filter_le (fun i => (c.urlAt i).ok) (List.range n)
  rwa [List.length_range] at this

/-- A valid URL is the one of the task with its position as number. -/
theorem entryAt_valid {k i : Nat} (h : (c.valid c.urls.length)[k]? = some i) :
    c.entryAt i = c.answer k (c.urlAt i) := by
  obtain ⟨hk, rfl⟩ := List.getElem?_eq_some_iff.1 h
  have hmem := (c.mem_valid).1 (List.getElem_mem hk)
  rw [entryAt, if_pos hmem.2, (c.valid_nodup _).idxOf_getElem]

end Setup

/-! ## The two loops -/

/-- After `i` URLs are dispatched and `k` tasks awaited. -/
structure Filled (c : Setup) (s : State) (i k : Nat) : Prop where
  le : i ≤ c.urls.length
  length : s.entries.length = c.urls.length
  indices : s.taskIndices = c.valid i
  tasks_length : s.tasks.length = s.taskIndices.length
  awaited : k ≤ s.taskIndices.length
  /-- each task is for the URL of its index, and has returned its own answer if any -/
  tasks : ∀ m j, s.taskIndices[m]? = some j → ∃ task, s.tasks[m]? = some task ∧ task.url = c.urlAt j ∧
    ∀ entry ∈ task.ret, entry = c.answer m (c.urlAt j)
  errors : ∀ j < i, (c.urlAt j).ok = false → s.entries[j]? = some (c.entryAt j)
  received : ∀ m < k, ∀ j, s.taskIndices[m]? = some j → s.entries[j]? = some (c.answer m (c.urlAt j))
  blank : ∀ j, i ≤ j → j < c.urls.length → s.entries[j]? = some {}

variable {c : Setup} {s s' : State} {i k : Nat}

theorem filled_start (c : Setup) : Filled c c.start 0 0 where
  le := Nat.zero_le _
  length := List.length_replicate
  indices := rfl
  tasks_length := rfl
  awaited := Nat.zero_le _
  tasks := by simp [Setup.start]
  errors j hj := absurd hj (Nat.not_lt_zero j)
  received m hm := absurd hm (Nat.not_lt_zero m)
  blank j _ hj := by simp [Setup.start, hj]

theorem Filled.place (h : Filled c s i k) (place : Place) : Filled c { s with place := place } i k :=
  ⟨h.le, h.length, h.indices, h.tasks_length, h.awaited, h.tasks, h.errors, h.received, h.blank⟩

/-- The index of a task is below those dispatched. -/
theorem Filled.index (h : Filled c s i k) {m j : Nat} (hm : s.taskIndices[m]? = some j) :
    j < i ∧ (c.urlAt j).ok = true := by
  have hmem := List.mem_of_getElem? hm
  rwa [h.indices, c.mem_valid] at hmem

theorem Setup.urlAt_eq {text : Bytes} (htext : c.urls[i]? = some text) : c.urlAt i = c.parse text := by
  rw [Setup.urlAt, List.getD_eq_getElem?_getD, htext, Option.getD_some]

/-- An URL that does not parse fills its entry at once. -/
theorem Filled.fill (h : Filled c s i 0) {text : Bytes} (htext : c.urls[i]? = some text)
    (hok : (c.parse text).ok = false) : Filled c (s.fill i text (c.parse text).error) (i + 1) 0 := by
  have hi : i < c.urls.length := (List.getElem?_eq_some_iff.1 htext).1
  have hurl := Setup.urlAt_eq htext
  have hentry (j : Nat) (hj : j ≠ i) : (s.fill i text (c.parse text).error).entries[j]? = s.entries[j]? :=
    List.getElem?_modify_ne _ _ hj.symm
  refine ⟨hi, ?_, ?_, h.tasks_length, h.awaited, h.tasks, ?_, fun m hm => absurd hm (Nat.not_lt_zero m), ?_⟩
  · exact (List.length_modify ..).trans h.length
  · rw [Setup.valid_succ, hurl, hok, ← h.indices]
    exact (List.append_nil _).symm
  · intro j hj hbad
    rcases Nat.lt_succ_iff_lt_or_eq.1 hj with hlt | rfl
    · rw [hentry j hlt.ne]
      exact h.errors j hlt hbad
    · have hmodify : (s.fill j text (c.parse text).error).entries[j]? =
          (s.entries[j]?).map fun entry => { entry with url := text, text := (c.parse text).error } :=
        List.getElem?_modify_eq ..
      rw [hmodify, h.blank j (le_refl j) hi, Setup.entryAt, hurl, hok, List.getD_eq_getElem?_getD, htext]
      rfl
  · intro j hj hn
    rw [hentry j (by omega)]
    exact h.blank j (by omega) hn

/-- An URL that parses is dispatched to the next task. -/
theorem Filled.dispatch (h : Filled c s i 0) {text : Bytes} (htext : c.urls[i]? = some text)
    (hok : (c.parse text).ok = true) : Filled c (s.dispatch i (c.parse text)) (i + 1) 0 := by
  have hi : i < c.urls.length := (List.getElem?_eq_some_iff.1 htext).1
  have hurl := Setup.urlAt_eq htext
  refine ⟨hi, h.length, ?_, ?_, Nat.zero_le _, ?_, ?_, fun m hm => absurd hm (Nat.not_lt_zero m), ?_⟩
  · rw [Setup.valid_succ, hurl, hok, ← h.indices]
    rfl
  · show (s.tasks ++ [_]).length = (s.taskIndices ++ [i]).length
    rw [List.length_append, List.length_append, h.tasks_length, List.length_singleton, List.length_singleton]
  · intro m j hm
    have hm' : (s.taskIndices ++ [i])[m]? = some j := hm
    show ∃ task, (s.tasks ++ [⟨c.parse text, none⟩])[m]? = some task ∧ _
    rcases Nat.lt_or_ge m s.taskIndices.length with hlt | hge
    · rw [List.getElem?_append_left hlt] at hm'
      rw [List.getElem?_append_left (by rwa [h.tasks_length])]
      exact h.tasks m j hm'
    · have hm0 : m = s.taskIndices.length := by
        have hlen := (List.getElem?_eq_some_iff.1 hm').1
        rw [List.length_append, List.length_singleton] at hlen
        omega
      subst hm0
      rw [List.getElem?_concat_length] at hm'
      obtain rfl := Option.some.inj hm'
      rw [← h.tasks_length, List.getElem?_concat_length]
      exact ⟨_, rfl, hurl.symm, fun entry hret => nomatch hret⟩
  · intro j hj hbad
    rcases Nat.lt_succ_iff_lt_or_eq.1 hj with hlt | rfl
    · exact h.errors j hlt hbad
    · rw [hurl, hok] at hbad
      cases hbad
  · exact fun j hj hn => h.blank j (by omega) hn

/-- An entry received goes to the URL of its task. -/
theorem Filled.receive (h : Filled c s c.urls.length k) {task : Task} {entry : FetchEntry}
    (hi : s.taskIndices[k]? = some i) (htask : s.tasks[k]? = some task) (hret : task.ret = some entry) :
    Filled c (s.receive k i entry) c.urls.length (k + 1) := by
  obtain ⟨hlt, hok⟩ := h.index hi
  have hentry : entry = c.answer k (c.urlAt i) := by
    obtain ⟨task', htask', -, hanswer⟩ := h.tasks k i hi
    obtain rfl := Option.some.inj (htask.symm.trans htask')
    exact hanswer entry hret
  have hother (j : Nat) (hj : j ≠ i) : (s.receive k i entry).entries[j]? = s.entries[j]? :=
    List.getElem?_set_ne hj.symm
  refine ⟨le_refl _, ?_, h.indices, h.tasks_length, ?_, h.tasks, ?_, ?_, fun j hj hn => by omega⟩
  · exact (List.length_set ..).trans h.length
  · exact (List.getElem?_eq_some_iff.1 hi).1
  · intro j hj hbad
    rw [hother j]
    · exact h.errors j hj hbad
    · rintro rfl
      rw [hok] at hbad
      cases hbad
  · intro m hm j hj
    rcases Nat.lt_succ_iff_lt_or_eq.1 hm with hlt' | rfl
    · rw [hother j]
      · exact h.received m hlt' j hj
      · -- an index has one task
        rintro rfl
        have hnodup : s.taskIndices.Nodup := by
          rw [h.indices]
          exact c.valid_nodup _
        exact hlt'.ne ((List.getElem?_inj (List.getElem?_eq_some_iff.1 hj).1 hnodup).1 (hj.trans hi.symm))
    · obtain rfl := Option.some.inj (hi.symm.trans hj)
      rw [← hentry]
      exact List.getElem?_set_self (by rwa [h.length])

theorem Filled.complete (h : Filled c s i k) {m : Nat} {task : Task} (htask : s.tasks[m]? = some task) :
    Filled c (s.complete m task (c.answer m task.url)) i k := by
  refine ⟨h.le, h.length, h.indices, ?_, h.awaited, ?_, h.errors, h.received, h.blank⟩
  · exact (List.length_set ..).trans h.tasks_length
  · intro m' j hj
    obtain ⟨task', htask', hurl, hanswer⟩ := h.tasks m' j hj
    show ∃ task₁, (s.tasks.set m { task with ret := some (c.answer m task.url) })[m']? = some task₁ ∧ _
    rcases eq_or_ne m m' with rfl | hne
    · obtain rfl := Option.some.inj (htask.symm.trans htask')
      refine ⟨_, List.getElem?_set_self (List.getElem?_eq_some_iff.1 htask).1, hurl, ?_⟩
      intro entry hret
      rw [← hurl]
      exact (Option.some.inj hret).symm
    · rw [List.getElem?_set_ne hne]
      exact ⟨task', htask', hurl, hanswer⟩

/-! ## Runs -/

/-- What a turn can do. -/
inductive Step (c : Setup) (s : State) : State → Prop where
  | dispatched {i : Nat} (hplace : s.place = .fanOut i) (hi : c.urls[i]? = none) : Step c s { s with place := .fanIn 0 }
  | fill {i : Nat} {text : Bytes} (hplace : s.place = .fanOut i) (htext : c.urls[i]? = some text)
      (hok : (c.parse text).ok = false) : Step c s (s.fill i text (c.parse text).error)
  | dispatch {i : Nat} {text : Bytes} (hplace : s.place = .fanOut i) (htext : c.urls[i]? = some text)
      (hok : (c.parse text).ok = true) : Step c s (s.dispatch i (c.parse text))
  | awaited {k : Nat} (hplace : s.place = .fanIn k) (hk : s.taskIndices[k]? = none) :
      Step c s { s with place := .returned }
  | receive {k i : Nat} {task : Task} {entry : FetchEntry} (hplace : s.place = .fanIn k)
      (hi : s.taskIndices[k]? = some i) (htask : s.tasks[k]? = some task) (hret : task.ret = some entry) :
      Step c s (s.receive k i entry)
  | complete {m : Nat} {task : Task} (htask : s.tasks[m]? = some task) (hret : task.ret = none) :
      Step c s (s.complete m task (c.answer m task.url))

/-- All that a turn can do. -/
theorem step_cases {turn : Turn} (hstep : step c s turn = some s') : Step c s s' := by
  cases turn with
  | coroutine =>
    unfold step at hstep
    cases hplace : s.place with
    | fanOut i =>
      rw [hplace] at hstep
      dsimp only at hstep
      cases htext : c.urls[i]? with
      | none =>
        rw [htext] at hstep
        obtain rfl := Option.some.inj hstep
        exact .dispatched hplace htext
      | some text =>
        rw [htext] at hstep
        dsimp only at hstep
        cases hok : (c.parse text).ok with
        | false =>
          rw [hok] at hstep
          obtain rfl := Option.some.inj hstep
          exact .fill hplace htext hok
        | true =>
          rw [hok] at hstep
          obtain rfl := Option.some.inj hstep
          exact .dispatch hplace htext hok
    | fanIn k =>
      rw [hplace] at hstep
      dsimp only at hstep
      cases hi : s.taskIndices[k]? with
      | none =>
        rw [hi] at hstep
        obtain rfl := Option.some.inj hstep
        exact .awaited hplace hi
      | some i =>
        rw [hi] at hstep
        obtain ⟨task, htask, hstep⟩ := Option.bind_eq_some_iff.1 hstep
        obtain ⟨entry, hret, hstep⟩ := Option.bind_eq_some_iff.1 hstep
        obtain rfl := Option.some.inj hstep
        exact .receive hplace hi htask hret
    | returned =>
      rw [hplace] at hstep
      cases hstep
  | complete m =>
    obtain ⟨task, htask, hstep⟩ := Option.bind_eq_some_iff.1 hstep
    cases hret : task.ret with
    | some entry =>
      rw [hret] at hstep
      cases hstep
    | none =>
      rw [hret] at hstep
      obtain rfl := Option.some.inj hstep
      exact .complete htask hret

/-- How far the loops are: the URLs dispatched, and the tasks awaited. -/
def loops (c : Setup) (s : State) : Nat × Nat :=
  match s.place with
  | .fanOut i => (i, 0)
  | .fanIn k => (c.urls.length, k)
  | .returned => (c.urls.length, s.taskIndices.length)

/-- The entries and the tasks are those of the two loops, as far as they have come. -/
def Inv (c : Setup) (s : State) : Prop := Filled c s (loops c s).1 (loops c s).2

theorem inv_start (c : Setup) : Inv c c.start := by
  have h := filled_start c
  unfold Inv loops
  by_cases hurls : c.urls = []
  · have hplace : c.start.place = .returned := if_pos hurls
    rw [hplace]
    dsimp only
    rw [List.length_eq_zero_iff.2 hurls]
    exact h
  · have hplace : c.start.place = .fanOut 0 := if_neg hurls
    rw [hplace]
    exact h

/-- Every turn keeps the two loops. -/
theorem inv_step (h : Inv c s) (hstep : Step c s s') : Inv c s' := by
  unfold Inv loops at h
  cases hstep with
  | dispatched hplace hi =>
    rw [hplace] at h
    have hlen := le_antisymm h.le (List.getElem?_eq_none_iff.1 hi)
    dsimp only at hlen
    rw [hlen] at h
    exact h.place _
  | fill hplace htext hok =>
    rw [hplace] at h
    exact h.fill htext hok
  | dispatch hplace htext hok =>
    rw [hplace] at h
    exact h.dispatch htext hok
  | awaited hplace hk =>
    rw [hplace] at h
    have hlen := le_antisymm h.awaited (List.getElem?_eq_none_iff.1 hk)
    dsimp only at hlen
    rw [hlen] at h
    exact h.place _
  | receive hplace hi htask hret =>
    rw [hplace] at h
    exact h.receive hi htask hret
  | complete htask hret => exact h.complete htask

/-- The steps of the coroutine so far, and the tasks completed. -/
def progress (c : Setup) (s : State) : Nat :=
  (match s.place with
    | .fanOut i => i
    | .fanIn k => c.urls.length + 1 + k
    | .returned => c.urls.length + 2 + s.taskIndices.length) +
  s.tasks.countP fun task => task.ret.isSome

/-- Every turn brings the call nearer to its end. -/
theorem progress_step (h : Inv c s) (hstep : Step c s s') : progress c s < progress c s' := by
  unfold Inv loops at h
  unfold progress
  cases hstep with
  | dispatched hplace hi =>
    rw [hplace] at h ⊢
    have := h.le
    dsimp only at this ⊢
    omega
  | fill hplace htext hok =>
    rw [hplace]
    exact Nat.add_lt_add_right (Nat.lt_succ_self _) _
  | @dispatch i text hplace htext hok =>
    have hcount : (s.dispatch i (c.parse text)).tasks.countP (fun task => task.ret.isSome) =
        s.tasks.countP fun task => task.ret.isSome := List.countP_append
    rw [hplace, hcount]
    exact Nat.add_lt_add_right (Nat.lt_succ_self _) _
  | awaited hplace hk =>
    rw [hplace] at h ⊢
    have := h.awaited
    dsimp only at this ⊢
    omega
  | receive hplace hi htask hret =>
    rw [hplace]
    exact Nat.add_lt_add_right (Nat.lt_succ_self _) _
  | @complete m task htask hret =>
    obtain ⟨hm, hget⟩ := List.getElem?_eq_some_iff.1 htask
    have hcount : (s.complete m task (c.answer m task.url)).tasks.countP (fun task => task.ret.isSome) =
        (s.tasks.countP fun task => task.ret.isSome) + 1 := by
      show (s.tasks.set m _).countP _ = _
      rw [List.countP_set hm, hget, hret]
      rfl
    rw [hcount]
    exact Nat.add_lt_add_left (Nat.lt_succ_self _) _

/-- How many turns there are at most. -/
theorem progress_le (h : Inv c s) : progress c s ≤ 3 * c.urls.length + 2 := by
  have hcount : (s.tasks.countP fun task => task.ret.isSome) ≤ s.tasks.length := List.countP_le_length
  have hvalid := c.length_valid_le (loops c s).1
  have hle := h.le
  have hawaited := h.awaited
  rw [h.tasks_length, h.indices] at hcount
  rw [h.indices] at hawaited
  unfold progress loops at *
  cases hplace : s.place with
  | fanOut i =>
    simp only [hplace] at *
    omega
  | fanIn k =>
    simp only [hplace] at *
    omega
  | returned =>
    have hindices := h.indices
    unfold loops at hindices
    rw [hplace] at hindices
    dsimp only at hindices
    simp only [hplace, hindices] at *
    omega

/-- Where nothing can go on, `fetch` has returned. -/
theorem exists_turn (h : Inv c s) (hplace : s.place ≠ .returned) : ∃ turn, (step c s turn).isSome = true := by
  cases hp : s.place with
  | fanOut i =>
    refine ⟨.coroutine, ?_⟩
    unfold step
    rw [hp]
    dsimp only
    cases c.urls[i]? with
    | none => rfl
    | some text =>
      dsimp only
      cases (c.parse text).ok <;> rfl
  | fanIn k =>
    cases hk : s.taskIndices[k]? with
    | none =>
      refine ⟨.coroutine, ?_⟩
      unfold step
      rw [hp]
      dsimp only
      rw [hk]
      rfl
    | some i =>
      obtain ⟨task, htask, -⟩ := h.tasks k i hk
      cases hret : task.ret with
      | none =>
        refine ⟨.complete k, ?_⟩
        unfold step
        dsimp only
        rw [htask, Option.bind_eq_bind, Option.bind_some, hret]
        rfl
      | some entry =>
        refine ⟨.coroutine, ?_⟩
        unfold step
        rw [hp]
        dsimp only
        rw [hk]
        dsimp only
        rw [htask, Option.bind_eq_bind, Option.bind_some, hret]
        rfl
  | returned => exact absurd hp hplace

/-- The entries are those of the URLs, in their order. -/
theorem entries_eq (h : Inv c s) (hplace : s.place = .returned) :
    s.entries = (List.range c.urls.length).map c.entryAt := by
  unfold Inv loops at h
  rw [hplace] at h
  dsimp only at h
  apply List.ext_getElem?
  intro j
  rw [List.getElem?_map]
  rcases Nat.lt_or_ge j c.urls.length with hj | hj
  · rw [List.getElem?_range hj, Option.map_some]
    cases hok : (c.urlAt j).ok with
    | false => exact h.errors j hj hok
    | true =>
      have hmem : j ∈ s.taskIndices := by
        rw [h.indices]
        exact c.mem_valid.2 ⟨hj, hok⟩
      obtain ⟨m, hm⟩ := List.mem_iff_getElem?.1 hmem
      rw [h.received m (List.getElem?_eq_some_iff.1 hm).1 j hm]
      rw [h.indices] at hm
      rw [c.entryAt_valid hm]
  · rw [List.getElem?_eq_none (by rwa [h.length]), List.getElem?_eq_none (by rwa [List.length_range]), Option.map_none]

theorem inv_run (c : Setup) (turns : List Turn) {s : State} (h : run c turns = some s) :
    Inv c s ∧ turns.length ≤ progress c s := by
  refine Trace.invariant_foldlM (fun turns s => Inv c s ∧ turns.length ≤ progress c s) ⟨inv_start c, Nat.zero_le _⟩
    (fun turns s₁ turn s₂ ⟨hinv, hlen⟩ hturn => ?_) turns h
  have hstep := step_cases hturn
  have hprogress := progress_step hinv hstep
  rw [List.length_append, List.length_singleton]
  exact ⟨inv_step hinv hstep, by omega⟩

/-- However the completions are ordered, `fetch` returns, with one entry for each URL in the
order of the URLs. -/
theorem fetch_entries (c : Setup) (turns : List Turn) {s : State} (h : run c turns = some s) :
    turns.length ≤ 3 * c.urls.length + 2 ∧
    (s.place ≠ .returned → ∃ turn, (step c s turn).isSome = true) ∧
    (s.place = .returned → s.entries = (List.range c.urls.length).map c.entryAt) := by
  obtain ⟨hinv, hlen⟩ := inv_run c turns h
  exact ⟨hlen.trans (progress_le hinv), exists_turn hinv, entries_eq hinv⟩

/-- Two URLs that parse, the same twice, and one between that does not. -/
def threeUrls : Setup where
  model := .lp64
  undefined _ := 0
  network k _ := { ok := true, status := 200 + k }
  timeoutMs := 5000
  urls := [txt "http://a/", txt "ftp://b/", txt "http://a/"]

/-- The second task completes before the first. -/
theorem threeUrls_fetched : ∃ s, run threeUrls
      [.coroutine, .coroutine, .coroutine, .coroutine, .complete 1, .complete 0, .coroutine, .coroutine, .coroutine] =
        some s ∧ s.place = .returned ∧ s.entries = (List.range 3).map threeUrls.entryAt := by
  have hrun : (run threeUrls [.coroutine, .coroutine, .coroutine, .coroutine, .complete 1, .complete 0, .coroutine,
      .coroutine, .coroutine]).map State.place = some .returned := by decide +kernel
  obtain ⟨s, hs, hplace⟩ := Option.map_eq_some_iff.1 hrun
  exact ⟨s, hs, hplace, (fetch_entries threeUrls _ hs).2.2 hplace⟩

end NgxLuaCpp.Http
