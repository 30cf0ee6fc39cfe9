import NgxLuaCpp.Awaitable
/-!
# Where the two threads can be

What each place of the awaiting thread says of the callable and of the
coroutine, and that every step keeps it.
-/

namespace NgxLuaCpp.Await

variable {W α : Type} [DecidableEq W]

/-! ## The invariant -/

/-- Nobody has run `func` yet. -/
def Untouched (a : Awaitable W α) : Prop := a.runs = 0 ∧ a.completed = false

/-- `func` ran once, and its value is stored. -/
def Executed (s : Setup W α) (a : Awaitable W α) : Prop := a.runs = 1 ∧ a.ret = some s.func ∧ a.completed = true

/-- The coroutine has not been handed to a queue, nor gone on. -/
def Unhanded (a : Awaitable W α) : Prop := a.handed = [] ∧ a.pending = 0 ∧ a.continued = []

def HandedOnce (s : Setup W α) (a : Awaitable W α) : Prop :=
  a.handed.length = 1 ∧ (a.pending = 1 ∧ a.continued = [] ∨ a.pending = 0 ∧ a.continued = [some s.func])

/-- How far the callable came. -/
def WorkerInv (s : Setup W α) (a : Awaitable W α) : Prop :=
  match a.worker with
  | .absent => True
  | .queued => Untouched a
  | .ran value => a.runs = 1 ∧ value = s.func ∧ a.completed = false
  | .stored => a.runs = 1 ∧ a.ret = some s.func ∧ a.completed = false
  | .handOff => Executed s a
  | .done => Executed s a

/-- In `dispatch`, with no callable queued. -/
def Dispatching (a : Awaitable W α) : Prop :=
  a.worker = .absent ∧ a.waited = false ∧ a.resumeHandle = false ∧ Unhanded a

/-- From `await_ready` on, before the bit `waited`. -/
def Waiting (s : Setup W α) (a : Awaitable W α) : Prop :=
  a.dispatched = true ∧ a.waited = false ∧ Unhanded a ∧ a.worker ≠ .handOff ∧ (a.worker = .absent → Executed s a)

def AwaiterInv (s : Setup W α) (a : Awaitable W α) : Prop :=
  match a.awaiter with
  | .dispatch false => Dispatching a ∧ Untouched a ∧ a.dispatched = false
  | .capture false => Dispatching a ∧ Untouched a ∧ a.dispatched = true
  | .call false => Dispatching a ∧ Untouched a ∧ a.dispatched = true
  | .queue false => Dispatching a ∧ Untouched a ∧ a.dispatched = true
  | .store false value => Dispatching a ∧ (a.runs = 1 ∧ value = s.func) ∧ a.dispatched = true
  | .complete false => Dispatching a ∧ (a.runs = 1 ∧ a.ret = some s.func) ∧ a.dispatched = true
  | .resume false => Dispatching a ∧ Executed s a ∧ a.dispatched = true
  | .ready => Waiting s a
  | .keep => Waiting s a
  | .wait => Waiting s a
  | .handOff => a.waited = true ∧ Unhanded a ∧ Executed s a ∧ (a.worker = .absent ∨ a.worker = .done)
  -- the worker hands the coroutine over, unless it came before the bit `waited`
  | .dispatch true => a.dispatched = true ∧ a.waited = true ∧ a.worker ≠ .absent ∧
    (a.worker = .done → HandedOnce s a) ∧ (a.worker ≠ .done → Unhanded a)
  | .suspended => a.waited = true ∧ (a.worker = .absent → Executed s a ∧ HandedOnce s a) ∧
    (a.worker = .done → HandedOnce s a) ∧ (a.worker ≠ .absent → a.worker ≠ .done → Unhanded a)
  | .continued => Executed s a ∧ (a.worker = .absent ∨ a.worker = .done) ∧ a.handed = [] ∧ a.pending = 0 ∧
    a.continued = [some s.func]
  | _ => False

/-- Where the worker and the awaiter are, and what each has done by then. -/
structure Inv (s : Setup W α) (a : Awaitable W α) : Prop where
  worker : WorkerInv s a
  awaiter : AwaiterInv s a

omit [DecidableEq W] in
theorem inv_new (s : Setup W α) : Inv s new :=
  ⟨trivial, ⟨rfl, rfl, rfl, rfl, rfl, rfl⟩, ⟨rfl, rfl⟩, rfl⟩

omit [DecidableEq W] in
/-- A set bit `completed` comes with the result. -/
theorem executed_of_completed {s : Setup W α} {a : Awaitable W α} (hw : WorkerInv s a) (hne : a.worker ≠ .handOff)
    (habs : a.worker = .absent → Executed s a) (hc : a.completed = true) :
    Executed s a ∧ (a.worker = .absent ∨ a.worker = .done) := by
  unfold WorkerInv at hw
  cases hpc : a.worker with
  | absent => exact ⟨habs hpc, .inl rfl⟩
  | queued =>
    rw [hpc] at hw
    simp [hc, Untouched] at hw
  | ran value =>
    rw [hpc] at hw
    simp [hc] at hw
  | stored =>
    rw [hpc] at hw
    simp [hc] at hw
  | handOff => exact absurd hpc hne
  | done =>
    rw [hpc] at hw
    exact ⟨hw, .inr rfl⟩

omit [DecidableEq W] in
theorem handedOnce_resumeOne {a : Awaitable W α} (s : Setup W α) (h : Unhanded a) : HandedOnce s a.resumeOne := by
  obtain ⟨hh, hp, hc⟩ := h
  refine ⟨?_, .inl ⟨?_, hc⟩⟩
  · rw [Awaitable.resumeOne, hh]
    rfl
  · rw [Awaitable.resumeOne, hp]

/-- A step of the awaiting thread keeps the invariant. -/
theorem inv_awaiter {s : Setup W α} {a : Awaitable W α} (h : Inv s a) : Inv s (stepAwaiter s a) := by
  obtain ⟨hw, ha⟩ := h
  unfold stepAwaiter
  unfold AwaiterInv at ha
  cases hpc : a.awaiter with
  | dispatch b =>
    rw [hpc] at ha
    cases b with
    | false =>
      obtain ⟨hd, hu, hnot⟩ := ha
      simp only [hnot]
      exact ⟨hw, hd, hu, rfl⟩
    | true =>
      -- the bit is set, so this call returns
      obtain ⟨hbit, hwait, hne, hdone, hun⟩ := ha
      simp only [hbit]
      exact ⟨hw, hwait, fun h => absurd h hne, hdone, fun _ => hun⟩
  | capture b =>
    rw [hpc] at ha
    cases b with
    | false =>
      obtain ⟨hd, hu, hbit⟩ := ha
      by_cases hsame : some s.target = s.current
      · simp only [if_pos hsame]
        exact ⟨hw, hd, hu, hbit⟩
      · simp only [if_neg hsame]
        exact ⟨hw, hd, hu, hbit⟩
    | true => exact ha.elim
  | call b =>
    rw [hpc] at ha
    cases b with
    | false =>
      obtain ⟨hd, hu, hbit⟩ := ha
      refine ⟨?_, hd, ⟨?_, rfl⟩, hbit⟩
      · simp only [WorkerInv, hd.1]
      · simp only [hu.1]
    | true => exact ha.elim
  | store b value =>
    rw [hpc] at ha
    cases b with
    | false =>
      obtain ⟨hd, hv, hbit⟩ := ha
      refine ⟨?_, hd, ⟨hv.1, ?_⟩, hbit⟩
      · simp only [WorkerInv, hd.1]
      · rw [hv.2]
    | true => exact ha.elim
  | complete b =>
    rw [hpc] at ha
    cases b with
    | false =>
      obtain ⟨hd, hr, hbit⟩ := ha
      refine ⟨?_, hd, ⟨hr.1, hr.2, rfl⟩, hbit⟩
      simp only [WorkerInv, hd.1]
    | true => exact ha.elim
  | resume b =>
    rw [hpc] at ha
    cases b with
    | false =>
      obtain ⟨⟨habs, hwait, hhandle, hun⟩, he, hbit⟩ := ha
      simp only [hhandle]
      refine ⟨hw, hbit, hwait, hun, ?_, fun _ => he⟩
      rw [habs]
      simp
    | true => exact ha.elim
  | queue b =>
    rw [hpc] at ha
    cases b with
    | false =>
      obtain ⟨⟨-, hwait, hhandle, hun⟩, hu, hbit⟩ := ha
      exact ⟨hu, hbit, hwait, hun, by simp, by simp⟩
    | true => exact ha.elim
  | ready =>
    rw [hpc] at ha
    obtain ⟨hbit, hwait, hun, hne, habs⟩ := ha
    by_cases hc : a.completed = true
    · obtain ⟨he, hdone⟩ := executed_of_completed hw hne habs hc
      simp only [if_pos hc]
      refine ⟨hw, he, hdone, hun.1, hun.2.1, ?_⟩
      simp only [Awaitable.continues, hun.2.2, he.2.1]
      rfl
    · simp only [if_neg hc]
      exact ⟨hw, hbit, hwait, hun, hne, habs⟩
  | keep =>
    rw [hpc] at ha
    exact ⟨hw, ha⟩
  | wait =>
    rw [hpc] at ha
    obtain ⟨hbit, hwait, hun, hne, habs⟩ := ha
    by_cases hc : a.completed = true
    · obtain ⟨he, hdone⟩ := executed_of_completed hw hne habs hc
      simp only [if_pos hc]
      exact ⟨hw, rfl, hun, he, hdone⟩
    · -- the worker has still to see the bit
      have habsent : a.worker ≠ .absent := fun h => hc (habs h).2.2
      have hdone : a.worker ≠ .done := by
        intro h
        rw [WorkerInv, h] at hw
        exact hc hw.2.2
      simp only [if_neg hc]
      exact ⟨hw, hbit, rfl, habsent, fun h => absurd h hdone, fun _ => hun⟩
  | handOff =>
    rw [hpc] at ha
    obtain ⟨hwait, hun, he, hdone⟩ := ha
    have honce := handedOnce_resumeOne s hun
    refine ⟨hw, hwait, fun _ => ⟨he, honce⟩, fun _ => honce, ?_⟩
    intro habs hnd
    exact absurd hdone (not_or.2 ⟨habs, hnd⟩)
  | suspended =>
    refine ⟨hw, ?_⟩
    unfold AwaiterInv
    exact ha
  | continued =>
    refine ⟨hw, ?_⟩
    unfold AwaiterInv
    exact ha

/-- `AwaiterInv` by phases. -/
inductive Phase (s : Setup W α) (a : Awaitable W α) : Prop where
  | dispatching : Dispatching a → a.runs ≤ 1 → Phase s a
  | waiting : a.awaiter = .ready ∨ a.awaiter = .keep ∨ a.awaiter = .wait → Waiting s a → Phase s a
  | handOff : Unhanded a → Executed s a → (a.worker = .absent ∨ a.worker = .done) → Phase s a
  | dispatched : a.awaiter = .dispatch true → a.dispatched = true → a.waited = true → a.worker ≠ .absent →
    (a.worker = .done → HandedOnce s a) → (a.worker ≠ .done → Unhanded a) → Phase s a
  | suspended : a.awaiter = .suspended → a.waited = true → (a.worker = .absent → Executed s a ∧ HandedOnce s a) →
    (a.worker = .done → HandedOnce s a) → (a.worker ≠ .absent → a.worker ≠ .done → Unhanded a) → Phase s a
  | continued : Executed s a → (a.worker = .absent ∨ a.worker = .done) → a.handed = [] → a.pending = 0 →
    a.continued = [some s.func] → Phase s a

omit [DecidableEq W] in
theorem Inv.phase {s : Setup W α} {a : Awaitable W α} (h : Inv s a) : Phase s a := by
  have ha := h.awaiter
  unfold AwaiterInv at ha
  cases hpc : a.awaiter with
  | ready =>
    rw [hpc] at ha
    exact .waiting (.inl hpc) ha
  | keep =>
    rw [hpc] at ha
    exact .waiting (.inr (.inl hpc)) ha
  | wait =>
    rw [hpc] at ha
    exact .waiting (.inr (.inr hpc)) ha
  | handOff =>
    rw [hpc] at ha
    exact .handOff ha.2.1 ha.2.2.1 ha.2.2.2
  | suspended =>
    rw [hpc] at ha
    exact .suspended hpc ha.1 ha.2.1 ha.2.2.1 ha.2.2.2
  | continued =>
    rw [hpc] at ha
    exact .continued ha.1 ha.2.1 ha.2.2.1 ha.2.2.2.1 ha.2.2.2.2
  | dispatch b =>
    rw [hpc] at ha
    cases b with
    | false => exact .dispatching ha.1 (by have := ha.2.1.1; omega)
    | true => exact .dispatched hpc ha.1 ha.2.1 ha.2.2.1 ha.2.2.2.1 ha.2.2.2.2
  | _ b =>
    rw [hpc] at ha
    cases b with
    | false =>
      obtain ⟨hd, ⟨hruns, -⟩, -⟩ := ha
      exact .dispatching hd (by omega)
    | true => exact ha.elim

omit [DecidableEq W] in
/-- A step of the callable before it is done, as the awaiting thread sees it. -/
theorem Inv.work {s : Setup W α} {a : Awaitable W α} (h : Inv s a) (habs : a.worker ≠ .absent)
    (hdone : a.worker ≠ .done) {runs : Nat} {ret : Option α} {completed : Bool} {w : Worker α}
    (h0 : w ≠ .absent) (h1 : w = .handOff → a.waited = true) (h2 : w = .done → a.waited = false) :
    AwaiterInv s { a with runs := runs, ret := ret, completed := completed, worker := w } := by
  unfold AwaiterInv
  cases h.phase with
  | dispatching hd => exact absurd hd.1 habs
  | waiting hpc hwait =>
    obtain ⟨hbit, hwait, hun, -, -⟩ := hwait
    have hw : Waiting s { a with runs := runs, ret := ret, completed := completed, worker := w } := by
      refine ⟨hbit, hwait, hun, ?_, fun h => absurd h h0⟩
      intro h
      rw [h1 h] at hwait
      simp at hwait
    rcases hpc with hpc | hpc | hpc
    all_goals
      simp only [hpc]
      exact hw
  | handOff _ _ hw => exact absurd (hw.resolve_left habs) hdone
  | dispatched hpc hbit hwait _ _ hun =>
    simp only [hpc]
    refine ⟨hbit, hwait, h0, ?_, fun _ => hun hdone⟩
    intro hw
    rw [h2 hw] at hwait
    simp at hwait
  | suspended hpc hwait _ _ hun =>
    simp only [hpc]
    refine ⟨hwait, fun h => absurd h h0, ?_, fun _ _ => hun habs hdone⟩
    intro hw
    rw [h2 hw] at hwait
    simp at hwait
  | continued _ hw => exact absurd (hw.resolve_left habs) hdone

omit [DecidableEq W] in
/-- A step of the callable keeps the invariant. -/
theorem inv_worker {s : Setup W α} {a : Awaitable W α} (h : Inv s a) : Inv s (stepWorker s a) := by
  have hw := h.worker
  unfold stepWorker
  unfold WorkerInv at hw
  cases hpc : a.worker with
  | absent => exact h
  | queued =>
    rw [hpc] at hw
    refine ⟨⟨?_, rfl, hw.2⟩, h.work ?_ ?_ ?_ ?_ ?_⟩
    · rw [hw.1]
    all_goals simp [hpc]
  | ran value =>
    rw [hpc] at hw
    refine ⟨⟨hw.1, ?_, hw.2.2⟩, h.work ?_ ?_ ?_ ?_ ?_⟩
    · rw [hw.2.1]
    all_goals simp [hpc]
  | stored =>
    rw [hpc] at hw
    by_cases hwait : a.waited = true
    · simp only [if_pos hwait]
      refine ⟨⟨hw.1, hw.2.1, rfl⟩, h.work ?_ ?_ ?_ (fun _ => hwait) ?_⟩
      all_goals simp [hpc]
    · simp only [if_neg hwait]
      refine ⟨⟨hw.1, hw.2.1, rfl⟩, h.work ?_ ?_ ?_ ?_ (fun _ => Bool.eq_false_iff.2 hwait)⟩
      all_goals simp [hpc]
  | handOff =>
    rw [hpc] at hw
    refine ⟨hw, ?_⟩
    have habs : a.worker ≠ .absent := by simp [hpc]
    have hnd : a.worker ≠ .done := by simp [hpc]
    unfold AwaiterInv
    cases h.phase with
    | dispatching hd => exact absurd hd.1 habs
    | waiting _ hwait => exact absurd hpc hwait.2.2.2.1
    | handOff _ _ hd => exact absurd (hd.resolve_left habs) hnd
    | dispatched hpc' hbit hwait _ _ hun =>
      simp only [Awaitable.resumeOne, hpc']
      exact ⟨hbit, hwait, by simp, fun _ => handedOnce_resumeOne s (hun hnd), fun h => absurd rfl h⟩
    | suspended hpc' hwait _ _ hun =>
      simp only [Awaitable.resumeOne, hpc']
      exact ⟨hwait, by simp, fun _ => handedOnce_resumeOne s (hun habs hnd), fun _ h => absurd rfl h⟩
    | continued _ hd => exact absurd (hd.resolve_left habs) hnd
  | done => exact h

omit [DecidableEq W] in
theorem HandedOnce.resumed {s : Setup W α} {a : Awaitable W α} (h : HandedOnce s a) (hp : a.pending ≠ 0)
    (he : Executed s a) : HandedOnce s { a with pending := a.pending - 1 }.continues := by
  obtain ⟨hlen, ⟨hp1, hc⟩ | ⟨hp0, -⟩⟩ := h
  · refine ⟨hlen, .inr ⟨?_, ?_⟩⟩
    · simp only [Awaitable.continues, hp1]
    · simp only [Awaitable.continues, hc, he.2.1]
      rfl
  · exact absurd hp0 hp

/-- How far the coroutine itself came. -/
inductive Stage (s : Setup W α) (a : Awaitable W α) : Prop where
  | unhanded : Unhanded a → Stage s a
  | handed : a.awaiter = .dispatch true ∧ a.worker = .done ∨
      a.awaiter = .suspended ∧ (a.worker = .absent ∨ a.worker = .done) →
    HandedOnce s a → Executed s a → Stage s a
  | continued : a.handed = [] → a.pending = 0 → a.continued = [some s.func] → Stage s a

omit [DecidableEq W] in
theorem Inv.executed {s : Setup W α} {a : Awaitable W α} (h : Inv s a) (hd : a.worker = .done) : Executed s a := by
  have hw := h.worker
  rwa [WorkerInv, hd] at hw

omit [DecidableEq W] in
theorem Inv.stage {s : Setup W α} {a : Awaitable W α} (h : Inv s a) : Stage s a := by
  cases h.phase with
  | dispatching hd => exact .unhanded hd.2.2.2
  | waiting _ hwait => exact .unhanded hwait.2.2.1
  | handOff hun => exact .unhanded hun
  | dispatched hpc _ _ _ honce hun =>
    by_cases hd : a.worker = .done
    · exact .handed (.inl ⟨hpc, hd⟩) (honce hd) (h.executed hd)
    · exact .unhanded (hun hd)
  | suspended hpc _ habsent honce hun =>
    by_cases habs : a.worker = .absent
    · exact .handed (.inr ⟨hpc, .inl habs⟩) (habsent habs).2 (habsent habs).1
    · by_cases hd : a.worker = .done
      · exact .handed (.inr ⟨hpc, .inr hd⟩) (honce hd) (h.executed hd)
      · exact .unhanded (hun habs hd)
  | continued _ _ hh hp hc => exact .continued hh hp hc

omit [DecidableEq W] in
/-- A queue that resumes the coroutine keeps the invariant. -/
theorem inv_resumer {s : Setup W α} {a : Awaitable W α} (h : Inv s a) : Inv s (stepResumer a) := by
  unfold stepResumer
  by_cases hp : a.pending = 0
  · rw [if_pos hp]
    exact h
  · rw [if_neg hp]
    cases h.stage with
    | unhanded hun => exact absurd hun.2.1 hp
    | continued _ hp0 => exact absurd hp0 hp
    | handed hpc honce he =>
      have hnext := honce.resumed hp he
      refine ⟨h.worker, ?_⟩
      have ha := h.awaiter
      unfold AwaiterInv at ha ⊢
      rcases hpc with ⟨hpc, hw⟩ | ⟨hpc, hw⟩
      · rw [hpc] at ha
        simp only [Awaitable.continues, hpc]
        refine ⟨ha.1, ha.2.1, ha.2.2.1, fun _ => hnext, ?_⟩
        intro hne
        exact absurd hw hne
      · rw [hpc] at ha
        simp only [Awaitable.continues, hpc]
        refine ⟨ha.1, fun _ => ⟨he, hnext⟩, fun _ => hnext, ?_⟩
        intro habs hne
        exact absurd hw (not_or.2 ⟨habs, hne⟩)

theorem inv_run (s : Setup W α) (turns : List Turn) : Inv s (run s turns) := by
  apply Trace.invariant (fun _ a => Inv s a) (inv_new s)
  intro _ a t h
  cases t with
  | awaiter => exact inv_awaiter h
  | worker => exact inv_worker h
  | resumer => exact inv_resumer h

end NgxLuaCpp.Await
