import NgxLuaCpp.AwaitableInvariant
/-!
# Runs of an awaitable

Every run ends with the function run and the coroutine resumed once. What may
go wrong is the last access of `await_suspend`.
-/

namespace NgxLuaCpp.Await
open Trace

variable {W α : Type} [DecidableEq W]

/-! ## Progress -/

/-- How many steps the awaiter has left at most. -/
def Awaiter.rank : Awaiter α → Nat
  | .dispatch false => 12
  | .capture _ => 11
  | .call _ => 10
  | .store _ _ => 9
  | .complete _ => 8
  | .resume _ => 7
  | .queue _ => 7
  | .ready => 6
  | .keep => 5
  | .wait => 4
  | .handOff => 3
  | .dispatch true => 2
  | .suspended => 0
  | .continued => 0

/-- How many steps the worker has left at most. -/
def Worker.rank : Worker α → Nat
  | .absent => 6
  | .queued => 5
  | .ran _ => 4
  | .stored => 3
  | .handOff => 2
  | .done => 0

/-- A bound on the steps left. -/
def remaining (a : Awaitable W α) : Nat := a.awaiter.rank + a.worker.rank + a.pending

/-- The awaiting thread comes nearer to its end with each step. -/
theorem awaiter_progress {s : Setup W α} {a : Awaitable W α} (h : Inv s a) (h₁ : a.awaiter ≠ .suspended)
    (h₂ : a.awaiter ≠ .continued) : remaining (stepAwaiter s a) < remaining a := by
  have ha := h.awaiter
  unfold AwaiterInv at ha
  unfold stepAwaiter remaining
  cases hpc : a.awaiter with
  | dispatch b =>
    rw [hpc] at ha
    cases b with
    | false => simp [ha.2.2, Awaiter.rank]
    | true => simp [ha.1, after, Awaiter.rank]
  | capture b =>
    by_cases hsame : some s.target = s.current
    · simp [hsame, Awaiter.rank]
    · simp [hsame, Awaiter.rank]
  | call b => simp [Awaiter.rank]
  | store b value => simp [Awaiter.rank]
  | complete b => simp [Awaiter.rank]
  | resume b =>
    rw [hpc] at ha
    cases b with
    | false => simp [ha.1.2.2.1, after, Awaiter.rank]
    | true => exact ha.elim
  | queue b =>
    rw [hpc] at ha
    cases b with
    | false => simp [ha.1.1, after, Awaiter.rank, Worker.rank]
    | true => exact ha.elim
  | ready =>
    by_cases hc : a.completed = true
    · simp [hc, Awaitable.continues, Awaiter.rank]
    · simp [hc, Awaiter.rank]
  | keep => simp [Awaiter.rank]
  | wait =>
    by_cases hc : a.completed = true
    · simp [hc, Awaiter.rank]
    · simp [hc, Awaiter.rank]
  | handOff =>
    simp only [Awaitable.resumeOne, Awaiter.rank]
    omega
  | suspended => exact absurd hpc h₁
  | continued => exact absurd hpc h₂

omit [DecidableEq W] in
theorem worker_progress (s : Setup W α) {a : Awaitable W α} (h₁ : a.worker ≠ .absent) (h₂ : a.worker ≠ .done) :
    remaining (stepWorker s a) < remaining a := by
  unfold stepWorker remaining
  cases hpc : a.worker with
  | absent => exact absurd hpc h₁
  | queued => simp [Worker.rank]
  | ran value => simp [Worker.rank]
  | stored =>
    by_cases hw : a.waited = true
    · simp [hw, Worker.rank]
    · simp [hw, Worker.rank]
  | handOff =>
    simp only [Awaitable.resumeOne, Worker.rank]
    omega
  | done => exact absurd hpc h₂

omit [DecidableEq W] in
theorem resumer_progress {a : Awaitable W α} (h : a.pending ≠ 0) : remaining (stepResumer a) < remaining a := by
  unfold stepResumer remaining
  rw [if_neg h]
  simp only [Awaitable.continues]
  omega

/-- Every step does something that is not undone, or nothing. -/
theorem step_progress {s : Setup W α} {a : Awaitable W α} (h : Inv s a) (t : Turn) :
    step s a t = a ∨ remaining (step s a t) < remaining a := by
  cases t with
  | awaiter =>
    by_cases h₁ : a.awaiter = .suspended
    · simp [step, stepAwaiter, h₁]
    · by_cases h₂ : a.awaiter = .continued
      · simp [step, stepAwaiter, h₂]
      · exact .inr (awaiter_progress h h₁ h₂)
  | worker =>
    by_cases h₁ : a.worker = .absent
    · simp [step, stepWorker, h₁]
    · by_cases h₂ : a.worker = .done
      · simp [step, stepWorker, h₂]
      · exact .inr (worker_progress s h₁ h₂)
  | resumer =>
    by_cases hp : a.pending = 0
    · simp [step, stepResumer, hp]
    · exact .inr (resumer_progress hp)

/-! ## Every state -/

/-- Where nothing more can happen, the coroutine went on with the result. -/
theorem Inv.quiet {s : Setup W α} {a : Awaitable W α} (h : Inv s a) (hq : ∀ t, step s a t = a) :
    a.runs = 1 ∧ a.continued = [some s.func] := by
  have hp : a.pending = 0 := by
    by_contra hp
    have := resumer_progress hp
    rw [show stepResumer a = a from hq .resumer] at this
    exact Nat.lt_irrefl _ this
  have hfin : a.awaiter = .suspended ∨ a.awaiter = .continued := by
    by_contra hne
    obtain ⟨h₁, h₂⟩ := not_or.1 hne
    have := awaiter_progress h h₁ h₂
    rw [show stepAwaiter s a = a from hq .awaiter] at this
    exact Nat.lt_irrefl _ this
  have hwork : a.worker = .absent ∨ a.worker = .done := by
    by_contra hne
    obtain ⟨h₁, h₂⟩ := not_or.1 hne
    have := worker_progress s h₁ h₂
    rw [show stepWorker s a = a from hq .worker] at this
    exact Nat.lt_irrefl _ this
  have ha := h.awaiter
  have hw := h.worker
  unfold AwaiterInv at ha
  rcases hfin with hpc | hpc
  · rw [hpc] at ha
    have hdone : Executed s a ∧ HandedOnce s a := by
      rcases hwork with hwk | hwk
      · exact ha.2.1 hwk
      · rw [WorkerInv, hwk] at hw
        exact ⟨hw, ha.2.2.1 hwk⟩
    obtain ⟨he, -, ⟨hp1, -⟩ | ⟨-, hc⟩⟩ := hdone
    · rw [hp] at hp1
      simp at hp1
    · exact ⟨he.1, hc⟩
  · rw [hpc] at ha
    exact ⟨ha.1.1, ha.2.2.2.2⟩

omit [DecidableEq W] in
theorem Inv.runs_le {s : Setup W α} {a : Awaitable W α} (h : Inv s a) : a.runs ≤ 1 := by
  have hw := h.worker
  unfold WorkerInv at hw
  cases hwk : a.worker with
  | absent =>
    cases h.phase with
    | dispatching _ hruns => exact hruns
    | waiting _ hwait => exact Nat.le_of_eq (hwait.2.2.2.2 hwk).1
    | handOff _ he => exact Nat.le_of_eq he.1
    | dispatched _ _ _ habs => exact absurd hwk habs
    | suspended _ _ habsent => exact Nat.le_of_eq (habsent hwk).1.1
    | continued he => exact Nat.le_of_eq he.1
  | queued =>
    rw [hwk] at hw
    exact Nat.le_trans (Nat.le_of_eq hw.1) (Nat.zero_le 1)
  | _ =>
    rw [hwk] at hw
    exact Nat.le_of_eq hw.1

/-- What is asked of a run follows from the invariant. -/
theorem Inv.good {s : Setup W α} {a : Awaitable W α} (h : Inv s a) : Good s a := by
  refine ⟨h.runs_le, ?_, ?_, ?_, h.quiet⟩
  · cases h.stage with
    | unhanded hun => simp [hun.1]
    | handed _ honce => exact Nat.le_of_eq honce.1
    | continued hh => simp [hh]
  · intro hne
    cases h.stage with
    | unhanded hun => exact absurd hun.1 hne
    | handed _ _ he => exact he.2.1
    | continued hh => exact absurd hh hne
  · cases h.stage with
    | unhanded hun => exact .inl hun.2.2
    | handed _ honce =>
      rcases honce.2 with ⟨-, hc⟩ | ⟨-, hc⟩
      · exact .inl hc
      · exact .inr hc
    | continued _ _ hc => exact .inr hc

/-! ## The last access -/

omit [DecidableEq W] in
/-- Only `dispatch`, called by `await_suspend`, can be late. -/
theorem Inv.early {s : Setup W α} {a : Awaitable W α} (h : Inv s a) (hacc : a.awaiter.Accesses)
    (hne : a.awaiter ≠ .dispatch true) : a.handed = [] := by
  cases h.stage with
  | unhanded hun => exact hun.1
  | handed hpc =>
    rcases hpc with ⟨hpc, -⟩ | ⟨hpc, -⟩
    · exact absurd hpc hne
    · rw [hpc] at hacc
      exact hacc.elim
  | continued hh => exact hh

omit [DecidableEq W] in
theorem stepWorker_awaiter (s : Setup W α) (a : Awaitable W α) : (stepWorker s a).awaiter = a.awaiter := by
  unfold stepWorker
  cases a.worker <;> rfl

omit [DecidableEq W] in
theorem stepResumer_awaiter (a : Awaitable W α) : (stepResumer a).awaiter = a.awaiter := by
  unfold stepResumer
  split <;> rfl

omit [DecidableEq W] in
theorem stepResumer_handed (a : Awaitable W α) : (stepResumer a).handed = a.handed := by
  unfold stepResumer
  split <;> rfl

omit [DecidableEq W] in
theorem stepWorker_handed (s : Setup W α) {a : Awaitable W α} (h : a.worker ≠ .handOff) :
    (stepWorker s a).handed = a.handed := by
  unfold stepWorker
  cases hw : a.worker with
  | handOff => exact absurd hw h
  | _ => rfl

omit [DecidableEq W] in
theorem stepWorker_handOff (s : Setup W α) {a : Awaitable W α} (h : a.worker = .handOff) :
    (stepWorker s a).handed ≠ [] := by
  rw [stepWorker, h]
  simp [Awaitable.resumeOne]

/-- `await_suspend` comes to `dispatch` with the coroutine still its own. -/
theorem Inv.unhanded_next {s : Setup W α} {a : Awaitable W α} (h : Inv s a)
    (hnext : (stepAwaiter s a).awaiter = .dispatch true) : (stepAwaiter s a).handed = [] := by
  have ha := h.awaiter
  unfold AwaiterInv at ha
  unfold stepAwaiter at hnext ⊢
  cases hpc : a.awaiter with
  | wait =>
    rw [hpc] at ha
    exact ha.2.2.1.1
  | handOff => simp [hpc] at hnext
  | suspended => simp [hpc] at hnext
  | continued => simp [hpc] at hnext
  | keep => simp [hpc] at hnext
  | ready =>
    simp only [hpc] at hnext
    split at hnext <;> simp [Awaitable.continues] at hnext
  | dispatch b =>
    simp only [hpc] at hnext
    cases b <;> split at hnext <;> simp [after] at hnext
  | capture b =>
    simp only [hpc] at hnext
    split at hnext <;> simp at hnext
  | resume b =>
    simp only [hpc] at hnext
    cases b <;> split at hnext <;> simp [after, Awaitable.continues] at hnext
  | queue b =>
    simp only [hpc] at hnext
    cases b <;> simp [after] at hnext
  | _ => simp [hpc] at hnext

theorem unhanded_of_undisturbed {s : Setup W α} (turns : List Turn) (h : Undisturbed s turns)
    (hpc : (run s turns).awaiter = .dispatch true) : (run s turns).handed = [] := by
  induction turns using List.reverseRecOn with
  | nil => simp [run, new] at hpc
  | append_singleton turns t ih =>
    obtain ⟨hund, ht⟩ := Trace.each_concat.1 h
    rw [run_concat] at hpc ⊢
    cases t with
    | awaiter => exact (inv_run s turns).unhanded_next hpc
    | worker =>
      have hpc' : (run s turns).awaiter = .dispatch true := (stepWorker_awaiter s _).symm.trans hpc
      have hne : (run s turns).worker ≠ .handOff := fun hw => ht rfl hw hpc'
      exact (stepWorker_handed s hne).trans (ih hund hpc')
    | resumer =>
      have hpc' : (run s turns).awaiter = .dispatch true := (stepResumer_awaiter _).symm.trans hpc
      exact (stepResumer_handed _).trans (ih hund hpc')

/-- A run disturbed but in time so far has the late access still to come. -/
theorem late_access_left {s : Setup W α} (turns : List Turn)
    (h : Each (fun pre t => t = .awaiter → (run s pre).awaiter.Accesses → (run s pre).handed = []) turns) :
    Undisturbed s turns ∨ (run s turns).awaiter = .dispatch true ∧ (run s turns).handed ≠ [] := by
  induction turns using List.reverseRecOn with
  | nil => exact .inl (Trace.each_nil _)
  | append_singleton turns t ih =>
    obtain ⟨h, ht⟩ := Trace.each_concat.1 h
    rw [run_concat]
    rcases ih h with hund | ⟨hpc, hne⟩
    · by_cases hlate : t = .worker ∧ (run s turns).worker = .handOff ∧ (run s turns).awaiter = .dispatch true
      · obtain ⟨rfl, hw, hpc⟩ := hlate
        exact .inr ⟨(stepWorker_awaiter s _).trans hpc, stepWorker_handOff s hw⟩
      · refine .inl (Trace.each_concat.2 ⟨hund, ?_⟩)
        intro ht hw hpc
        exact hlate ⟨ht, hw, hpc⟩
    · right
      cases t with
      | awaiter =>
        refine absurd (ht rfl ?_) hne
        rw [hpc]
        trivial
      | worker =>
        refine ⟨(stepWorker_awaiter s _).trans hpc, ?_⟩
        by_cases hw : (run s turns).worker = .handOff
        · exact stepWorker_handOff s hw
        · rwa [show step s (run s turns) .worker = stepWorker s (run s turns) from rfl, stepWorker_handed s hw]
      | resumer =>
        refine ⟨(stepResumer_awaiter _).trans hpc, ?_⟩
        rwa [show step s (run s turns) .resumer = stepResumer (run s turns) from rfl, stepResumer_handed]

/-- Every run can be carried on to a state where nothing more can happen. -/
theorem finishes (s : Setup W α) (turns : List Turn) :
    ∃ more, ∀ t, step s (run s (turns ++ more)) t = run s (turns ++ more) := by
  induction hn : remaining (run s turns) using Nat.strongRecOn generalizing turns with
  | ind n ih =>
    by_cases hq : ∀ t, step s (run s turns) t = run s turns
    · exact ⟨[], by simpa using hq⟩
    · obtain ⟨t, ht⟩ := not_forall.1 hq
      have hlt := (step_progress (inv_run s turns) t).resolve_left ht
      rw [← run_concat, hn] at hlt
      obtain ⟨more, hmore⟩ := ih _ hlt (turns ++ [t]) rfl
      refine ⟨t :: more, ?_⟩
      rwa [List.append_assoc] at hmore

theorem safe_undisturbed {s : Setup W α} {turns : List Turn} (h : Undisturbed s turns) : Safe s turns := by
  obtain ⟨more, hmore⟩ := finishes s turns
  refine ⟨fun pre _ => (inv_run s pre).good, ⟨more, (inv_run s _).good, hmore⟩, ?_⟩
  rintro pre t post rfl - hacc
  by_cases hpc : (run s pre).awaiter = .dispatch true
  · refine unhanded_of_undisturbed pre ?_ hpc
    rintro p x q rfl
    exact h p x (q ++ t :: post) (by simp)
  · exact (inv_run s pre).early hacc hpc

/-- A run without the one bad moment is safe, and once the awaiting thread is
through no other run is. -/
theorem safe_iff_undisturbed (s : Setup W α) (turns : List Turn) :
    (Undisturbed s turns → Safe s turns) ∧
      (¬ (run s turns).awaiter.Accesses → Safe s turns → Undisturbed s turns) := by
  refine ⟨safe_undisturbed, ?_⟩
  intro hfin hsafe
  rcases late_access_left turns hsafe.inTime with h | ⟨hpc, -⟩
  · exact h
  · rw [hpc] at hfin
    exact absurd trivial hfin

def demo : Setup Nat Nat := ⟨1, none, 7⟩

/-- `await_suspend` is through before the worker begins. -/
theorem patient_worker_safe :
    let turns := List.replicate 7 Turn.awaiter ++ List.replicate 4 .worker ++ [.resumer]
    Safe demo turns ∧ Undisturbed demo turns := by
  have h := (safe_iff_undisturbed demo _).1 (by decide :
    Undisturbed demo (List.replicate 7 Turn.awaiter ++ List.replicate 4 .worker ++ [.resumer]))
  exact ⟨h, (safe_iff_undisturbed demo _).2 id h⟩

/-- The worker hands the coroutine over and it goes on, then `await_suspend`
calls `dispatch`. -/
theorem late_dispatch :
    ¬ Safe demo (List.replicate 6 Turn.awaiter ++ List.replicate 4 .worker ++ [.resumer, .awaiter]) := by
  intro h
  have hacc : (run demo (List.replicate 6 Turn.awaiter ++ List.replicate 4 .worker ++ [.resumer])).awaiter.Accesses :=
    trivial
  exact List.cons_ne_nil _ _ (h.inTime _ .awaiter [] rfl rfl hacc)

end NgxLuaCpp.Await
