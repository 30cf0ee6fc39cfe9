import NgxLuaCpp.Lib.Ring
import NgxLuaCpp.Lib.Trace
/-!
# The queue of delayed events

A coroutine that yields is put to sleep for 0 seconds, which links its node
into nginx's `ngx_posted_delayed_events`. `process_events` unlinks these
placeholders, and `ngx_lua_cpp_resume` links a node again when its coroutine
completes. None of these checks whether the node is linked.

nginx leaves an event its sleep posted in this cycle for the next one, and a
cycle starts with `process_events`: it runs no node that is still pending.
-/

namespace NgxLuaCpp
open Ring Trace

variable {C : Type} [DecidableEq C]

/-! ## The model -/

/-- Where a Lua coroutine is: running or yet to call, yielded in a call, or
with its call completed and waiting to run. -/
inductive CoPhase where
  | running | yielded | completed
  deriving DecidableEq

/-- The queue's links, `none` being its header, with the hooker's two pending
lists. The rest records what happened: `early` are the coroutines that nginx
ran before they completed. -/
structure PostedQueue (C : Type) where
  links : Links (Option C)
  pendingHttp : List C
  pendingStream : List C
  sweeping : Bool
  phase : C → CoPhase
  completions : C → Nat
  runs : C → Nat
  early : List C

/-- What can happen next: a coroutine yields or completes, a pass starts or ends, or nginx runs
a node. -/
inductive QueueEvent (C : Type) where
  /-- A coroutine calls `ngx_lua_cpp_yield`. -/
  | yield (c : C)
  /-- `process_events` starts a pass. -/
  | pass
  /-- A sweep of `process_events` completes a coroutine. -/
  | complete (c : C)
  /-- `process_events` ends its pass. -/
  | endPass
  /-- The polling loop of `stop_impl` completes a coroutine, for `stop()` or a collected instance. -/
  | stop (c : C)
  /-- nginx runs the first node of the queue. -/
  | run

namespace PostedQueue

/-- An empty queue. -/
def new : PostedQueue C := ⟨.empty, [], [], false, fun _ => .running, fun _ => 0, fun _ => 0, []⟩

/-- The coroutines whose placeholder no pass has unlinked yet. -/
def pending (s : PostedQueue C) : List C := s.pendingHttp ++ s.pendingStream

/-- `ngx_lua_cpp_yield`: a placeholder is posted, and remembered for the next pass. -/
def yield (isHttp : C → Bool) (s : PostedQueue C) (c : C) : PostedQueue C :=
  { s with
    pendingHttp := if isHttp c then s.pendingHttp ++ [c] else s.pendingHttp
    pendingStream := if isHttp c then s.pendingStream else s.pendingStream ++ [c]
    links := s.links.insertTail none (some c)
    phase := Function.update s.phase c .yielded }

/-- The first loops of `process_events`, which dig out the placeholders. -/
def unlink (r : Links (Option C)) (cs : List C) : Links (Option C) := cs.foldl (fun r c => r.remove (some c)) r

/-- A pass starts and unlinks the placeholders. -/
def pass (s : PostedQueue C) : PostedQueue C :=
  { s with
    links := unlink (unlink s.links s.pendingHttp) s.pendingStream
    pendingHttp := []
    pendingStream := []
    sweeping := true }

/-- A completion, which calls `ngx_lua_cpp_resume`. -/
def resume (s : PostedQueue C) (c : C) : PostedQueue C :=
  { s with
    links := s.links.insertTail none (some c)
    phase := Function.update s.phase c .completed
    completions := Function.update s.completions c (s.completions c + 1) }

/-- nginx unlinks the first node and runs its coroutine. -/
def runHead (s : PostedQueue C) : PostedQueue C :=
  if s.links.prev none = none then s
  else match s.links.next none with
    | none => s
    | some c =>
      -- posted in this cycle
      if c ∈ s.pending then s
      else { s with
        links := s.links.remove (some c)
        phase := Function.update s.phase c .running
        runs := Function.update s.runs c (s.runs c + 1)
        early := if s.phase c = .completed then s.early else s.early ++ [c] }

/-- A step; an event that cannot happen in a state does nothing. -/
def step (isHttp : C → Bool) (s : PostedQueue C) : QueueEvent C → PostedQueue C
  | .yield c => if s.sweeping = false ∧ s.phase c = .running then s.yield isHttp c else s
  | .pass => if s.sweeping = false then s.pass else s
  | .complete c => if s.sweeping = true ∧ s.phase c = .yielded then s.resume c else s
  | .endPass => { s with sweeping := false }
  | .stop c => if s.phase c = .yielded then s.resume c else s
  | .run => if s.sweeping = false then s.runHead else s

/-- The queue after these events. -/
def run (isHttp : C → Bool) (evs : List (QueueEvent C)) : PostedQueue C := evs.foldl (step isHttp) new

def runHeads (s : PostedQueue C) : Nat → PostedQueue C
  | 0 => s
  | n + 1 => s.runHead.runHeads n

/-- A pass, and then nginx runs `n` nodes. -/
def serve (s : PostedQueue C) (n : Nat) : PostedQueue C := { s.pass with sweeping := false }.runHeads n

end PostedQueue

/-! ## What the queue is for -/

/-- The queue is a ring with each node at most once, nginx ran no coroutine that
had not completed, and every completion is run exactly once: by now, or in
the next cycle. -/
structure QueueGood (s : PostedQueue C) : Prop where
  ring : ∃ l : List C, IsRing s.links none (l.map some)
  early : s.early = []
  once : ∀ c, s.completions c = s.runs c + if s.phase c = .completed then 1 else 0
  served : ∃ n, ∀ c, (s.serve n).runs c = s.completions c

/-- No completion from `stop()` is of a coroutine whose placeholder is still
linked, that is, one that yielded since the last pass. -/
def StopsAfterPass (isHttp : C → Bool) (evs : List (QueueEvent C)) : Prop :=
  Each (fun pre ev => ∀ c, ev = .stop c → (PostedQueue.run isHttp pre).phase c = .yielded →
    c ∉ (PostedQueue.run isHttp pre).pending) evs

/-! ## The invariant -/

/-- The queue is the ring of `l`, in which the completed coroutines are and the placeholders. -/
structure QueueInv (s : PostedQueue C) (l : List C) : Prop where
  ring : IsRing s.links none (l.map some)
  mem : ∀ c, c ∈ l ↔ s.phase c = .completed ∨ c ∈ s.pending
  pending_nodup : s.pending.Nodup
  pending_yielded : ∀ c ∈ s.pending, s.phase c = .yielded
  swept : s.sweeping = true → s.pending = []
  early : s.early = []
  once : ∀ c, s.completions c = s.runs c + if s.phase c = .completed then 1 else 0

omit [DecidableEq C] in
theorem some_notMem {l : List C} {c : C} (h : c ∉ l) : some c ∉ none :: l.map some := by
  simpa using h

omit [DecidableEq C] in
theorem queueInv_new : QueueInv (PostedQueue.new : PostedQueue C) [] where
  ring := isRing_empty none
  mem := by simp [PostedQueue.new, PostedQueue.pending]
  pending_nodup := by simp [PostedQueue.new, PostedQueue.pending]
  pending_yielded := by simp [PostedQueue.new, PostedQueue.pending]
  swept _ := rfl
  early := rfl
  once _ := rfl

/-- `yield` adds one pending coroutine, to either list. -/
theorem pending_yield_perm (isHttp : C → Bool) (s : PostedQueue C) (c : C) :
    (s.yield isHttp c).pending.Perm (c :: s.pending) := by
  unfold PostedQueue.pending PostedQueue.yield
  cases isHttp c
  · simpa using (List.perm_append_singleton c (s.pendingHttp ++ s.pendingStream))
  · simp [List.perm_middle]

/-- A placeholder goes to the end of the ring. -/
theorem yield_inv (isHttp : C → Bool) {s : PostedQueue C} {l : List C} (h : QueueInv s l) {c : C}
    (hs : s.sweeping = false) (hc : s.phase c = .running) : QueueInv (s.yield isHttp c) (l ++ [c]) := by
  have hp := pending_yield_perm isHttp s c
  have hnp : c ∉ s.pending := by
    intro hm
    simp [h.pending_yielded c hm] at hc
  have hnl : c ∉ l := by
    intro hm
    simpa [hc, hnp] using (h.mem c).1 hm
  refine ⟨?_, ?_, hp.nodup_iff.2 (List.nodup_cons.2 ⟨hnp, h.pending_nodup⟩), ?_, ?_, h.early, ?_⟩
  · rw [List.map_append]
    exact h.ring.insertTail (some_notMem hnl)
  · intro d
    rw [hp.mem_iff, List.mem_append, h.mem, List.mem_singleton, List.mem_cons]
    by_cases hdc : d = c
    · simp [hdc]
    · simp [PostedQueue.yield, hdc]
  · intro d hd
    rcases List.mem_cons.1 (hp.mem_iff.1 hd) with rfl | hm
    · simp [PostedQueue.yield]
    · have hdc : d ≠ c := by rintro rfl; exact hnp hm
      simpa [PostedQueue.yield, hdc] using h.pending_yielded d hm
  · intro hw
    simp [PostedQueue.yield, hs] at hw
  · intro d
    by_cases hdc : d = c
    · subst hdc
      simpa [PostedQueue.yield, hc] using h.once d
    · simpa [PostedQueue.yield, hdc] using h.once d

/-- Unlinking nodes that are in the ring, each once, leaves the others. -/
theorem isRing_unlink {cs : List C} (hcs : cs.Nodup) :
    ∀ {r : Links (Option C)} {l : List C}, IsRing r none (l.map some) → (∀ c ∈ cs, c ∈ l) →
      ∃ l' : List C, IsRing (PostedQueue.unlink r cs) none (l'.map some) ∧ ∀ c, c ∈ l' ↔ c ∈ l ∧ c ∉ cs := by
  induction cs with
  | nil =>
    intro r l hr _
    exact ⟨l, hr, by simp⟩
  | cons c cs ih =>
    intro r l hr hl
    obtain ⟨hc, hcs⟩ := List.nodup_cons.1 hcs
    obtain ⟨l₁, l₂, rfl⟩ := List.append_of_mem (hl c (by simp))
    have hnd : (l₁ ++ c :: l₂).Nodup := (List.nodup_cons.1 hr.nodup).2.of_map _
    obtain ⟨hnc, -⟩ := List.nodup_cons.1 (List.nodup_middle.1 hnd)
    -- the rest of `cs` is still in the ring once `c` is out
    rw [List.map_append, List.map_cons] at hr
    have hr' := hr.remove
    rw [← List.map_append] at hr'
    obtain ⟨l', h₁, h₂⟩ := ih hcs hr' fun d hd => by
      have hdc : d ≠ c := by rintro rfl; exact hc hd
      simpa [hdc] using hl d (by simp [hd])
    refine ⟨l', h₁, ?_⟩
    intro d
    rw [h₂]
    by_cases hdc : d = c
    · subst hdc
      simp [hnc]
    · simp [hdc]

/-- A pass leaves the completed coroutines in the ring. -/
theorem pass_inv {s : PostedQueue C} {l : List C} (h : QueueInv s l) :
    ∃ l' : List C, QueueInv s.pass l' ∧ ∀ c, c ∈ l' ↔ s.phase c = .completed := by
  obtain ⟨l', hr, hm⟩ := isRing_unlink h.pending_nodup h.ring fun c hc => (h.mem c).2 (.inr hc)
  have hl' : ∀ c, c ∈ l' ↔ s.phase c = .completed := by
    intro c
    rw [hm, h.mem]
    constructor
    · rintro ⟨hc | hc, hn⟩
      · exact hc
      · exact absurd hc hn
    · intro hc
      exact ⟨.inl hc, fun hp => by simp [h.pending_yielded c hp] at hc⟩
  refine ⟨l', ⟨?_, ?_, .nil, ?_, fun _ => rfl, h.early, h.once⟩, hl'⟩
  · rw [PostedQueue.pending, PostedQueue.unlink, List.foldl_append] at hr
    exact hr
  · intro c
    rw [hl' c]
    simp [PostedQueue.pass, PostedQueue.pending]
  · simp [PostedQueue.pass, PostedQueue.pending]

/-- A completion links the node of a coroutine that is not pending. -/
theorem resume_inv {s : PostedQueue C} {l : List C} (h : QueueInv s l) {c : C} (hc : s.phase c = .yielded)
    (hp : c ∉ s.pending) : QueueInv (s.resume c) (l ++ [c]) := by
  have hnl : c ∉ l := by
    intro hm
    simpa [hc, hp] using (h.mem c).1 hm
  refine ⟨?_, ?_, h.pending_nodup, ?_, h.swept, h.early, ?_⟩
  · rw [List.map_append]
    exact h.ring.insertTail (some_notMem hnl)
  · intro d
    by_cases hdc : d = c
    · subst hdc
      simp [PostedQueue.resume]
    · simpa [PostedQueue.resume, PostedQueue.pending, hdc] using h.mem d
  · intro d hd
    have hdc : d ≠ c := by rintro rfl; exact hp hd
    simpa [PostedQueue.resume, hdc] using h.pending_yielded d hd
  · intro d
    by_cases hdc : d = c
    · subst hdc
      simpa [PostedQueue.resume, hc] using h.once d
    · simpa [PostedQueue.resume, hdc] using h.once d

theorem runHead_nil {s : PostedQueue C} (h : QueueInv s []) : s.runHead = s := by
  have he : s.links.prev none = none := h.ring.prev_header_iff.2 rfl
  rw [PostedQueue.runHead, if_pos he]

theorem runHead_cons {s : PostedQueue C} {c : C} {l : List C} (h : QueueInv s (c :: l)) :
    s.runHead = if c ∈ s.pending then s
      else { s with
        links := s.links.remove (some c)
        phase := Function.update s.phase c .running
        runs := Function.update s.runs c (s.runs c + 1)
        early := if s.phase c = .completed then s.early else s.early ++ [c] } := by
  have hne : s.links.prev none ≠ none := fun he => by simpa using h.ring.prev_header_iff.1 he
  have hhead : s.links.next none = some c := h.ring.next_header
  rw [PostedQueue.runHead, if_neg hne, hhead]

/-- The first node, once it is no placeholder, is of a completed coroutine. -/
theorem runHead_completed {s : PostedQueue C} {c : C} {l : List C} (h : QueueInv s (c :: l)) (hc : c ∉ s.pending) :
    QueueInv s.runHead l ∧ s.runHead.completions = s.completions ∧ s.runHead.pending = s.pending := by
  have hphase : s.phase c = .completed := ((h.mem c).1 (by simp)).resolve_right hc
  have hnl : c ∉ l := by
    have := (List.nodup_cons.1 (List.nodup_cons.1 h.ring.nodup).2).1
    simpa using this
  rw [runHead_cons h, if_neg hc, if_pos hphase]
  refine ⟨⟨?_, ?_, h.pending_nodup, ?_, h.swept, h.early, ?_⟩, rfl, rfl⟩
  · have hr := h.ring
    rw [List.map_cons] at hr
    exact IsRing.remove (l := []) hr
  · intro d
    by_cases hdc : d = c
    · subst hdc
      simp [hnl, PostedQueue.pending] at hc ⊢
      exact hc
    · simpa [PostedQueue.pending, hdc] using h.mem d
  · intro d hd
    have hdc : d ≠ c := by rintro rfl; exact hc hd
    simpa [hdc] using h.pending_yielded d hd
  · intro d
    by_cases hdc : d = c
    · subst hdc
      simpa [hphase] using h.once d
    · simpa [hdc] using h.once d

/-- Without placeholders, nginx runs everything that completed. -/
theorem runHeads_served {l : List C} :
    ∀ {s : PostedQueue C}, QueueInv s l → s.pending = [] → ∀ c, (s.runHeads l.length).runs c = s.completions c := by
  induction l with
  | nil =>
    intro s h hp c
    have hc : s.phase c ≠ .completed := fun hc => by simpa using (h.mem c).2 (.inl hc)
    rw [h.once c, if_neg hc]
    rfl
  | cons d l ih =>
    intro s h hp c
    obtain ⟨h', hcomp, hpend⟩ := runHead_completed h (by simp [hp])
    rw [← hcomp]
    exact ih h' (hpend.trans hp) c

theorem QueueInv.good {s : PostedQueue C} {l : List C} (h : QueueInv s l) : QueueGood s := by
  obtain ⟨l', h', -⟩ := pass_inv h
  have he : QueueInv { s.pass with sweeping := false } l' :=
    ⟨h'.ring, h'.mem, h'.pending_nodup, h'.pending_yielded, by simp, h'.early, h'.once⟩
  exact ⟨⟨l, h.ring⟩, h.early, h.once, l'.length, runHeads_served he rfl⟩

/-! ## Every run -/

/-- Completing a coroutine whose placeholder is linked links its node twice. -/
theorem not_good_resume {s : PostedQueue C} {l : List C} (h : QueueInv s l) {c : C} (hc : c ∈ s.pending) :
    ¬ QueueGood (s.resume c) := by
  intro hg
  obtain ⟨l', hl'⟩ := hg.ring
  have hm : some c ∈ l.map some := List.mem_map_of_mem ((h.mem c).2 (.inr hc))
  exact h.ring.not_insertTail hm ⟨_, hl'⟩

/-- Every event keeps the ring, unless `stop` completes a coroutine whose placeholder is linked.
-/
theorem QueueInv.step {s : PostedQueue C} {l : List C} (h : QueueInv s l) (isHttp : C → Bool) (ev : QueueEvent C)
    (hstop : ∀ c, ev = .stop c → s.phase c = .yielded → c ∉ s.pending) : ∃ l', QueueInv (s.step isHttp ev) l' := by
  cases ev with
  | yield c =>
    simp only [PostedQueue.step]
    split
    · rename_i hc
      exact ⟨_, yield_inv isHttp h hc.1 hc.2⟩
    · exact ⟨l, h⟩
  | pass =>
    simp only [PostedQueue.step]
    split
    · obtain ⟨l', h', -⟩ := pass_inv h
      exact ⟨l', h'⟩
    · exact ⟨l, h⟩
  | complete c =>
    simp only [PostedQueue.step]
    split
    · -- in a sweep no placeholder is left
      rename_i hc
      exact ⟨_, resume_inv h hc.2 (by simp [h.swept hc.1])⟩
    · exact ⟨l, h⟩
  | endPass => exact ⟨l, h.ring, h.mem, h.pending_nodup, h.pending_yielded, by simp [PostedQueue.step], h.early, h.once⟩
  | stop c =>
    simp only [PostedQueue.step]
    split
    · rename_i hc
      exact ⟨_, resume_inv h hc (hstop c rfl hc)⟩
    · exact ⟨l, h⟩
  | run =>
    simp only [PostedQueue.step]
    split
    · cases l with
      | nil => exact ⟨[], (runHead_nil h).symm ▸ h⟩
      | cons c l =>
        by_cases hc : c ∈ s.pending
        · exact ⟨c :: l, by rw [runHead_cons h, if_pos hc]; exact h⟩
        · exact ⟨l, (runHead_completed h hc).1⟩
    · exact ⟨l, h⟩

theorem PostedQueue.run_concat (isHttp : C → Bool) (evs : List (QueueEvent C)) (ev : QueueEvent C) :
    PostedQueue.run isHttp (evs ++ [ev]) = (PostedQueue.run isHttp evs).step isHttp ev := List.foldl_concat ..

/-- A run whose completions from `stop()` all come after a pass keeps the invariant. -/
theorem queueInv_run (isHttp : C → Bool) (evs : List (QueueEvent C)) (h : StopsAfterPass isHttp evs) :
    ∃ l, QueueInv (PostedQueue.run isHttp evs) l := by
  induction evs using List.reverseRecOn with
  | nil => exact ⟨[], queueInv_new⟩
  | append_singleton evs ev ih =>
    obtain ⟨hpre, hev⟩ := each_concat.1 h
    obtain ⟨l, hl⟩ := ih hpre
    rw [PostedQueue.run_concat]
    exact hl.step isHttp ev hev

/-- The queue is good throughout a run exactly when no completion from `stop()`
is of a coroutine that yielded since the last pass. -/
theorem queue_good_iff (isHttp : C → Bool) (evs : List (QueueEvent C)) :
    Throughout (fun pre => QueueGood (PostedQueue.run isHttp pre)) evs ↔ StopsAfterPass isHttp evs := by
  induction evs using List.reverseRecOn with
  | nil => exact iff_of_true (throughout_nil.2 (queueInv_new (C := C)).good) (each_nil _)
  | append_singleton evs ev ih =>
    rw [throughout_concat, ih, StopsAfterPass, StopsAfterPass, each_concat]
    refine and_congr_right fun hpre => ?_
    obtain ⟨l, hl⟩ := queueInv_run isHttp evs hpre
    rw [PostedQueue.run_concat]
    constructor
    · rintro hg c rfl hc hp
      rw [PostedQueue.step, if_pos hc] at hg
      exact not_good_resume hl hp hg
    · intro hev
      obtain ⟨l', hl'⟩ := hl.step isHttp ev hev
      exact hl'.good

/-- A coroutine yields, and `stop()` completes it in the same cycle. -/
theorem stop_links_twice : ¬ Throughout (fun pre => QueueGood (PostedQueue.run (fun _ : Nat => true) pre))
    [.yield 0, .stop 0] := by
  intro h
  have hg := h [.yield 0, .stop 0] (List.prefix_refl _)
  obtain ⟨l, hl⟩ := hg.ring
  have hy := yield_inv (fun _ : Nat => true) (queueInv_new (C := Nat)) (c := 0) rfl rfl
  exact hy.ring.not_insertTail (x := some 0) (by simp) ⟨_, hl⟩

end NgxLuaCpp
