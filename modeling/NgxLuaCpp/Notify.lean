import NgxLuaCpp.Lib.Trace
import Mathlib.Logic.Function.Basic
/-!
# Wakeups

Any thread may post work and call `notify`; the nginx thread sweeps the
instances and then waits for events. We show that it never waits with a post
unswept unless a notify event will end the wait.

Atomic operations are single steps, and `actions->notify` posts an event that
the next return of the wait consumes.
-/

namespace NgxLuaCpp.Notify

variable {τ ι : Type}

/-! ## The model -/

/-- How far the sweeps that start after a post have come. -/
inductive Swept where
  | no | started | done
  deriving DecidableEq

/-- A post, with whether its `notify` reached the flag and whether it returned. -/
structure Post where
  swept : Swept
  asked : Bool
  returned : Bool

/-- Where a thread is: about to call `notify` for its post, or in it, having
taken the flag from 0 to 1 with the event still to issue. -/
inductive Thread where
  | idle
  | posted (p : Nat)
  | took (p : Nat)
  deriving DecidableEq

/-- Where the nginx thread is in `process_events`: at the head of the loop, in
the loop over `cpp_list`, at the exchange, or in `prev_ngx_process_events`;
outside, it runs the handlers of the events. -/
inductive Pc (ι : Type) where
  | handlers
  | top (spins : Nat)
  | sweep (spins : Nat) (rest : List ι)
  | exchange (spins : Nat)
  | wait

/-- The flag and the event, where the nginx thread and the others are, and a record of the
posts. -/
structure Hooker (τ ι : Type) where
  notified : Nat
  /-- An issued notify event that no wait has consumed. -/
  pending : Bool
  cppList : List ι
  pc : Pc ι
  threads : τ → Thread
  posts : Nat → Post
  nextPost : Nat

/-- What can happen next: a thread posts or goes on in `notify`, a handler changes the
instances, or the nginx thread takes a step. -/
inductive Action (τ ι : Type) where
  /-- A thread posts work to an instance's warp. -/
  | post (t : τ)
  /-- Its `notified.exchange(1)`. -/
  | exchange (t : τ)
  /-- Its `actions->notify`. -/
  | issue (t : τ)
  /-- A handler inserts and removes instances. -/
  | instances (l : List ι)
  /-- The next step of the nginx thread. -/
  | nginx

def Swept.start : Swept → Swept
  | .no => .started
  | s => s

def Swept.finish : Swept → Swept
  | .started => .done
  | s => s

namespace Hooker

/-- Nothing posted yet, and the nginx thread in its handlers. -/
def new : Hooker τ ι := ⟨0, false, [], .handlers, fun _ => .idle, fun _ => ⟨.no, false, false⟩, 0⟩

/-- Apply `f` to how far every post is swept. -/
def mark (f : Swept → Swept) (s : Hooker τ ι) : Nat → Post := fun p => { s.posts p with swept := f (s.posts p).swept }

/-- A step of `process_events`. -/
def nginxStep (s : Hooker τ ι) : Hooker τ ι :=
  match s.pc with
  | .handlers => { s with pc := .top 0 }
  | .top n =>
    let spins := n + 1
    -- the safety valve leaves the flag as the last exchange left it
    if spins > 1000 then { s with pc := .wait }
    else { s with pc := .sweep spins s.cppList, posts := s.mark .start }
  | .sweep n (_ :: rest) => { s with pc := .sweep n rest }
  | .sweep n [] => { s with pc := .exchange n, posts := s.mark .finish }
  | .exchange n => { s with notified := 0, pc := if s.notified = 1 then .top n else .wait }
  | .wait => { s with pending := false, pc := .handlers }

/-- A step; an action that is not enabled does nothing. -/
def step [DecidableEq τ] (s : Hooker τ ι) : Action τ ι → Hooker τ ι
  | .post t => match s.threads t with
    | .idle => { s with
        threads := Function.update s.threads t (.posted s.nextPost)
        posts := Function.update s.posts s.nextPost ⟨.no, false, false⟩
        nextPost := s.nextPost + 1 }
    | _ => s
  | .exchange t => match s.threads t with
    | .posted p =>
      if s.notified = 0 then { s with
        notified := 1
        threads := Function.update s.threads t (.took p)
        posts := Function.update s.posts p { s.posts p with asked := true } }
      else { s with
        notified := 1
        threads := Function.update s.threads t .idle
        posts := Function.update s.posts p { s.posts p with asked := true, returned := true } }
    | _ => s
  | .issue t => match s.threads t with
    | .took p => { s with
        pending := true
        threads := Function.update s.threads t .idle
        posts := Function.update s.posts p { s.posts p with returned := true } }
    | _ => s
  | .instances l => match s.pc with
    | .handlers => { s with cppList := l }
    | _ => s
  | .nginx => s.nginxStep

/-- The state after these actions. -/
def run [DecidableEq τ] (acts : List (Action τ ι)) : Hooker τ ι := acts.foldl step new

end Hooker

/-! ## The invariant -/

/-- A notify event is unconsumed, or a thread that took the flag will issue one. -/
def Covered (s : Hooker τ ι) : Prop := s.pending = true ∨ ∃ t p, s.threads t = .took p

/-- A post that has reached the flag, with no sweep started since. -/
def Fresh (s : Hooker τ ι) (p : Nat) : Prop := (s.posts p).asked = true ∧ (s.posts p).swept = .no

/-- What the flag says at each point of the pass. From the second spin on it was
cleared in this pass, so whoever raised it did so after the last wait. -/
def AtPc (s : Hooker τ ι) : Prop :=
  match s.pc with
  | .handlers => True
  | .top n => (1 ≤ n → s.notified = 1 → Covered s) ∧ (2 ≤ n → ∀ p, Fresh s p → Covered s)
  | .sweep n _ => (2 ≤ n → s.notified = 1 → Covered s) ∧ ∀ p, Fresh s p → s.notified = 1
  | .exchange n => (2 ≤ n → s.notified = 1 → Covered s) ∧ ∀ p, Fresh s p → s.notified = 1
  | .wait => (s.notified = 1 → Covered s) ∧ ∀ p, Fresh s p → Covered s

/-- The nginx thread is in the loop over `cpp_list`. -/
def Pc.sweeping : Pc ι → Prop
  | .sweep _ _ => True
  | _ => False

/-- The record of the posts agrees with the threads that made them. -/
structure Recorded (s : Hooker τ ι) : Prop where
  held : ∀ t p, s.threads t = .posted p ∨ s.threads t = .took p → p < s.nextPost
  taken : ∀ t p, s.threads t = .took p → (s.posts p).asked = true
  returned : ∀ p, (s.posts p).returned = true → (s.posts p).asked = true

/-- What the flag, the record and the place of the nginx thread say of each other. -/
structure Inv (s : Hooker τ ι) : Prop where
  bit : s.notified ≤ 1
  recorded : Recorded s
  started : ∀ p, (s.posts p).swept = .started → s.pc.sweeping
  at_pc : AtPc s

/-- What a step of another thread can change. -/
structure Others (s s' : Hooker τ ι) : Prop where
  pc : s'.pc = s.pc
  bit : s'.notified ≤ 1
  recorded : Recorded s'
  raised : s.notified = 1 → s'.notified = 1
  signal : s'.notified = 1 → s.notified = 1 ∨ Covered s'
  covered : Covered s → Covered s'
  fresh : ∀ p, Fresh s' p → Fresh s p ∨ s'.notified = 1
  started : ∀ p, (s'.posts p).swept = .started → (s.posts p).swept = .started

/-- A step of another thread keeps the invariant. -/
theorem Others.inv {s s' : Hooker τ ι} (h : Others s s') (hi : Inv s) : Inv s' := by
  refine ⟨h.bit, h.recorded, fun p hp => h.pc ▸ hi.started p (h.started p hp), ?_⟩
  have hflag (hc : s.notified = 1 → Covered s) (hn : s'.notified = 1) : Covered s' := by
    rcases h.signal hn with h₁ | h₁
    · exact h.covered (hc h₁)
    · exact h₁
  have hfresh (hf : ∀ p, Fresh s p → s.notified = 1) (p : Nat) (hp : Fresh s' p) : s'.notified = 1 := by
    rcases h.fresh p hp with h₁ | h₁
    · exact h.raised (hf p h₁)
    · exact h₁
  have ha := hi.at_pc
  unfold AtPc at ha ⊢
  rw [h.pc]
  cases hpc : s.pc with
  | handlers => trivial
  | top n =>
    simp only [hpc] at ha ⊢
    refine ⟨fun hn => hflag (ha.1 hn), fun hn p hp => ?_⟩
    rcases h.fresh p hp with hf | hf
    · exact h.covered (ha.2 hn p hf)
    · exact hflag (ha.1 (by omega)) hf
  | sweep n rest =>
    simp only [hpc] at ha ⊢
    exact ⟨fun hn => hflag (ha.1 hn), hfresh ha.2⟩
  | exchange n =>
    simp only [hpc] at ha ⊢
    exact ⟨fun hn => hflag (ha.1 hn), hfresh ha.2⟩
  | wait =>
    simp only [hpc] at ha ⊢
    refine ⟨hflag ha.1, fun p hp => ?_⟩
    rcases h.fresh p hp with hf | hf
    · exact h.covered (ha.2 p hf)
    · exact hflag ha.1 hf

/-! ## What the other threads do -/

section Threads
variable [DecidableEq τ] {s : Hooker τ ι} {t : τ}

/-- Thread `t` moves on with post `q`, whose record becomes `post`. -/
structure Moved (s s' : Hooker τ ι) (t : τ) (x : Thread) (q : Nat) (post : Post) : Prop where
  threads : s'.threads = Function.update s.threads t x
  posts : s'.posts = Function.update s.posts q post
  pc : s'.pc = s.pc
  next : s.nextPost ≤ s'.nextPost
  holds : x = .idle ∨ q < s'.nextPost ∧ (x = .posted q ∨ x = .took q ∧ post.asked = true)
  kept : q < s.nextPost → (s.posts q).asked = true → post.asked = true
  returned : post.returned = true → post.asked = true
  started : post.swept = .started → (s.posts q).swept = .started

theorem Moved.recorded {s' : Hooker τ ι} {x : Thread} {q : Nat} {post : Post} (h : Moved s s' t x q post)
    (hr : Recorded s) : Recorded s' := by
  refine ⟨?_, ?_, ?_⟩
  · intro u p hu
    by_cases hut : u = t
    · subst hut
      rw [h.threads, Function.update_self] at hu
      rcases h.holds with rfl | ⟨hq, rfl | ⟨rfl, -⟩⟩
      · simp at hu
      · obtain rfl : q = p := by simpa using hu
        exact hq
      · obtain rfl : q = p := by simpa using hu
        exact hq
    · rw [h.threads, Function.update_of_ne hut] at hu
      exact Nat.lt_of_lt_of_le (hr.held u p hu) h.next
  · intro u p hu
    rw [h.posts]
    by_cases hut : u = t
    · subst hut
      rw [h.threads, Function.update_self] at hu
      rcases h.holds with rfl | ⟨-, rfl | ⟨rfl, ha⟩⟩
      · simp at hu
      · simp at hu
      · obtain rfl : q = p := by simpa using hu
        rw [Function.update_self, ha]
    · rw [h.threads, Function.update_of_ne hut] at hu
      have ha := hr.taken u p hu
      by_cases hpq : p = q
      · subst hpq
        rw [Function.update_self]
        exact h.kept (hr.held u p (.inr hu)) ha
      · rwa [Function.update_of_ne hpq]
  · intro p hp
    rw [h.posts] at hp ⊢
    by_cases hpq : p = q
    · subst hpq
      rw [Function.update_self] at hp ⊢
      exact h.returned hp
    · rw [Function.update_of_ne hpq] at hp ⊢
      exact hr.returned p hp

theorem Moved.others {s' : Hooker τ ι} {x : Thread} {q : Nat} {post : Post} (h : Moved s s' t x q post) (hi : Inv s)
    (hbit : s'.notified ≤ 1) (hraised : s.notified = 1 → s'.notified = 1)
    (hsignal : s'.notified = 1 → s.notified = 1 ∨ Covered s') (hcov : Covered s → Covered s')
    (hfresh : post.asked = true → post.swept = .no → Fresh s q ∨ s'.notified = 1) : Others s s' := by
  refine ⟨h.pc, hbit, h.recorded hi.recorded, hraised, hsignal, hcov, ?_, ?_⟩
  · intro p hp
    by_cases hpq : p = q
    · subst hpq
      rw [Fresh, h.posts, Function.update_self] at hp
      exact hfresh hp.1 hp.2
    · rw [Fresh, h.posts, Function.update_of_ne hpq] at hp
      exact .inl hp
  · intro p hp
    rw [h.posts] at hp
    by_cases hpq : p = q
    · subst hpq
      rw [Function.update_self] at hp
      exact h.started hp
    · rwa [Function.update_of_ne hpq] at hp

end Threads

/-! ## What the nginx thread does -/

theorem inv_new : Inv (Hooker.new : Hooker τ ι) where
  bit := Nat.zero_le _
  recorded := ⟨by simp [Hooker.new], by simp [Hooker.new], by simp [Hooker.new]⟩
  started := by simp [Hooker.new]
  at_pc := trivial

end NgxLuaCpp.Notify
