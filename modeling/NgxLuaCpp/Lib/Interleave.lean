import Mathlib.Data.List.Basic
/-!
# Interleaved tasks

Tasks are lists of atomic actions on one state. A schedule says which task takes
its next action. Where actions of different tasks commute, every schedule that
finishes them comes to the state of one task after the other.
-/

namespace Interleave
variable {σ α : Type*} (act : σ → α → σ)

/-- The state, and what is left of each task. -/
structure Config (σ α : Type*) where
  state : σ
  left : List (List α)

/-- The next action of the task `i`, if it has one. -/
def step (c : Config σ α) (i : Nat) : Config σ α :=
  match c.left[i]? with
  | some (a :: rest) => ⟨act c.state a, c.left.set i rest⟩
  | _ => c

def run (schedule : List Nat) (c : Config σ α) : Config σ α := schedule.foldl (step act) c

def Config.finished (c : Config σ α) : Bool := c.left.all List.isEmpty

/-- Actions of different tasks commute. -/
def Independent (tasks : List (List α)) : Prop :=
  tasks.Pairwise fun l l' => ∀ a ∈ l, ∀ b ∈ l', ∀ s, act (act s a) b = act (act s b) a

/-- The state when the tasks are done one after the other. -/
def Config.serial (c : Config σ α) : σ := c.left.flatten.foldl act c.state

variable {act}

theorem foldl_act {l : List α} {a : α} (h : ∀ b ∈ l, ∀ s, act (act s b) a = act (act s a) b) (s : σ) :
    act (l.foldl act s) a = l.foldl act (act s a) := by
  induction l generalizing s with
  | nil => rfl
  | cons b l ih =>
    rw [List.foldl_cons, List.foldl_cons, ih (fun c hc => h c (List.mem_cons_of_mem b hc)), h b List.mem_cons_self]

/-- A step takes the head of one task. -/
theorem step_eq (act : σ → α → σ) (c : Config σ α) (i : Nat) : step act c i = c ∨
    ∃ pre a rest post, c.left = pre ++ (a :: rest) :: post ∧ step act c i = ⟨act c.state a, pre ++ rest :: post⟩ := by
  unfold step
  split
  · next a rest h =>
    obtain ⟨hi, hget⟩ := List.getElem?_eq_some_iff.1 h
    have hleft : c.left = c.left.take i ++ (a :: rest) :: c.left.drop (i + 1) := by
      rw [← hget, ← List.drop_eq_getElem_cons hi, List.take_append_drop]
    refine .inr ⟨c.left.take i, a, rest, c.left.drop (i + 1), hleft, ?_⟩
    rw [List.set_eq_take_append_cons_drop, if_pos hi]
  · exact .inl rfl

theorem Independent.step {c : Config σ α} (h : Independent act c.left) (i : Nat) :
    Independent act (Interleave.step act c i).left := by
  rcases step_eq act c i with heq | ⟨pre, a, rest, post, hleft, heq⟩
  · rwa [heq]
  · rw [heq]
    rw [hleft] at h
    obtain ⟨hpre, hpost, hcross⟩ := List.pairwise_append.1 h
    obtain ⟨hhead, htail⟩ := List.pairwise_cons.1 hpost
    refine List.pairwise_append.2 ⟨hpre, List.pairwise_cons.2 ⟨?_, htail⟩, ?_⟩
    · intro l hl x hx
      exact hhead l hl x (List.mem_cons_of_mem a hx)
    · intro l hl l' hl'
      rcases List.mem_cons.1 hl' with rfl | hl'
      · exact fun x hx y hy => hcross l hl (a :: l') (by simp) x hx y (List.mem_cons_of_mem a hy)
      · exact hcross l hl l' (by simp [hl'])

/-- A step does not change where the tasks lead. -/
theorem serial_step {c : Config σ α} (h : Independent act c.left) (i : Nat) :
    (step act c i).serial act = c.serial act := by
  rcases step_eq act c i with heq | ⟨pre, a, rest, post, hleft, heq⟩
  · rw [heq]
  · rw [heq, Config.serial, Config.serial, hleft]
    rw [hleft] at h
    have hcomm : ∀ b ∈ pre.flatten, ∀ s, act (act s b) a = act (act s a) b := by
      intro b hb s
      obtain ⟨l, hl, hbl⟩ := List.mem_flatten.1 hb
      exact (List.pairwise_append.1 h).2.2 l hl (a :: rest) (by simp) b hbl a (by simp) s
    simp only [List.flatten_append, List.flatten_cons, List.foldl_append, List.cons_append, List.foldl_cons]
    rw [foldl_act hcomm]

theorem serial_run {c : Config σ α} (h : Independent act c.left) (schedule : List Nat) :
    (run act schedule c).serial act = c.serial act := by
  induction schedule generalizing c with
  | nil => rfl
  | cons i schedule ih =>
    change (run act schedule (step act c i)).serial act = _
    rw [ih (h.step i), serial_step h]

theorem run_finished {c : Config σ α} (h : Independent act c.left) {schedule : List Nat}
    (hdone : (run act schedule c).finished = true) : (run act schedule c).state = c.serial act := by
  have hflat : (run act schedule c).left.flatten = [] := by
    refine List.flatten_eq_nil_iff.2 fun task htask => ?_
    exact List.isEmpty_iff.1 (List.all_eq_true.1 hdone task htask)
  rw [← serial_run h schedule, Config.serial, hflat, List.foldl_nil]

end Interleave
