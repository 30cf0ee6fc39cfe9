import Mathlib.Data.List.Basic
import Mathlib.Data.List.Induction
/-!
# Conditions on the steps of a run

A run is the list of its steps, the first one first.
-/

namespace Trace
variable {α σ : Type*}

/-- Every step of a run meets `P`, given the steps before it. -/
def Each (P : List α → α → Prop) (l : List α) : Prop := ∀ pre x post, l = pre ++ x :: post → P pre x

theorem each_nil (P : List α → α → Prop) : Each P [] := by
  intro pre x post h
  simp at h

theorem each_concat {P : List α → α → Prop} {l : List α} {x : α} : Each P (l ++ [x]) ↔ Each P l ∧ P l x := by
  constructor
  · intro h
    refine ⟨fun pre y post e => h pre y (post ++ [x]) (by simp [e]), h l x [] rfl⟩
  · rintro ⟨h, hx⟩ pre y post e
    rcases List.eq_nil_or_concat' post with rfl | ⟨post, z, rfl⟩
    · obtain ⟨rfl, rfl⟩ : l = pre ∧ x = y := by simpa using e
      exact hx
    · obtain ⟨rfl, rfl⟩ : l = pre ++ y :: post ∧ x = z := by
        rw [← List.cons_append, ← List.append_assoc] at e
        exact List.append_singleton_inj.1 e
      exact h pre y post rfl

theorem each_iff {P : List α → α → Prop} {l : List α} :
    Each P l ↔ ∀ i, (h : i < l.length) → P (l.take i) l[i] := by
  constructor
  · intro h i hi
    apply h _ _ (l.drop (i + 1))
    rw [← List.drop_eq_getElem_cons hi, List.take_append_drop]
  · rintro h pre x post rfl
    simpa using h pre.length (by simp)

instance instDecidableEach (P : List α → α → Prop) [∀ pre x, Decidable (P pre x)] (l : List α) :
    Decidable (Each P l) := decidable_of_iff _ each_iff.symm

/-- Some step of a run meets `P`, given the steps before it. -/
def Sometime (P : List α → α → Prop) (l : List α) : Prop := ∃ pre x post, l = pre ++ x :: post ∧ P pre x

theorem sometime_iff {P : List α → α → Prop} {l : List α} : Sometime P l ↔ ¬ Each (fun pre x => ¬ P pre x) l := by
  simp [Sometime, Each]

theorem sometime_concat {P : List α → α → Prop} {l : List α} {x : α} :
    Sometime P (l ++ [x]) ↔ Sometime P l ∨ P l x := by
  rw [sometime_iff, sometime_iff, each_concat, not_and_or, not_not]

/-- `P` holds after every prefix of a run, the whole one included. -/
def Throughout (P : List α → Prop) (l : List α) : Prop := ∀ pre, pre <+: l → P pre

theorem throughout_nil {P : List α → Prop} : Throughout P [] ↔ P [] := by
  simp [Throughout]

theorem throughout_concat {P : List α → Prop} {l : List α} {x : α} :
    Throughout P (l ++ [x]) ↔ Throughout P l ∧ P (l ++ [x]) := by
  simp only [Throughout, List.prefix_concat_iff, or_imp, forall_and, forall_eq]
  exact and_comm

/-- What the steps of a run put out, each by the state it is taken in. -/
def outputs {β : Type*} (step : σ → α → σ) (out : σ → α → List β) (s : σ) : List α → List β
  | [] => []
  | x :: l => out s x ++ outputs step out (step s x) l

theorem outputs_concat {β : Type*} {step : σ → α → σ} {out : σ → α → List β} {s : σ} {l : List α} {x : α} :
    outputs step out s (l ++ [x]) = outputs step out s l ++ out (l.foldl step s) x := by
  induction l generalizing s with
  | nil => simp [outputs]
  | cons y l ih => rw [List.cons_append, outputs, ih, outputs, List.append_assoc, List.foldl_cons]

/-- An invariant that may speak of the steps taken holds at the end of every run. -/
theorem invariant {step : σ → α → σ} {s : σ} (I : List α → σ → Prop) (h0 : I [] s)
    (hstep : ∀ l t x, I l t → I (l ++ [x]) (step t x)) (l : List α) : I l (l.foldl step s) := by
  induction l using List.reverseRecOn with
  | nil => exact h0
  | append_singleton l x ih =>
    rw [List.foldl_concat]
    exact hstep l _ x ih

/-- The same where a step may be impossible. -/
theorem invariant_foldlM {step : σ → α → Option σ} {s : σ} (I : List α → σ → Prop) (h0 : I [] s)
    (hstep : ∀ l t x t', I l t → step t x = some t' → I (l ++ [x]) t') (l : List α) {t : σ}
    (h : l.foldlM step s = some t) : I l t := by
  induction l using List.reverseRecOn generalizing t with
  | nil =>
    obtain rfl := Option.some.inj h
    exact h0
  | append_singleton l x ih =>
    rw [List.foldlM_append] at h
    obtain ⟨t₁, h₁, hlast⟩ := Option.bind_eq_some_iff.1 h
    rw [List.foldlM_cons] at hlast
    obtain ⟨t₂, hx, h₂⟩ := Option.bind_eq_some_iff.1 hlast
    obtain rfl := Option.some.inj h₂
    exact hstep l t₁ x _ (ih h₁) hx

end Trace
