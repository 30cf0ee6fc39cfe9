import NgxLuaCpp.Lib.Trace
import Mathlib.Algebra.Order.Group.Multiset
/-!
# Calls outside

A program that calls outside, each call with an answer of its own type. Whoever is
outside may answer as he likes, and differently each time. What a program may call
at a point depends on the log of what has been called and answered before.

`Program.sound`: what `wp` says of a program holds of all its runs.
-/
open Trace

namespace Outside
variable {κ : Type} {ρ : κ → Type} {α β : Type}

/-- `ρ k` are the answers to the call `k`. -/
inductive Program (κ : Type) (ρ : κ → Type) (α : Type) where
  | done (a : α)
  | call (k : κ) (next : ρ k → Program κ ρ α)

structure Event (κ : Type) (ρ : κ → Type) where
  called : κ
  answer : ρ called

namespace Program

def bind : Program κ ρ α → (α → Program κ ρ β) → Program κ ρ β
  | done a, f => f a
  | call k next, f => call k fun r => (next r).bind f

instance instMonad : Monad (Program κ ρ) where
  pure := done
  bind := bind

def perform (k : κ) : Program κ ρ (ρ k) := call k done

/-- The rest of the log, and what the program returns. -/
def runFrom (answer : List (Event κ ρ) → (k : κ) → ρ k) : Program κ ρ α → List (Event κ ρ) → List (Event κ ρ) × α
  | done a, _ => ([], a)
  | call k next, log =>
    let e : Event κ ρ := ⟨k, answer log k⟩
    let (rest, a) := (next e.answer).runFrom answer (log ++ [e])
    (e :: rest, a)

/-- A run, by how each call is answered. -/
def run (answer : List (Event κ ρ) → (k : κ) → ρ k) (p : Program κ ρ α) : List (Event κ ρ) × α := p.runFrom answer []

/-- `p` may call what it calls, and returns with `Q`. -/
def wp (may : List (Event κ ρ) → κ → Prop) (Q : List (Event κ ρ) → α → Prop) : Program κ ρ α → List (Event κ ρ) → Prop
  | done a, log => Q log a
  | call k next, log => may log k ∧ ∀ r, (next r).wp may Q (log ++ [⟨k, r⟩])

variable {may : List (Event κ ρ) → κ → Prop} {Q : List (Event κ ρ) → α → Prop} {p : Program κ ρ α}
  {log : List (Event κ ρ)}

@[simp] theorem wp_pure {a : α} : wp may Q (pure a) log ↔ Q log a := Iff.rfl

@[simp] theorem wp_done {a : α} : wp may Q (done a) log ↔ Q log a := Iff.rfl

@[simp] theorem wp_perform {k : κ} {Q : List (Event κ ρ) → ρ k → Prop} :
    wp may Q (perform k) log ↔ may log k ∧ ∀ r, Q (log ++ [⟨k, r⟩]) r := Iff.rfl

@[simp] theorem wp_bind {f : α → Program κ ρ β} {Q : List (Event κ ρ) → β → Prop} :
    wp may Q (p >>= f) log ↔ wp may (fun log a => wp may Q (f a) log) p log := by
  induction p generalizing log with
  | done a => exact Iff.rfl
  | call k next ih =>
    constructor
    · rintro ⟨hmay, h⟩
      exact ⟨hmay, fun r => (ih r).1 (h r)⟩
    · rintro ⟨hmay, h⟩
      exact ⟨hmay, fun r => (ih r).2 (h r)⟩

theorem wp_call {k : κ} {f : ρ k → Program κ ρ α} (hmay : may log k) (h : ∀ r, wp may Q (f r) (log ++ [⟨k, r⟩])) :
    wp may Q (perform k >>= f) log := ⟨hmay, h⟩

/-- What `wp` says holds of every run, whatever the answers. -/
theorem runFrom_sound (answer : List (Event κ ρ) → (k : κ) → ρ k) (h : wp may Q p log) :
    Each (fun pre e => may (log ++ pre) e.called) (p.runFrom answer log).1 ∧
      Q (log ++ (p.runFrom answer log).1) (p.runFrom answer log).2 := by
  induction p generalizing log with
  | done a =>
    simp only [runFrom, List.append_nil]
    exact ⟨each_nil _, h⟩
  | call k next ih =>
    obtain ⟨hmay, hnext⟩ := h
    obtain ⟨hrest, hQ⟩ := ih (answer log k) (hnext _)
    refine ⟨fun pre e post heq => ?_, by simpa [runFrom] using hQ⟩
    cases pre with
    | nil =>
      obtain ⟨rfl, -⟩ := List.cons.inj heq
      simpa using hmay
    | cons x pre =>
      obtain ⟨rfl, htail⟩ := List.cons.inj heq
      simpa using hrest pre e post htail

theorem sound (answer : List (Event κ ρ) → (k : κ) → ρ k) (h : wp may Q p []) :
    Each (fun pre e => may pre e.called) (p.run answer).1 ∧ Q (p.run answer).1 (p.run answer).2 := by
  have hruns := runFrom_sound answer h
  simp only [List.nil_append] at hruns
  exact hruns

end Program

/-! ## What is held -/

/-- What a call uses, and what with its answer it lets one hold and gives back. -/
structure Account (κ : Type) (ρ : κ → Type) (ω : Type) where
  takes : (k : κ) → ρ k → Option ω
  uses : κ → Multiset ω
  gives : (k : κ) → ρ k → Option ω

namespace Account
variable {ω : Type} [DecidableEq ω] (c : Account κ ρ ω)

def after (m : Multiset ω) (e : Event κ ρ) : Multiset ω :=
  let m := (c.gives e.called e.answer).elim m m.erase
  (c.takes e.called e.answer).elim m fun r => r ::ₘ m

/-- What is held after `log`, from `start` on. -/
def held (start : Multiset ω) (log : List (Event κ ρ)) : Multiset ω := log.foldl c.after start

/-- One uses and gives back what one holds. -/
def may (start : Multiset ω) (log : List (Event κ ρ)) (k : κ) : Prop :=
  (∀ r ∈ c.uses k, r ∈ c.held start log) ∧ ∀ a, ∀ r ∈ c.gives k a, r ∈ c.held start log

variable {start : Multiset ω} {log : List (Event κ ρ)} {e : Event κ ρ}

@[simp] theorem held_nil : c.held start [] = start := rfl

@[simp] theorem held_concat : c.held start (log ++ [e]) = c.after (c.held start log) e := by
  rw [held, List.foldl_concat]
  rfl

/-- What is given back is held no longer. -/
theorem after_gives {m : Multiset ω} {r : ω} (h : c.gives e.called e.answer = some r) :
    c.after (r ::ₘ m) e = (c.takes e.called e.answer).elim m fun r => r ::ₘ m := by
  simp [after, h]

end Account
end Outside
