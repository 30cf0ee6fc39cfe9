import Mathlib.Data.List.Nodup
import Mathlib.Data.List.Perm.Basic
import Mathlib.Logic.Function.Basic
/-!
# Who holds what

Nodes of a memory are linked into chains, and every node is held by one holder.
Handing nodes from one holder to another keeps it so, and a chain only depends
on the links of its own nodes: what one holder does leaves the others' chains
alone.
-/

namespace Holders
variable {A ι : Type*}

/-! ## Chains -/

/-- From the pointer `p`, `next` leads through the nodes `l`. -/
def Chain (next : A → Option A) : Option A → List A → Prop
  | p, [] => p = none
  | p, a :: l => p = some a ∧ Chain next (next a) l

section Chains
variable {next next' : A → Option A} {p : Option A} {a : A} {l m : List A}

@[simp] theorem chain_none : Chain next none l ↔ l = [] := by
  cases l with
  | nil => simp [Chain]
  | cons a l => simp [Chain]

theorem chain_some : Chain next (some a) l ↔ ∃ m, l = a :: m ∧ Chain next (next a) m := by
  constructor
  · intro h
    cases l with
    | nil => cases h
    | cons b m =>
      obtain ⟨hab, h⟩ := h
      cases hab
      exact ⟨m, rfl, h⟩
  · rintro ⟨m, rfl, h⟩
    exact ⟨rfl, h⟩

theorem Chain.congr (h : Chain next p l) (heq : ∀ b ∈ l, next' b = next b) : Chain next' p l := by
  induction l generalizing p with
  | nil => exact h
  | cons b l ih =>
    refine ⟨h.1, ?_⟩
    rw [heq b List.mem_cons_self]
    exact ih h.2 fun c hc => heq c (List.mem_cons_of_mem _ hc)

theorem Chain.unique (h : Chain next p l) (h' : Chain next p m) : l = m := by
  induction l generalizing p m with
  | nil =>
    obtain rfl : p = none := h
    exact (chain_none.1 h').symm
  | cons b l ih =>
    obtain ⟨rfl, hl⟩ := h
    obtain ⟨k, rfl, hk⟩ := chain_some.1 h'
    rw [ih hl hk]

end Chains

/-! ## Holders -/

/-- Every element of `live` has one holder, which has it once, and nothing else is held. -/
structure Held (content : ι → List A) (live : List A) : Prop where
  nodup : ∀ i, (content i).Nodup
  apart : ∀ i j a, a ∈ content i → a ∈ content j → i = j
  mem : ∀ a, a ∈ live ↔ ∃ i, a ∈ content i

section Held
variable {content : ι → List A} {live : List A} {i j : ι} {a : A} {l m : List A}

theorem held_nil : Held (fun _ : ι => ([] : List A)) [] := ⟨by simp, by simp, by simp⟩

variable [DecidableEq ι]

/-- Two holders exchange some of what they have. -/
theorem Held.exchange (h : Held content live) (hij : i ≠ j) (hp : (l ++ m).Perm (content i ++ content j)) :
    Held (Function.update (Function.update content i l) j m) live := by
  have hnodup : (l ++ m).Nodup := by
    refine hp.nodup_iff.2 (List.Nodup.append (h.nodup i) (h.nodup j) ?_)
    exact fun b hb hb' => hij (h.apart i j b hb hb')
  obtain ⟨hl, hm, hlm⟩ := List.nodup_append.1 hnodup
  have hmem : ∀ b, b ∈ l ∨ b ∈ m ↔ b ∈ content i ∨ b ∈ content j := by
    intro b
    simpa using hp.mem_iff
  have hcontent : ∀ k, Function.update (Function.update content i l) j m k =
      if k = j then m else if k = i then l else content k := by
    intro k
    simp only [Function.update_apply]
  refine ⟨?_, ?_, ?_⟩
  · intro k
    rw [hcontent]
    split
    · exact hm
    · split
      · exact hl
      · exact h.nodup k
  · intro k k' b hb hb'
    rw [hcontent] at hb hb'
    have := h.apart
    grind
  · intro b
    have := h.mem b
    simp only [hcontent]
    grind

/-- An element leaves its holder, and nothing else changes. -/
theorem Held.erase [DecidableEq A] (h : Held content live) (hlive : live.Nodup) (hi : content i = a :: m) :
    Held (Function.update content i m) (live.erase a) := by
  have hcons := h.nodup i
  rw [hi, List.nodup_cons] at hcons
  have hiff : ∀ k b, b ∈ Function.update content i m k ↔ b ∈ content k ∧ b ≠ a := by
    intro k b
    rcases eq_or_ne k i with rfl | hk
    · rw [Function.update_self, hi, List.mem_cons]
      grind
    · rw [Function.update_of_ne hk]
      refine ⟨fun hb => ⟨hb, ?_⟩, And.left⟩
      rintro rfl
      exact hk (h.apart k i b hb (hi ▸ List.mem_cons_self))
  refine ⟨?_, ?_, ?_⟩
  · intro k
    rcases eq_or_ne k i with rfl | hk
    · rw [Function.update_self]
      exact hcons.2
    · rw [Function.update_of_ne hk]
      exact h.nodup k
  · intro k k' b hb hb'
    exact h.apart k k' b ((hiff k b).1 hb).1 ((hiff k' b).1 hb').1
  · intro b
    simp only [hiff, exists_and_right, ← h.mem b]
    rw [hlive.mem_erase_iff]
    exact and_comm

/-- A holder that had nothing gets a new element. -/
theorem Held.insert (h : Held content live) (hi : content i = []) (ha : a ∉ live) :
    Held (Function.update content i [a]) (a :: live) := by
  have hiff : ∀ k b, b ∈ Function.update content i [a] k ↔ b ∈ content k ∨ k = i ∧ b = a := by
    intro k b
    rcases eq_or_ne k i with rfl | hk
    · simp [hi]
    · simp [hk]
  have hnot : ∀ k, a ∉ content k := fun k hk => ha ((h.mem a).2 ⟨k, hk⟩)
  refine ⟨?_, ?_, ?_⟩
  · intro k
    rcases eq_or_ne k i with rfl | hk
    · simp
    · rw [Function.update_of_ne hk]
      exact h.nodup k
  · intro k k' b hb hb'
    rcases (hiff k b).1 hb with hc | ⟨rfl, rfl⟩
    · rcases (hiff k' b).1 hb' with hc' | ⟨-, rfl⟩
      · exact h.apart k k' b hc hc'
      · exact absurd hc (hnot k)
    · rcases (hiff k' b).1 hb' with hc' | ⟨rfl, -⟩
      · exact absurd hc' (hnot k')
      · rfl
  · intro b
    simp only [hiff, List.mem_cons, h.mem b, exists_or, exists_eq_left]
    exact or_comm

end Held
end Holders
