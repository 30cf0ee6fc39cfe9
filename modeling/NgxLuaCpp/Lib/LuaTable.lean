import Mathlib.Data.List.Basic
/-!
# Tables of a list constructor

A table from a list of expressions, where `nil` is no entry. The length of a table with
holes is any of its borders; where only its end is missing, there is one border.
-/

namespace LuaTable
universe u
variable {α β : Type u}

/-- `{e₁, …, eₙ, f()}`: one value of each expression, `nil` if it has none, and all of the
last. -/
def construct (firsts : List (Option α)) (last : List α) : List (Option α) := firsts ++ last.map some

/-- `t[i]` -/
def get (t : List (Option α)) (i : Nat) : Option α := if i = 0 then none else t[i - 1]?.join

structure IsBorder (t : List (Option α)) (n : Nat) : Prop where
  entry : n ≠ 0 → (get t n).isSome = true
  next : get t (n + 1) = none

/-- An implementation of `#t`. -/
structure Length (α : Type u) where
  length : List (Option α) → Nat
  isBorder : ∀ t, IsBorder t (length t)

/-- The first border. -/
def Length.first : Length α where
  length t := (t.takeWhile Option.isSome).length
  isBorder t := by
    induction t with
    | nil => exact ⟨fun h => absurd rfl h, rfl⟩
    | cons v t ih =>
      cases v with
      | none => exact ⟨fun h => absurd rfl h, rfl⟩
      | some v =>
        rw [List.takeWhile_cons_of_pos rfl, List.length_cons]
        refine ⟨fun _ => ?_, ih.next⟩
        cases hn : (t.takeWhile Option.isSome).length with
        | zero => rfl
        | succ n =>
          rw [hn] at ih
          exact ih.entry (Nat.succ_ne_zero n)

/-- What is at an index, or the index where there is nothing. -/
def entry (t : List (Option α)) (i : Nat) : Except Nat α :=
  match get t i with
  | some v => .ok v
  | none => .error i

/-- `table.concat(t, sep)`, or the index of an entry that is missing. -/
def concat (len : Length α) (spell : α → List β) (t : List (Option α)) (sep : List β) : Except Nat (List β) := do
  let entries ← (List.range' 1 (len.length t)).mapM (entry t)
  return sep.intercalate (entries.map spell)

/-! ## Entries missing at the end -/

section
variable (vs : List α) (k : Nat)

theorem get_succ (i : Nat) : get (vs.map some ++ List.replicate k none) (i + 1) = vs[i]? := by
  unfold get
  rw [if_neg (Nat.succ_ne_zero i), Nat.add_sub_cancel]
  rcases Nat.lt_or_ge i vs.length with hi | hi
  · rw [List.getElem?_append_left (by simpa using hi), List.getElem?_map, List.getElem?_eq_getElem hi]
    rfl
  · rw [List.getElem?_append_right (by simpa using hi), List.getElem?_replicate, List.getElem?_eq_none hi]
    split
    · rfl
    · rfl

theorem IsBorder.eq_length {n : Nat} (h : IsBorder (vs.map some ++ List.replicate k none) n) : n = vs.length := by
  have hnext := h.next
  rw [get_succ, List.getElem?_eq_none_iff] at hnext
  apply Nat.le_antisymm _ hnext
  cases n with
  | zero => exact Nat.zero_le _
  | succ n =>
    have hentry := h.entry (Nat.succ_ne_zero n)
    rw [get_succ] at hentry
    obtain ⟨v, hv⟩ := Option.isSome_iff_exists.1 hentry
    exact (List.getElem?_eq_some_iff.1 hv).1

theorem mapM_entry (pre : List α) :
    (List.range' (pre.length + 1) vs.length).mapM (entry ((pre ++ vs).map some ++ List.replicate k none)) = .ok vs := by
  induction vs generalizing pre with
  | nil => rfl
  | cons v vs ih =>
    have hv : entry ((pre ++ v :: vs).map some ++ List.replicate k none) (pre.length + 1) = .ok v := by
      unfold entry
      rw [get_succ, List.getElem?_append_right (Nat.le_refl _), Nat.sub_self]
      rfl
    have hvs := ih (pre ++ [v])
    rw [List.length_append, List.length_singleton, List.append_assoc, List.singleton_append] at hvs
    rw [List.length_cons, List.range'_succ, List.mapM_cons, hv, hvs]
    rfl

/-- Entries missing at the end are left out. -/
theorem concat_eq (len : Length α) (spell : α → List β) (sep : List β) :
    concat len spell (vs.map some ++ List.replicate k none) sep = .ok (sep.intercalate (vs.map spell)) := by
  have hentries := mapM_entry vs k []
  rw [List.length_nil, Nat.zero_add, List.nil_append] at hentries
  unfold concat
  rw [(len.isBorder _).eq_length, hentries]
  rfl

end

end LuaTable
