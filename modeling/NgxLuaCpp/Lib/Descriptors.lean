import Mathlib.Data.List.Basic
import Mathlib.Logic.Function.Basic
/-!
# Descriptor numbers

A number stands for the descriptor of whoever opened it last, until someone closes the
number. Whoever closes a number closes what it then stands for.
-/

namespace Descriptors
variable {ω : Type*}

structure Table (ω : Type*) where
  /-- who opened what a number stands for -/
  owner : ℕ → Option ω
  /-- the calls of `close`: by whom, and whose descriptor it was -/
  closes : List (ω × Option ω)

namespace Table

def empty : Table ω := ⟨fun _ => none, []⟩

/-- A number that is free, for `o`. -/
def opened (t : Table ω) (fd : ℕ) (o : ω) : Table ω := { t with owner := Function.update t.owner fd (some o) }

def close (t : Table ω) (o : ω) (fd : ℕ) : Table ω :=
  ⟨Function.update t.owner fd none, t.closes ++ [(o, t.owner fd)]⟩

/-- What the closes of `o` have closed. -/
def closesBy [DecidableEq ω] (t : Table ω) (o : ω) : List (Option ω) :=
  (t.closes.filter fun e => e.1 = o).map Prod.snd

section
variable {t : Table ω} {o p : ω} {fd fd' : ℕ}

/-- Closing one's own leaves the others' as they are. -/
theorem owner_close_iff (hown : t.owner fd = some p) (h : o ≠ p) :
    (t.close p fd).owner fd' = some o ↔ t.owner fd' = some o := by
  unfold close
  dsimp only
  rcases eq_or_ne fd' fd with rfl | hne
  · rw [Function.update_self, hown]
    simp [h.symm]
  · rw [Function.update_of_ne hne]

theorem owner_opened_iff (hfree : t.owner fd = none) (h : o ≠ p) :
    (t.opened fd p).owner fd' = some o ↔ t.owner fd' = some o := by
  unfold opened
  dsimp only
  rcases eq_or_ne fd' fd with rfl | hne
  · rw [Function.update_self, hfree]
    simp [h.symm]
  · rw [Function.update_of_ne hne]

/-- What `o` does who opens free numbers and closes its own. -/
inductive Fair (o : ω) (t : Table ω) : Table ω → Prop where
  | opened {fd : ℕ} (hfree : t.owner fd = none) : Fair o t (t.opened fd o)
  | close {fd : ℕ} (hown : t.owner fd = some o) : Fair o t (t.close o fd)

theorem Fair.owner_iff {t' : Table ω} (h : Fair p t t') (hne : o ≠ p) (fd : ℕ) :
    t'.owner fd = some o ↔ t.owner fd = some o := by
  cases h with
  | opened hfree => exact owner_opened_iff hfree hne
  | close hown => exact owner_close_iff hown hne

end

/-! ## One owner -/

section
variable [DecidableEq ω] {t t' : Table ω} {o p : ω} {fd : ℕ}

/-- Nothing opened yet. -/
structure Untouched (t : Table ω) (o : ω) : Prop where
  closes : t.closesBy o = []
  owner : ∀ fd, t.owner fd ≠ some o

/-- One descriptor open. -/
structure Holds (t : Table ω) (o : ω) (fd : ℕ) : Prop where
  closes : t.closesBy o = []
  owner : ∀ fd', t.owner fd' = some o ↔ fd' = fd

/-- One descriptor opened and closed. -/
structure Done (t : Table ω) (o : ω) : Prop where
  closes : t.closesBy o = [some o]
  owner : ∀ fd, t.owner fd ≠ some o

theorem untouched_empty (o : ω) : Untouched empty o := ⟨rfl, fun _ h => nomatch h⟩

theorem closesBy_close_self (t : Table ω) (o : ω) (fd : ℕ) :
    (t.close o fd).closesBy o = t.closesBy o ++ [t.owner fd] := by
  unfold closesBy close
  simp

theorem closesBy_close_of_ne (h : o ≠ p) (t : Table ω) (fd : ℕ) : (t.close p fd).closesBy o = t.closesBy o := by
  unfold closesBy close
  simp [h.symm]

theorem length_closesBy_le (h : t.closes <+: t'.closes) (o : ω) : (t.closesBy o).length ≤ (t'.closesBy o).length := by
  unfold closesBy
  exact ((h.filter _).map _).length_le

theorem Untouched.opened (h : Untouched t o) (fd : ℕ) : Holds (t.opened fd o) o fd := by
  refine ⟨h.closes, fun fd' => ?_⟩
  unfold Table.opened
  dsimp only
  rcases eq_or_ne fd' fd with rfl | hne
  · rw [Function.update_self]
    simp
  · rw [Function.update_of_ne hne]
    exact iff_of_false (h.owner fd') hne

theorem Holds.owner_self (h : Holds t o fd) : t.owner fd = some o := (h.owner fd).2 rfl

theorem Holds.close (h : Holds t o fd) : Done (t.close o fd) o := by
  refine ⟨?_, fun fd' => ?_⟩
  · rw [closesBy_close_self, h.closes, h.owner_self]
    rfl
  · unfold Table.close
    dsimp only
    rcases eq_or_ne fd' fd with rfl | hne
    · rw [Function.update_self]
      exact fun h => nomatch h
    · rw [Function.update_of_ne hne]
      exact mt (h.owner fd').1 hne

/-! ## The others -/

theorem Fair.closesBy_eq (h : Fair p t t') (hne : o ≠ p) : t'.closesBy o = t.closesBy o := by
  cases h with
  | opened => rfl
  | close => exact closesBy_close_of_ne hne t _

theorem Untouched.fair (h : Untouched t o) (ht : Fair p t t') (hne : o ≠ p) : Untouched t' o :=
  ⟨(ht.closesBy_eq hne).trans h.closes, fun fd => mt (ht.owner_iff hne fd).1 (h.owner fd)⟩

theorem Holds.fair (h : Holds t o fd) (ht : Fair p t t') (hne : o ≠ p) : Holds t' o fd :=
  ⟨(ht.closesBy_eq hne).trans h.closes, fun fd' => (ht.owner_iff hne fd').trans (h.owner fd')⟩

theorem Done.fair (h : Done t o) (ht : Fair p t t') (hne : o ≠ p) : Done t' o :=
  ⟨(ht.closesBy_eq hne).trans h.closes, fun fd => mt (ht.owner_iff hne fd).1 (h.owner fd)⟩

end

end Table
end Descriptors
