import Mathlib.Data.List.Lex
import Mathlib.Data.Nat.Digits.Defs
/-!
# Byte strings and numbers

A `std::string`, and a Lua string, is a list of bytes. `std::map` orders such
keys as `std::string::operator<` does: lexicographically, bytes unsigned.
-/

namespace NgxLuaCpp

/-- A `std::string`, or a Lua string: any bytes, of any length. -/
abbrev Bytes := List UInt8

instance uint8LinearOrder : LinearOrder UInt8 where
  le_refl := UInt8.le_refl
  le_trans _ _ _ := UInt8.le_trans
  le_antisymm _ _ := UInt8.le_antisymm
  le_total := UInt8.le_total
  lt_iff_le_not_ge a b := by
    rw [UInt8.lt_iff_toNat_lt, UInt8.le_iff_toNat_le, UInt8.le_iff_toNat_le]; omega
  toDecidableLE := inferInstance

/-- A fact about all bytes, checked on numbers. -/
theorem uint8_forall {P : UInt8 → Prop} (h : ∀ n < 256, P (UInt8.ofNat n)) (c : UInt8) : P c := by
  have := h c.toNat c.toNat_lt
  rwa [UInt8.ofNat_toNat] at this

/-- The bytes of a source literal. -/
def txt (s : String) : Bytes := s.toList.map fun c => UInt8.ofNat c.toNat

/-- `std::clamp`. -/
def clamp {α : Type} [LT α] [DecidableLT α] (v lo hi : α) : α :=
  if v < lo then lo else if hi < v then hi else v

/-- Compiled for Windows or not. -/
inductive Platform where
  | windows
  | posix
  deriving DecidableEq

/-! ## Decimal numbers -/

/-- The digit character of `d < 10`. -/
def digit (d : Nat) : UInt8 := UInt8.ofNat (48 + d)

/-- `std::to_string` of an unsigned number. -/
def decimal (n : Nat) : Bytes :=
  if n = 0 then [digit 0] else (Nat.digits 10 n).reverse.map digit

/-- The number decimal digits spell, as `atoi` and Lua's `tonumber` read them. -/
def number (s : Bytes) : Nat := s.foldl (fun n c => n * 10 + (c.toNat - 48)) 0

/-- `printf`'s `%0wzu`. -/
def padded (w n : Nat) : Bytes :=
  List.replicate (w - (decimal n).length) (digit 0) ++ decimal n

/-- The low `w` decimal digits of `n`, most significant first. -/
def lastDigits : Nat → Nat → Bytes
  | 0, _ => []
  | w + 1, n => lastDigits w (n / 10) ++ [digit (n % 10)]

@[simp] theorem length_lastDigits (w n : Nat) : (lastDigits w n).length = w := by
  induction w generalizing n with
  | zero => rfl
  | succ w ih => simp [lastDigits, ih]

theorem digit_lt {a b : Nat} (hb : b < 10) (h : a < b) : digit a < digit b := by
  simp only [digit, UInt8.lt_iff_toNat_lt, UInt8.toNat_ofNat']
  omega

theorem toNat_digit {d : Nat} (h : d < 10) : (digit d).toNat = 48 + d := by
  rw [digit, UInt8.toNat_ofNat', Nat.mod_eq_of_lt (by omega)]

/-- Digits, the last one first in `ds`, read back as the number they make. -/
theorem number_digits {ds : List Nat} (hd : ∀ d ∈ ds, d < 10) : number (ds.reverse.map digit) = Nat.ofDigits 10 ds := by
  induction ds with
  | nil => rfl
  | cons d ds ih =>
    have e := ih fun x hx => hd x (by simp [hx])
    have hdig := toNat_digit (hd d (by simp))
    rw [number] at e ⊢
    rw [List.reverse_cons, List.map_append, List.foldl_append, e, List.map_singleton, List.foldl_cons, List.foldl_nil,
      hdig, Nat.ofDigits_cons]
    change _ = d + 10 * Nat.ofDigits 10 ds
    omega

theorem number_decimal (n : Nat) : number (decimal n) = n := by
  unfold decimal
  split
  · subst n
    decide
  · rw [number_digits fun d hd => Nat.digits_lt_base (by omega) hd, Nat.ofDigits_digits]

theorem decimal_injective {m n : Nat} (h : decimal m = decimal n) : m = n := by
  rw [← number_decimal m, h, number_decimal]

theorem number_padded (w n : Nat) : number (padded w n) = n := by
  have hzeros (k : Nat) : (List.replicate k (digit 0)).foldl (fun n c => n * 10 + (c.toNat - 48)) 0 = 0 := by
    induction k with
    | zero => rfl
    | succ k ih => exact ih
  have h := number_decimal n
  unfold number at h ⊢
  rw [padded, List.foldl_append, hzeros, h]

theorem padded_injective {w m n : Nat} (h : padded w m = padded w n) : m = n := by
  rw [← number_padded w m, h, number_padded]

theorem mem_decimal {b : UInt8} {n : Nat} (h : b ∈ decimal n) : 48 ≤ b.toNat ∧ b.toNat < 58 := by
  obtain ⟨d, hd, rfl⟩ : ∃ d < 10, b = digit d := by
    unfold decimal at h
    split at h
    · exact ⟨0, by omega, by simpa using h⟩
    · obtain ⟨d, hd, rfl⟩ := List.mem_map.1 h
      exact ⟨d, Nat.digits_lt_base (by omega) (List.mem_reverse.1 hd), rfl⟩
  rw [toNat_digit hd]
  omega

theorem notMem_decimal {b : UInt8} {n : Nat} (h : ¬ (48 ≤ b.toNat ∧ b.toNat < 58)) : b ∉ decimal n :=
  fun hm => h (mem_decimal hm)

/-- What follows the last `a` is where two equal strings first may differ. -/
theorem append_cons_inj {l l' d d' : Bytes} {a : UInt8} (hd : a ∉ d) (hd' : a ∉ d')
    (h : l ++ a :: d = l' ++ a :: d') : l = l' ∧ d = d' := by
  rcases List.append_eq_append_iff.1 h with ⟨w, rfl, hw⟩ | ⟨w, rfl, hw⟩
  · cases w with
    | nil => exact ⟨by simp, by simpa using hw⟩
    | cons b w =>
      obtain ⟨rfl, rfl⟩ : a = b ∧ d = w ++ a :: d' := by simpa using hw
      exact absurd (by simp) hd
  · cases w with
    | nil => exact ⟨by simp, by simpa using hw.symm⟩
    | cons b w =>
      obtain ⟨rfl, rfl⟩ : a = b ∧ d' = w ++ a :: d := by simpa using hw
      exact absurd (by simp) hd'

theorem append_lt_of_lt {l l' : Bytes} (h : l < l') (hlen : l.length = l'.length) (r r' : Bytes) :
    l ++ r < l' ++ r' := by
  induction l generalizing l' with
  | nil => cases l' with
    | nil => exact absurd h (lt_irrefl _)
    | cons b l' => simp at hlen
  | cons a l ih => cases l' with
    | nil => simp at hlen
    | cons b l' =>
      simp only [List.length_cons, Nat.add_right_cancel_iff] at hlen
      simp only [List.cons_append, List.cons_lt_cons_iff] at h ⊢
      rcases h with h | ⟨rfl, h⟩
      · exact .inl h
      · exact .inr ⟨rfl, ih h hlen⟩

/-- Equally long decimal strings compare as the numbers they print. -/
theorem lastDigits_lt {w m n : Nat} (hn : n < 10 ^ w) (h : m < n) : lastDigits w m < lastDigits w n := by
  induction w generalizing m n with
  | zero => simp at hn; omega
  | succ w ih =>
    simp only [lastDigits]
    rw [pow_succ] at hn
    rcases Nat.lt_or_ge (m / 10) (n / 10) with hd | hd
    · exact append_lt_of_lt (ih (by omega) hd) (by simp) _ _
    · -- only the last digits differ
      have hq : m / 10 = n / 10 := by omega
      have hr : digit (m % 10) < digit (n % 10) := digit_lt (Nat.mod_lt n (by omega)) (by omega)
      rw [hq]
      exact List.append_left_lt (by simpa [List.cons_lt_cons_iff] using hr)

theorem digits_eq_lastDigits {w n : Nat} (hn : n < 10 ^ w) :
    List.replicate (w - (Nat.digits 10 n).length) (digit 0) ++ (Nat.digits 10 n).reverse.map digit = lastDigits w n := by
  induction w generalizing n with
  | zero =>
    have : n = 0 := by simpa using hn
    simp [this, lastDigits]
  | succ w ih =>
    rw [pow_succ] at hn
    have hd := ih (n := n / 10) (by omega)
    rcases Nat.eq_zero_or_pos n with rfl | hp
    · simp only [Nat.digits_zero, Nat.zero_div, List.length_nil, List.reverse_nil, List.map_nil, List.append_nil,
        Nat.sub_zero] at hd
      simp [lastDigits, ← hd, List.replicate_succ']
    · rw [lastDigits, ← hd, Nat.digits_def' (by omega) hp]
      simp

theorem padded_eq_lastDigits {w n : Nat} (hw : 0 < w) (hn : n < 10 ^ w) : padded w n = lastDigits w n := by
  rcases Nat.eq_zero_or_pos n with rfl | hp
  · obtain ⟨w, rfl⟩ : ∃ v, w = v + 1 := ⟨w - 1, by omega⟩
    rw [← digits_eq_lastDigits hn]
    simp [padded, decimal, List.replicate_succ']
  · rw [← digits_eq_lastDigits hn]
    simp [padded, decimal, Nat.pos_iff_ne_zero.1 hp]

end NgxLuaCpp
