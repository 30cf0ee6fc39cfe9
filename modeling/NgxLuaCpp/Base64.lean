import NgxLuaCpp.Base
import Mathlib.Data.List.DropRight
import Mathlib.Tactic.IntervalCases
/-!
# Base64url

The encoder works in groups of three bytes. The decoder shifts six bits a
character into an accumulator that it never masks, so that the bits of earlier
groups wrap out of it.
-/

namespace NgxLuaCpp

/-! ## The two loops -/

/-- `b64url_table`. -/
def b64urlTable : Bytes := txt "ABCDEFGHIJKLMNOPQRSTUVWXYZabcdefghijklmnopqrstuvwxyz0123456789-_"

/-- `b64url_table[(v >> s) & 0x3f]`. -/
def b64urlChar (v s : UInt32) : UInt8 := b64urlTable.getD ((v >>> s) &&& 0x3f).toNat 0

/-- `base64url_encode_impl`: three bytes at a time, no padding. -/
def base64urlEncodeImpl : Bytes → Bytes
  | a :: b :: c :: rest =>
    let v := a.toUInt32 <<< 16 ||| b.toUInt32 <<< 8 ||| c.toUInt32
    b64urlChar v 18 :: b64urlChar v 12 :: b64urlChar v 6 :: b64urlChar v 0 :: base64urlEncodeImpl rest
  | [a, b] =>
    let v := a.toUInt32 <<< 16 ||| b.toUInt32 <<< 8
    [b64urlChar v 18, b64urlChar v 12, b64urlChar v 6]
  | [a] =>
    let v := a.toUInt32 <<< 16
    [b64urlChar v 18, b64urlChar v 12]
  | [] => []

/-- The value of a character. -/
def b64urlValue (c : UInt8) : Option UInt8 :=
  if 'A'.toUInt8 ≤ c ∧ c ≤ 'Z'.toUInt8 then some (c - 'A'.toUInt8)
  else if 'a'.toUInt8 ≤ c ∧ c ≤ 'z'.toUInt8 then some (c - 'a'.toUInt8 + 26)
  else if '0'.toUInt8 ≤ c ∧ c ≤ '9'.toUInt8 then some (c - '0'.toUInt8 + 52)
  else if c = '-'.toUInt8 then some 62
  else if c = '_'.toUInt8 then some 63
  else none

/-- The loop from a state of the decoder, with the final `ok`. -/
def base64urlDecodeLoop (buf : UInt32) (bits : Nat) (out : Bytes) : Bytes → Bytes × Bool
  | [] => (out, true)
  | c :: rest =>
    if c = '='.toUInt8 then (out, true)
    else match b64urlValue c with
      | none => (out, false)
      | some v =>
        let buf := (buf <<< 6) ||| v.toUInt32
        let bits := bits + 6
        if bits ≥ 8 then
          base64urlDecodeLoop buf (bits - 8) (out ++ [(buf >>> UInt32.ofNat (bits - 8)).toUInt8]) rest
        else base64urlDecodeLoop buf bits out rest

/-- `base64url_decode_impl`, with whether it succeeds. -/
def base64urlDecodeImpl (inp : Bytes) : Bytes × Bool := base64urlDecodeLoop 0 0 [] inp

/-- `base64url_encode`. -/
def base64urlEncode (data : Bytes) : Bytes := base64urlEncodeImpl data

/-- `base64url_decode`: the bytes and an error. -/
def base64urlDecode (data : Bytes) : Bytes × Bytes :=
  match base64urlDecodeImpl data with
  | (_, false) => ([], txt "invalid base64url input")
  | (out, true) => (out, [])

/-! ## One character -/

/-- Letters, digits, `-` and `_`. -/
def UrlSafe (c : UInt8) : Prop :=
  'A'.toUInt8 ≤ c ∧ c ≤ 'Z'.toUInt8 ∨ 'a'.toUInt8 ≤ c ∧ c ≤ 'z'.toUInt8 ∨ '0'.toUInt8 ≤ c ∧ c ≤ '9'.toUInt8 ∨
    c = '-'.toUInt8 ∨ c = '_'.toUInt8

instance decidableUrlSafe (c : UInt8) : Decidable (UrlSafe c) := inferInstanceAs (Decidable (_ ∨ _))

theorem b64urlTable_safe : ∀ n < 64, UrlSafe (b64urlTable.getD n 0) := by decide +kernel

/-- The decoder's chain inverts the encoder's table. -/
theorem b64urlValue_table : ∀ n < 64, b64urlTable.getD n 0 ≠ '='.toUInt8 ∧
    b64urlValue (b64urlTable.getD n 0) = some (UInt8.ofNat n) := by decide +kernel

theorem sextet_lt (v s : UInt32) : ((v >>> s) &&& 0x3f).toNat < 64 := by
  rw [UInt32.toNat_and]
  exact Nat.lt_succ_of_le Nat.and_le_right

theorem b64urlChar_safe (v s : UInt32) : UrlSafe (b64urlChar v s) := b64urlTable_safe _ (sextet_lt v s)

/-- The loop on a character of the encoder. -/
theorem decodeLoop_char (buf v s : UInt32) (bits : Nat) (out rest : Bytes) :
    base64urlDecodeLoop buf bits out (b64urlChar v s :: rest) =
      if bits + 6 ≥ 8 then
        base64urlDecodeLoop ((buf <<< 6) ||| ((v >>> s) &&& 0x3f)) (bits + 6 - 8)
          (out ++ [(((buf <<< 6) ||| ((v >>> s) &&& 0x3f)) >>> UInt32.ofNat (bits + 6 - 8)).toUInt8]) rest
      else base64urlDecodeLoop ((buf <<< 6) ||| ((v >>> s) &&& 0x3f)) (bits + 6) out rest := by
  have hlt := sextet_lt v s
  obtain ⟨hne, hv⟩ := b64urlValue_table _ hlt
  have hval : (UInt8.ofNat ((v >>> s) &&& 0x3f).toNat).toUInt32 = (v >>> s) &&& 0x3f := by
    apply UInt32.toNat_inj.1
    rw [UInt8.toNat_toUInt32, UInt8.toNat_ofNat', Nat.mod_eq_of_lt (by omega)]
  rw [b64urlChar, base64urlDecodeLoop, if_neg hne, hv]
  simp only [hval]

/-! ## A group -/

/-- The encoder's `v`. -/
def group (a b c : UInt8) : UInt32 := a.toUInt32 <<< 16 ||| b.toUInt32 <<< 8 ||| c.toUInt32

/-- The accumulator after the characters of a group. -/
def shifted (buf v : UInt32) : List UInt32 → UInt32
  | [] => buf
  | s :: ss => shifted ((buf <<< 6) ||| ((v >>> s) &&& 0x3f)) v ss

/-- What is in the accumulator before a group does not reach the bytes it gives. -/
theorem shifted_two (buf : UInt32) (a b c : UInt8) : (shifted buf (group a b c) [18, 12] >>> 4).toUInt8 = a := by
  unfold shifted shifted shifted group
  apply UInt8.toBitVec_inj.1
  apply BitVec.eq_of_getLsbD_eq
  intro i hi
  interval_cases i <;> simp [BitVec.getLsbD_eq_getElem]

theorem shifted_three (buf : UInt32) (a b c : UInt8) :
    (shifted buf (group a b c) [18, 12, 6] >>> 2).toUInt8 = b := by
  unfold shifted shifted shifted shifted group
  apply UInt8.toBitVec_inj.1
  apply BitVec.eq_of_getLsbD_eq
  intro i hi
  interval_cases i <;> simp [BitVec.getLsbD_eq_getElem]

theorem shifted_four (buf : UInt32) (a b c : UInt8) :
    (shifted buf (group a b c) [18, 12, 6, 0] >>> 0).toUInt8 = c := by
  unfold shifted shifted shifted shifted shifted group
  apply UInt8.toBitVec_inj.1
  apply BitVec.eq_of_getLsbD_eq
  intro i hi
  interval_cases i <;> simp [BitVec.getLsbD_eq_getElem]

/-- At the start of a group no bits are pending. Its first two characters give
its first byte, and each later one another. -/
theorem decodeLoop_two (buf : UInt32) (out : Bytes) (a b c : UInt8) (rest : Bytes) :
    base64urlDecodeLoop buf 0 out (b64urlChar (group a b c) 18 :: b64urlChar (group a b c) 12 :: rest) =
      base64urlDecodeLoop (shifted buf (group a b c) [18, 12]) 4 (out ++ [a]) rest := by
  rw [decodeLoop_char, if_neg (by decide), decodeLoop_char, if_pos (by decide)]
  congr 3
  exact shifted_two buf a b c

theorem decodeLoop_third (buf : UInt32) (out : Bytes) (a b c : UInt8) (rest : Bytes) :
    base64urlDecodeLoop (shifted buf (group a b c) [18, 12]) 4 out (b64urlChar (group a b c) 6 :: rest) =
      base64urlDecodeLoop (shifted buf (group a b c) [18, 12, 6]) 2 (out ++ [b]) rest := by
  rw [decodeLoop_char, if_pos (by decide)]
  congr 3
  exact shifted_three buf a b c

theorem decodeLoop_fourth (buf : UInt32) (out : Bytes) (a b c : UInt8) (rest : Bytes) :
    base64urlDecodeLoop (shifted buf (group a b c) [18, 12, 6]) 2 out (b64urlChar (group a b c) 0 :: rest) =
      base64urlDecodeLoop (shifted buf (group a b c) [18, 12, 6, 0]) 0 (out ++ [c]) rest := by
  rw [decodeLoop_char, if_pos (by decide)]
  congr 3
  exact shifted_four buf a b c

theorem group_two (a b : UInt8) : group a b 0 = a.toUInt32 <<< 16 ||| b.toUInt32 <<< 8 := UInt32.or_zero

theorem group_one (a : UInt8) : group a 0 0 = a.toUInt32 <<< 16 := by
  rw [group_two]
  exact UInt32.or_zero

/-! ## Every string -/

/-- The decoder, in front of an encoded text, takes all of it and adds its bytes. -/
theorem decodeLoop_encode (x : Bytes) (buf : UInt32) (out : Bytes) :
    base64urlDecodeLoop buf 0 out (base64urlEncodeImpl x) = (out ++ x, true) := by
  induction x using base64urlEncodeImpl.induct generalizing buf out with
  | case1 a b c rest ih =>
    rw [base64urlEncodeImpl]
    change base64urlDecodeLoop buf 0 out (b64urlChar (group a b c) 18 :: b64urlChar (group a b c) 12 ::
      b64urlChar (group a b c) 6 :: b64urlChar (group a b c) 0 :: _) = _
    rw [decodeLoop_two, decodeLoop_third, decodeLoop_fourth, ih]
    simp
  | case2 a b =>
    rw [base64urlEncodeImpl, ← group_two, decodeLoop_two, decodeLoop_third, base64urlDecodeLoop]
    simp
  | case3 a =>
    rw [base64urlEncodeImpl, ← group_one, decodeLoop_two, base64urlDecodeLoop]
  | case4 =>
    rw [base64urlEncodeImpl, base64urlDecodeLoop, List.append_nil]

theorem base64urlDecode_encode (x : Bytes) : base64urlDecode (base64urlEncode x) = (x, []) := by
  rw [base64urlDecode, base64urlDecodeImpl, base64urlEncode, decodeLoop_encode, List.nil_append]

theorem base64urlEncode_injective : Function.Injective base64urlEncode := by
  intro x y h
  have e := congrArg base64urlDecode h
  rw [base64urlDecode_encode, base64urlDecode_encode] at e
  exact congrArg Prod.fst e

theorem length_base64urlEncode (x : Bytes) : (base64urlEncode x).length = (4 * x.length + 2) / 3 := by
  rw [base64urlEncode]
  induction x using base64urlEncodeImpl.induct with
  | case1 a b c rest ih =>
    simp only [base64urlEncodeImpl, List.length_cons, ih]
    omega
  | case2 a b => simp [base64urlEncodeImpl]
  | case3 a => simp [base64urlEncodeImpl]
  | case4 => rfl

theorem base64urlEncode_safe (x : Bytes) : ∀ c ∈ base64urlEncode x, UrlSafe c := by
  rw [base64urlEncode]
  induction x using base64urlEncodeImpl.induct with
  | case1 a b c rest ih =>
    simp only [base64urlEncodeImpl, List.forall_mem_cons]
    exact ⟨b64urlChar_safe _ _, b64urlChar_safe _ _, b64urlChar_safe _ _, b64urlChar_safe _ _, ih⟩
  | case2 a b => simp [base64urlEncodeImpl, b64urlChar_safe]
  | case3 a => simp [base64urlEncodeImpl, b64urlChar_safe]
  | case4 => simp [base64urlEncodeImpl]

/-- Any bytes come back from their encoding. It is safe in a URL and has four
characters for three bytes, rounded up. -/
theorem base64url_round_trip :
    (∀ x, base64urlDecode (base64urlEncode x) = (x, [])) ∧
    (∀ x, (base64urlEncode x).length = (4 * x.length + 2) / 3) ∧
    (∀ x, ∀ c ∈ base64urlEncode x, UrlSafe c) ∧
    Function.Injective base64urlEncode :=
  ⟨base64urlDecode_encode, length_base64urlEncode, base64urlEncode_safe, base64urlEncode_injective⟩

/-! ## What the decoder accepts -/

/-- What is before the first `=`. -/
def unpadded (s : Bytes) : Bytes := s.takeWhile (· ≠ '='.toUInt8)

/-- A character with the low `k` bits of its value cleared. -/
def clearLow (k : UInt8) (c : UInt8) : UInt8 :=
  match b64urlValue c with
  | some v => b64urlTable.getD (v >>> k <<< k).toNat 0
  | none => c

/-- Without a character left alone, and without the bits that no byte is made of. -/
def canonical : Bytes → Bytes
  | w :: x :: y :: z :: rest => w :: x :: y :: z :: canonical rest
  | [w, x, y] => [w, x, clearLow 2 y]
  | [w, x] => [w, clearLow 4 x]
  | _ => []

theorem clearLow_table : ∀ n < 64, clearLow 2 (b64urlTable.getD n 0) = b64urlTable.getD (n / 4 * 4) 0 ∧
    clearLow 4 (b64urlTable.getD n 0) = b64urlTable.getD (n / 16 * 16) 0 := by decide +kernel

theorem b64urlValue_isSome : ∀ c : UInt8, (b64urlValue c).isSome = true ↔ UrlSafe c := by
  intro c
  unfold b64urlValue UrlSafe
  split_ifs <;> simp_all

theorem getD_b64urlValue : ∀ n < 256, ∀ v ∈ b64urlValue (UInt8.ofNat n), v.toNat < 64 ∧
    b64urlTable.getD v.toNat 0 = UInt8.ofNat n := by decide +kernel

/-- The encoder's table has every character the decoder takes. -/
theorem UrlSafe.exists_table {c : UInt8} (h : UrlSafe c) : ∃ n < 64, b64urlTable.getD n 0 = c := by
  obtain ⟨v, hv⟩ := Option.isSome_iff_exists.1 ((b64urlValue_isSome c).2 h)
  have := getD_b64urlValue c.toNat c.toNat_lt v
  rw [UInt8.ofNat_toNat] at this
  exact ⟨v.toNat, this hv⟩

/-- The three bytes of a group as one number. -/
theorem toNat_group (a b c : UInt8) : (group a b c).toNat = a.toNat * 65536 + b.toNat * 256 + c.toNat := by
  have ha := a.toNat_lt
  have hb := b.toNat_lt
  have hc := c.toNat_lt
  have h16 : (a.toUInt32 <<< 16).toNat = a.toNat <<< 16 := by
    rw [UInt32.toNat_shiftLeft, UInt8.toNat_toUInt32, Nat.mod_eq_of_lt]
    · rfl
    · rw [Nat.shiftLeft_eq]
      exact Nat.lt_of_lt_of_le (Nat.mul_lt_mul_of_pos_right ha (by decide)) (by decide)
  have h8 : (b.toUInt32 <<< 8).toNat = b.toNat <<< 8 := by
    rw [UInt32.toNat_shiftLeft, UInt8.toNat_toUInt32, Nat.mod_eq_of_lt]
    · rfl
    · rw [Nat.shiftLeft_eq]
      exact Nat.lt_of_lt_of_le (Nat.mul_lt_mul_of_pos_right hb (by decide)) (by decide)
  -- the bytes do not overlap
  have hab : a.toNat <<< 16 ||| b.toNat <<< 8 = (a.toNat <<< 8 + b.toNat) <<< 8 := by
    rw [← Nat.shiftLeft_add_eq_or_of_lt]
    · simp only [Nat.shiftLeft_eq]
      omega
    · rw [Nat.shiftLeft_eq]
      omega
  unfold group
  rw [UInt32.toNat_or, UInt32.toNat_or, h16, h8, hab, UInt8.toNat_toUInt32, ← Nat.shiftLeft_add_eq_or_of_lt hc]
  simp only [Nat.shiftLeft_eq]
  omega

theorem b64urlChar_eq (v s : UInt32) (hs : s.toNat < 32) :
    b64urlChar v s = b64urlTable.getD (v.toNat / 2 ^ s.toNat % 64) 0 := by
  unfold b64urlChar
  rw [UInt32.toNat_and, UInt32.toNat_shiftRight, Nat.mod_eq_of_lt hs, Nat.shiftRight_eq_div_pow]
  congr 1
  exact Nat.and_two_pow_sub_one_eq_mod _ 6

theorem b64urlChar_group (a b c : UInt8) :
    b64urlChar (group a b c) 18 = b64urlTable.getD ((group a b c).toNat / 262144 % 64) 0 ∧
      b64urlChar (group a b c) 12 = b64urlTable.getD ((group a b c).toNat / 4096 % 64) 0 ∧
      b64urlChar (group a b c) 6 = b64urlTable.getD ((group a b c).toNat / 64 % 64) 0 ∧
      b64urlChar (group a b c) 0 = b64urlTable.getD ((group a b c).toNat % 64) 0 := by
  refine ⟨b64urlChar_eq _ 18 (by decide), b64urlChar_eq _ 12 (by decide), b64urlChar_eq _ 6 (by decide), ?_⟩
  have h := b64urlChar_eq (group a b c) 0 (by decide)
  rwa [show UInt32.toNat 0 = 0 from rfl, Nat.pow_zero, Nat.div_one] at h

/-- Any four characters of the table are a group. -/
theorem exists_group {w x y z : UInt8} (hw : UrlSafe w) (hx : UrlSafe x) (hy : UrlSafe y) (hz : UrlSafe z) :
    ∃ a b c, b64urlChar (group a b c) 18 = w ∧ b64urlChar (group a b c) 12 = x ∧
      b64urlChar (group a b c) 6 = y ∧ b64urlChar (group a b c) 0 = z := by
  obtain ⟨p, hp, rfl⟩ := hw.exists_table
  obtain ⟨q, hq, rfl⟩ := hx.exists_table
  obtain ⟨r, hr, rfl⟩ := hy.exists_table
  obtain ⟨t, ht, rfl⟩ := hz.exists_table
  obtain ⟨a, ha⟩ : ∃ a : UInt8, a.toNat = p * 4 + q / 16 := ⟨.ofNat _, Nat.mod_eq_of_lt (by omega)⟩
  obtain ⟨b, hb⟩ : ∃ b : UInt8, b.toNat = q % 16 * 16 + r / 4 := ⟨.ofNat _, Nat.mod_eq_of_lt (by omega)⟩
  obtain ⟨c, hc⟩ : ∃ c : UInt8, c.toNat = r % 4 * 64 + t := ⟨.ofNat _, Nat.mod_eq_of_lt (by omega)⟩
  obtain ⟨h18, h12, h6, h0⟩ := b64urlChar_group a b c
  have hgroup := toNat_group a b c
  refine ⟨a, b, c, ?_, ?_, ?_, ?_⟩
  · rw [h18]
    congr 1
    omega
  · rw [h12]
    congr 1
    omega
  · rw [h6]
    congr 1
    omega
  · rw [h0]
    congr 1
    omega

theorem encode_two (a b c : UInt8) : base64urlEncodeImpl [a, b] =
    canonical [b64urlChar (group a b c) 18, b64urlChar (group a b c) 12, b64urlChar (group a b c) 6] := by
  have hc := c.toNat_lt
  have hgroup := toNat_group a b c
  have hgroup₂ : (group a b 0).toNat = a.toNat * 65536 + b.toNat * 256 + 0 := toNat_group a b 0
  obtain ⟨h18, h12, h6, -⟩ := b64urlChar_group a b c
  obtain ⟨h18', h12', h6', -⟩ := b64urlChar_group a b 0
  rw [base64urlEncodeImpl, canonical, ← group_two, h18, h18', h12, h12', h6, h6',
    (clearLow_table _ (Nat.mod_lt _ (by decide))).1]
  refine List.cons_eq_cons.2 ⟨congrArg (b64urlTable.getD · 0) ?_, List.cons_eq_cons.2
    ⟨congrArg (b64urlTable.getD · 0) ?_, List.singleton_inj.2 (congrArg (b64urlTable.getD · 0) ?_)⟩⟩
  all_goals omega

theorem encode_one (a b c : UInt8) : base64urlEncodeImpl [a] =
    canonical [b64urlChar (group a b c) 18, b64urlChar (group a b c) 12] := by
  have hb := b.toNat_lt
  have hc := c.toNat_lt
  have hgroup := toNat_group a b c
  have hgroup₁ : (group a 0 0).toNat = a.toNat * 65536 + 0 * 256 + 0 := toNat_group a 0 0
  obtain ⟨h18, h12, -⟩ := b64urlChar_group a b c
  obtain ⟨h18', h12', -⟩ := b64urlChar_group a 0 0
  rw [base64urlEncodeImpl, canonical, ← group_one, h18, h18', h12, h12',
    (clearLow_table _ (Nat.mod_lt _ (by decide))).2]
  refine List.cons_eq_cons.2 ⟨congrArg (b64urlTable.getD · 0) ?_,
    List.singleton_inj.2 (congrArg (b64urlTable.getD · 0) ?_)⟩
  all_goals omega

theorem decodeLoop_unpadded (s : Bytes) (buf : UInt32) (bits : Nat) (out : Bytes) :
    base64urlDecodeLoop buf bits out s = base64urlDecodeLoop buf bits out (unpadded s) := by
  induction s generalizing buf bits out with
  | nil => rfl
  | cons c s ih =>
    by_cases hc : c = '='.toUInt8
    · simp [unpadded, base64urlDecodeLoop, hc]
    · simp only [unpadded, List.takeWhile_cons, hc, ne_eq, not_false_eq_true, decide_true, if_true,
        base64urlDecodeLoop, if_false]
      cases b64urlValue c with
      | none => rfl
      | some v =>
        dsimp only
        split
        all_goals exact ih _ _ _

/-- The decoder succeeds on the characters of the table, up to the padding. -/
theorem decodeLoop_ok (s : Bytes) (buf : UInt32) (bits : Nat) (out : Bytes) :
    (base64urlDecodeLoop buf bits out s).2 = true ↔ ∀ c ∈ unpadded s, UrlSafe c := by
  induction s generalizing buf bits out with
  | nil => simp [unpadded, base64urlDecodeLoop]
  | cons c s ih =>
    by_cases hc : c = '='.toUInt8
    · simp [unpadded, base64urlDecodeLoop, hc]
    · have hcons : unpadded (c :: s) = c :: unpadded s := by simp [unpadded, hc]
      have hsafe := b64urlValue_isSome c
      rw [hcons, List.forall_mem_cons, base64urlDecodeLoop, if_neg hc]
      cases hv : b64urlValue c with
      | none => simp_all
      | some v =>
        rw [hv] at hsafe
        dsimp only
        split
        all_goals
          rw [ih]
          simp_all

/-- The bytes are those of the canonical encoding. -/
theorem decodeLoop_canonical (s : Bytes) (hs : ∀ c ∈ s, UrlSafe c) (buf : UInt32) (out : Bytes) :
    ∃ x, base64urlDecodeLoop buf 0 out s = (out ++ x, true) ∧ base64urlEncodeImpl x = canonical s := by
  induction s using canonical.induct generalizing buf out with
  | case1 w x y z rest ih =>
    simp only [List.forall_mem_cons] at hs
    obtain ⟨hw, hx, hy, hz, hrest⟩ := hs
    obtain ⟨a, b, c, rfl, rfl, rfl, rfl⟩ := exists_group hw hx hy hz
    obtain ⟨bytes, hdecode, hencode⟩ := ih hrest (shifted buf (group a b c) [18, 12, 6, 0]) (out ++ [a] ++ [b] ++ [c])
    refine ⟨a :: b :: c :: bytes, ?_, ?_⟩
    · rw [decodeLoop_two, decodeLoop_third, decodeLoop_fourth, hdecode]
      simp
    · rw [base64urlEncodeImpl, hencode]
      rfl
  | case2 w x y =>
    simp only [List.forall_mem_cons] at hs
    obtain ⟨hw, hx, hy, -⟩ := hs
    obtain ⟨a, b, c, rfl, rfl, rfl, -⟩ := exists_group hw hx hy hy
    refine ⟨[a, b], ?_, ?_⟩
    · rw [decodeLoop_two, decodeLoop_third, base64urlDecodeLoop]
      simp
    · exact encode_two a b c
  | case3 w x =>
    simp only [List.forall_mem_cons] at hs
    obtain ⟨hw, hx, -⟩ := hs
    obtain ⟨a, b, c, rfl, rfl, -⟩ := exists_group hw hx hx hx
    refine ⟨[a], ?_, ?_⟩
    · rw [decodeLoop_two, base64urlDecodeLoop]
    · exact encode_one a b c
  | case4 s h4 h3 h2 =>
    -- no byte is complete
    have hs' : s = [] ∨ ∃ w, s = [w] := by
      match s with
      | [] => exact .inl rfl
      | [w] => exact .inr ⟨w, rfl⟩
      | [w, x] => exact absurd rfl (h2 w x)
      | [w, x, y] => exact absurd rfl (h3 w x y)
      | w :: x :: y :: z :: rest => exact absurd rfl (h4 w x y z rest)
    rcases hs' with rfl | ⟨w, rfl⟩
    · exact ⟨[], by rw [base64urlDecodeLoop, List.append_nil], rfl⟩
    · refine ⟨[], ?_, rfl⟩
      obtain ⟨n, hn, rfl⟩ := (hs w (List.mem_singleton_self w)).exists_table
      obtain ⟨hne, hv⟩ := b64urlValue_table n hn
      rw [base64urlDecodeLoop, if_neg hne, hv, List.append_nil]
      rfl

theorem unpadded_safe_iff (s : Bytes) : (base64urlDecode s).2 = [] ↔ ∀ c ∈ unpadded s, UrlSafe c := by
  rw [← decodeLoop_ok s 0 0 [], base64urlDecode, base64urlDecodeImpl]
  rcases base64urlDecodeLoop 0 0 [] s with ⟨out, _ | _⟩
  · have hne : txt "invalid base64url input" ≠ [] := by decide
    simp [hne]
  · simp

theorem encode_decode (s : Bytes) (h : ∀ c ∈ unpadded s, UrlSafe c) :
    base64urlEncode (base64urlDecode s).1 = canonical (unpadded s) := by
  obtain ⟨x, hdecode, hencode⟩ := decodeLoop_canonical (unpadded s) h 0 []
  rw [base64urlDecode, base64urlDecodeImpl, decodeLoop_unpadded, hdecode]
  exact hencode

/-- A string is taken if the characters before the first `=` are in the table. Its bytes have the
canonical encoding, and two strings have the same bytes if they have the same. -/
theorem base64urlDecode_canonical (s : Bytes) :
    ((base64urlDecode s).2 = [] ↔ ∀ c ∈ unpadded s, UrlSafe c) ∧
    ((base64urlDecode s).2 = [] → base64urlEncode (base64urlDecode s).1 = canonical (unpadded s)) ∧
    ∀ t, (base64urlDecode s).2 = [] → (base64urlDecode t).2 = [] →
      ((base64urlDecode s).1 = (base64urlDecode t).1 ↔ canonical (unpadded s) = canonical (unpadded t)) := by
  refine ⟨unpadded_safe_iff s, fun h => encode_decode s ((unpadded_safe_iff s).1 h), fun t hs ht => ?_⟩
  rw [← encode_decode s ((unpadded_safe_iff s).1 hs), ← encode_decode t ((unpadded_safe_iff t).1 ht),
    base64urlEncode_injective.eq_iff]

/-- `AB` is not the encoding of its byte. Neither is a letter alone that of no bytes, nor
what comes after a `=` looked at. -/
theorem base64urlDecode_not_canonical : ¬ ∀ s : Bytes, (base64urlDecode s).2 = [] →
    base64urlEncode (base64urlDecode s).1 = s.rdropWhile (· = '='.toUInt8) := by
  intro h
  have := h (txt "AB") (by decide)
  revert this
  decide

end NgxLuaCpp
