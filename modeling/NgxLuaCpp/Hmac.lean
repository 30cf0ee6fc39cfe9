import NgxLuaCpp.Sha256
/-!
# HMAC-SHA256 as the code computes it

Digests come back from the context in hex and are decoded before the next
pass. The pads are arrays of 64 bytes; a store outside them is `none`.
-/

namespace NgxLuaCpp

/-! ## Decoding hex -/

/-- The `nib` lambda. -/
def nib (c : UInt8) : UInt8 := if 48 ≤ c ∧ c ≤ 57 then c - 48 else (c ||| 0x20) - 97 + 10

/-- The decoding loop, which the code writes out three times. -/
def decodeHex : Bytes → Bytes
  | hi :: lo :: rest => ((nib hi <<< 4) ||| nib lo) :: decodeHex rest
  | _ => []

theorem nib_hexDigit : ∀ n < 16, nib (Sha2.hexDigit n) = UInt8.ofNat n := by decide

theorem nib_byte (b : UInt8) :
    (nib (Sha2.hexDigit (b.toNat / 16)) <<< 4) ||| nib (Sha2.hexDigit (b.toNat % 16)) = b := by
  have hb := b.toNat_lt
  have hlo : b.toNat % 16 < 2 ^ 4 := by omega
  rw [nib_hexDigit _ (by omega), nib_hexDigit _ (by omega)]
  apply UInt8.toNat_inj.1
  simp only [UInt8.toNat_or, UInt8.toNat_shiftLeft, UInt8.toNat_ofNat', UInt8.reduceToNat, Nat.reduceMod]
  rw [Nat.mod_eq_of_lt (show b.toNat / 16 < 2 ^ 8 by omega), Nat.mod_eq_of_lt (show b.toNat % 16 < 2 ^ 8 by omega),
    Nat.mod_eq_of_lt (by rw [Nat.shiftLeft_eq]; omega), ← Nat.shiftLeft_add_eq_or_of_lt hlo, Nat.shiftLeft_eq]
  omega

theorem decodeHex_hex (l : Bytes) : decodeHex (Sha2.hex l) = l := by
  induction l with
  | nil => rfl
  | cons b l ih =>
    change (_ ||| _) :: decodeHex (Sha2.hex l) = b :: l
    rw [ih, nib_byte]

/-! ## The pads -/

/-- `arr[i] ^= x`. -/
def storeXor (arr : Bytes) (i : Nat) (x : UInt8) : Option Bytes :=
  if h : i < arr.length then some (arr.set i (arr[i] ^^^ x)) else none

/-- One pass of the loop over the key. -/
def padStep (k : Bytes) (pads : Bytes × Bytes) (i : Nat) : Option (Bytes × Bytes) := do
  let ipad ← storeXor pads.1 i (k.getD i 0)
  let opad ← storeXor pads.2 i (k.getD i 0)
  return (ipad, opad)

/-- `ipad` and `opad` for a key. -/
def hmacPads (k : Bytes) : Option (Bytes × Bytes) :=
  (List.range k.length).foldlM (padStep k) (List.replicate 64 0x36, List.replicate 64 0x5c)

/-- `hmac_sha256_raw_impl`, with the key hashed first if it is longer than a block. -/
def hmacSha256RawImpl (key data : Bytes) : Option Bytes := do
  let k := if 64 < key.length then decodeHex (sha256HexImpl key) else key
  let (ipad, opad) ← hmacPads k
  let inner := sha256Update (sha256Update sha256Init ipad) data
  let innerRaw := decodeHex (sha256FinalHex inner)
  let outer := sha256Update (sha256Update sha256Init opad) innerRaw
  return decodeHex (sha256FinalHex outer)

/-- `hmac_sha256_hex_impl`, the same in hexadecimal digits. -/
def hmacSha256HexImpl (key data : Bytes) : Option Bytes := do
  let raw ← hmacSha256RawImpl key data
  return raw.flatMap fun (c : UInt8) => [hexdigits.getD (c >>> 4).toNat 0, hexdigits.getD (c &&& 0xf).toNat 0]

/-- `ngx_lua_cpp_t::hmac_sha256_raw`. -/
def hmacSha256Raw (key data : Bytes) : Option Bytes := hmacSha256RawImpl key data

/-- `ngx_lua_cpp_t::hmac_sha256`. -/
def hmacSha256 (key data : Bytes) : Option Bytes := hmacSha256HexImpl key data

/-- A pad holding byte `x`, with the first `n` bytes of the key in it. -/
def keyed (x : UInt8) (k : Bytes) (n : Nat) : Bytes := (k.take n).map (· ^^^ x) ++ List.replicate (64 - n) x

/-- One pass of the loop puts the next byte of the key into the pad. -/
theorem storeXor_keyed (x : UInt8) {k : Bytes} {n : Nat} (hn : n < k.length) (hk : k.length ≤ 64) :
    storeXor (keyed x k n) n (k.getD n 0) = some (keyed x k (n + 1)) := by
  have hl : ((k.take n).map (· ^^^ x)).length = n := by
    rw [List.length_map, List.length_take]
    omega
  have hr : List.replicate (64 - n) x = x :: List.replicate (64 - (n + 1)) x := by
    rw [← List.replicate_succ]
    congr 1
    omega
  have hlt : n < (keyed x k n).length := by
    rw [keyed, List.length_append, hl, List.length_replicate]
    omega
  have hget : (keyed x k n)[n] = x := by
    simp only [keyed, hr]
    rw [List.getElem_append_right (by omega)]
    simp only [hl, Nat.sub_self, List.getElem_cons_zero]
  rw [storeXor, dif_pos hlt, hget, List.getD_eq_getElem _ 0 hn]
  congr 1
  rw [keyed, hr, List.set_append_right _ _ (by omega), hl, Nat.sub_self, List.set_cons_zero, keyed,
    List.take_succ_eq_append_getElem hn, List.map_append, List.append_assoc, UInt8.xor_comm]
  rfl

/-- No store of the loop falls outside the pads, and each key byte lands once. -/
theorem foldlM_padStep {k : Bytes} (hk : k.length ≤ 64) :
    ∀ n ≤ k.length, (List.range n).foldlM (padStep k) (keyed 0x36 k 0, keyed 0x5c k 0)
      = some (keyed 0x36 k n, keyed 0x5c k n) := by
  intro n hn
  induction n with
  | zero => rfl
  | succ n ih =>
    rw [List.range_succ, List.foldlM_append, ih (by omega)]
    change (padStep k _ n >>= pure) = _
    simp only [padStep, storeXor_keyed _ hn hk]
    rfl

theorem hmacPads_eq {k : Bytes} (hk : k.length ≤ 64) :
    hmacPads k = some ((k ++ List.replicate (64 - k.length) 0).map (· ^^^ 0x36),
      (k ++ List.replicate (64 - k.length) 0).map (· ^^^ 0x5c)) := by
  have h := foldlM_padStep hk k.length le_rfl
  simp only [keyed, List.take_length] at h
  rw [List.map_append, List.map_append, List.map_replicate, List.map_replicate]
  exact h

/-! ## The two passes -/

theorem decodeHex_final {ctx : Sha256Ctx} {m : Bytes} (h : ctx.Holds m) :
    decodeHex (sha256FinalHex ctx) = Sha2.sha256 m := by
  rw [sha256FinalHex_eq h, decodeHex_hex]

/-- A pass of HMAC: the digest of a pad followed by a message. -/
theorem pass_eq (pad data : Bytes) :
    decodeHex (sha256FinalHex (sha256Update (sha256Update sha256Init pad) data)) = Sha2.sha256 (pad ++ data) :=
  decodeHex_final (sha256Update_holds (sha256Update_holds sha256Init_holds pad) data)

theorem hmacSha256RawImpl_eq (key data : Bytes) :
    hmacSha256RawImpl key data = some (Sha2.hmac Sha2.sha256 64 key data) := by
  have hk : (if 64 < key.length then decodeHex (sha256HexImpl key) else key)
      = (if 64 < key.length then Sha2.sha256 key else key) := by
    congr 1
    exact decodeHex_final (sha256Update_holds sha256Init_holds key)
  have hlen : (if 64 < key.length then Sha2.sha256 key else key).length ≤ 64 := by
    split
    · rw [Sha2.length_sha256]
      omega
    · omega
  unfold hmacSha256RawImpl
  simp only [hk, hmacPads_eq hlen, Option.bind_eq_bind, Option.bind_some, pass_eq]
  rfl

theorem hexByte_eq (c : UInt8) :
    [hexdigits.getD (c >>> 4).toNat 0, hexdigits.getD (c &&& 0xf).toNat 0]
      = [Sha2.hexDigit (c.toNat / 16), Sha2.hexDigit (c.toNat % 16)] := by
  have hc := c.toNat_lt
  have hhi : (c >>> 4).toNat = c.toNat / 16 := by
    rw [UInt8.toNat_shiftRight, Nat.shiftRight_eq_div_pow]
    rfl
  have hlo : (c &&& 0xf).toNat = c.toNat % 16 := by
    rw [UInt8.toNat_and]
    exact Nat.and_two_pow_sub_one_eq_mod _ 4
  rw [hhi, hlo, hexdigits_getD _ (by omega), hexdigits_getD _ (by omega)]

/-- Both forms return the HMAC of every key and message. -/
theorem hmac_correct (key data : Bytes) :
    hmacSha256Raw key data = some (Sha2.hmac Sha2.sha256 64 key data) ∧
      (Sha2.hmac Sha2.sha256 64 key data).length = 32 ∧
      hmacSha256 key data = some (Sha2.hex (Sha2.hmac Sha2.sha256 64 key data)) := by
  refine ⟨hmacSha256RawImpl_eq key data, Sha2.length_sha256 _, ?_⟩
  rw [hmacSha256, hmacSha256HexImpl, hmacSha256RawImpl_eq, Sha2.hex]
  simp only [hexByte_eq]
  rfl

end NgxLuaCpp
