import NgxLuaCpp.Base
import NgxLuaCpp.Lib.Sha2
import Mathlib.Data.List.GetD
/-!
# SHA-256 as the code computes it

A context takes a message in pieces of any size and compresses its 64-byte
buffer whenever it fills. We show that the digest is that of the whole message,
however it was cut.
-/

namespace NgxLuaCpp
open BlockStream
open Sha2 (Words)

/-! ## Compressing a block -/

/-- `sha256_k` -/
def sha256K : List UInt32 := [
  0x428a2f98, 0x71374491, 0xb5c0fbcf, 0xe9b5dba5, 0x3956c25b, 0x59f111f1, 0x923f82a4, 0xab1c5ed5,
  0xd807aa98, 0x12835b01, 0x243185be, 0x550c7dc3, 0x72be5d74, 0x80deb1fe, 0x9bdc06a7, 0xc19bf174,
  0xe49b69c1, 0xefbe4786, 0x0fc19dc6, 0x240ca1cc, 0x2de92c6f, 0x4a7484aa, 0x5cb0a9dc, 0x76f988da,
  0x983e5152, 0xa831c66d, 0xb00327c8, 0xbf597fc7, 0xc6e00bf3, 0xd5a79147, 0x06ca6351, 0x14292967,
  0x27b70a85, 0x2e1b2138, 0x4d2c6dfc, 0x53380d13, 0x650a7354, 0x766a0abb, 0x81c2c92e, 0x92722c85,
  0xa2bfe8a1, 0xa81a664b, 0xc24b8b70, 0xc76c51a3, 0xd192e819, 0xd6990624, 0xf40e3585, 0x106aa070,
  0x19a4c116, 0x1e376c08, 0x2748774c, 0x34b0bcb5, 0x391c0cb3, 0x4ed8aa4a, 0x5b9cca4f, 0x682e6ff3,
  0x748f82ee, 0x78a5636f, 0x84c87814, 0x8cc70208, 0x90befffa, 0xa4506ceb, 0xbef9a3f7, 0xc67178f2]

/-- `sha256_rotr` -/
def sha256Rotr (x n : UInt32) : UInt32 := (x >>> n) ||| (x <<< (32 - n))

/-- The first loop over `w`: the block's sixteen words. -/
def loadWords (block : Bytes) : List UInt32 :=
  (List.range 16).map fun i =>
    ((block.getD (i * 4) 0).toUInt32 <<< 24) ||| ((block.getD (i * 4 + 1) 0).toUInt32 <<< 16) |||
      ((block.getD (i * 4 + 2) 0).toUInt32 <<< 8) ||| (block.getD (i * 4 + 3) 0).toUInt32

/-- What the second loop stores at `w[i]`. -/
def nextWord (w : List UInt32) (i : Nat) : UInt32 :=
  let w15 := w.getD (i - 15) 0
  let w2 := w.getD (i - 2) 0
  let s0 := sha256Rotr w15 7 ^^^ sha256Rotr w15 18 ^^^ (w15 >>> 3)
  let s1 := sha256Rotr w2 17 ^^^ sha256Rotr w2 19 ^^^ (w2 >>> 10)
  w.getD (i - 16) 0 + s0 + w.getD (i - 7) 0 + s1

/-- The second loop; `w` is filled in order, so each store appends. -/
def extendWords (w : List UInt32) (n : Nat) : List UInt32 :=
  (List.range' 16 n).foldl (fun w i => w ++ [nextWord w i]) w

/-- One pass of the third loop. -/
def sha256Round (w : List UInt32) (v : Words) (i : Nat) : Words :=
  let s1 := sha256Rotr v.e 6 ^^^ sha256Rotr v.e 11 ^^^ sha256Rotr v.e 25
  let ch := (v.e &&& v.f) ^^^ (~~~v.e &&& v.g)
  let temp1 := v.h + s1 + ch + sha256K.getD i 0 + w.getD i 0
  let s0 := sha256Rotr v.a 2 ^^^ sha256Rotr v.a 13 ^^^ sha256Rotr v.a 22
  let maj := (v.a &&& v.b) ^^^ (v.a &&& v.c) ^^^ (v.b &&& v.c)
  let temp2 := s0 + maj
  { h := v.g, g := v.f, f := v.e, e := v.d + temp1, d := v.c, c := v.b, b := v.a, a := temp1 + temp2 }

/-- `sha256_transform`, on the context's state. -/
def sha256Transform (state : Words) (block : Bytes) : Words :=
  let w := extendWords (loadWords block) 48
  let v := (List.range 64).foldl (sha256Round w) state
  { a := state.a + v.a, b := state.b + v.b, c := state.c + v.c, d := state.d + v.d,
    e := state.e + v.e, f := state.f + v.f, g := state.g + v.g, h := state.h + v.h }

/-! ## The context -/

/-- `sha256_ctx_t` -/
structure Sha256Ctx where
  state : Words
  bitLen : UInt64
  buffer : Bytes
  bufferLen : Nat
  buffer_length : buffer.length = 64
  bufferLen_lt : bufferLen < 64

/-- `sha256_init` -/
def sha256Init : Sha256Ctx where
  state := { a := 0x6a09e667, b := 0xbb67ae85, c := 0x3c6ef372, d := 0xa54ff53a,
             e := 0x510e527f, f := 0x9b05688c, g := 0x1f83d9ab, h := 0x5be0cd19 }
  bitLen := 0
  buffer := List.replicate 64 0
  bufferLen := 0
  buffer_length := by simp
  bufferLen_lt := by omega

namespace Sha256Ctx

/-- How much of `len` bytes the buffer has room for. -/
def room (ctx : Sha256Ctx) (len : Nat) : Nat := min len (64 - ctx.bufferLen)

/-- The `memcpy` of a pass: the buffer with the next bytes of `data` in it. -/
def filled (ctx : Sha256Ctx) (data : Bytes) : Bytes :=
  ctx.buffer.take ctx.bufferLen ++ data.take (ctx.room data.length)
    ++ ctx.buffer.drop (ctx.bufferLen + ctx.room data.length)

theorem filled_length (ctx : Sha256Ctx) (data : Bytes) : (ctx.filled data).length = 64 := by
  have h := ctx.buffer_length
  have h' := ctx.bufferLen_lt
  simp only [filled, room, List.length_append, List.length_take, List.length_drop]
  omega

/-- One pass of the loop over the input. -/
def copyIn (ctx : Sha256Ctx) (data : Bytes) : Sha256Ctx :=
  if h : ctx.bufferLen + ctx.room data.length = 64 then
    { ctx with state := sha256Transform ctx.state (ctx.filled data), buffer := ctx.filled data, bufferLen := 0
               buffer_length := ctx.filled_length data, bufferLen_lt := by omega }
  else
    { ctx with buffer := ctx.filled data, bufferLen := ctx.bufferLen + ctx.room data.length
               buffer_length := ctx.filled_length data
               bufferLen_lt := by have := ctx.bufferLen_lt; rw [room] at h ⊢; omega }

end Sha256Ctx

/-- The loop over the input, which `sha256_update` and `sha256_final_hex` share. -/
def sha256Absorb (ctx : Sha256Ctx) (data : Bytes) : Sha256Ctx :=
  if data = [] then ctx
  else sha256Absorb (ctx.copyIn data) (data.drop (ctx.room data.length))
termination_by data.length
decreasing_by
  have h := ctx.bufferLen_lt
  have h' := List.length_pos_iff.2 ‹data ≠ []›
  rw [List.length_drop, Sha256Ctx.room]
  omega

/-- `sha256_update`, which counts the bits and takes the data block by block. -/
def sha256Update (ctx : Sha256Ctx) (data : Bytes) : Sha256Ctx :=
  sha256Absorb { ctx with bitLen := ctx.bitLen + UInt64.ofNat data.length * 8 } data

/-- `0x80`, zeros, and the bit length, without touching `bit_len`. -/
def finalPad (ctx : Sha256Ctx) : Bytes :=
  let zeros := if ctx.bufferLen < 56 then 56 - ctx.bufferLen - 1 else 120 - ctx.bufferLen - 1
  let tail := ([7, 6, 5, 4, 3, 2, 1, 0] : List UInt64).map fun i => (ctx.bitLen >>> (i * 8)).toUInt8
  0x80 :: List.replicate zeros 0 ++ tail

def hexdigits : Bytes := txt "0123456789abcdef"

/-- A state word's eight digits. -/
def wordHex (v : UInt32) : Bytes :=
  ([28, 24, 20, 16, 12, 8, 4, 0] : List UInt32).map fun shift => hexdigits.getD ((v >>> shift) &&& 0xf).toNat 0

/-- `sha256_final_hex`: the padding, and the state in digits. -/
def sha256FinalHex (ctx : Sha256Ctx) : Bytes :=
  (sha256Absorb ctx (finalPad ctx)).state.toList.flatMap wordHex

/-- `sha256_hex_impl` -/
def sha256HexImpl (data : Bytes) : Bytes := sha256FinalHex (sha256Update sha256Init data)

/-- `ngx_lua_cpp_t::sha256`. -/
def sha256 (data : Bytes) : Bytes := sha256HexImpl data

/-! ## Hashing a file -/

/-- An opened file, as its `fread` calls return it: blocks of up to 64 KiB,
then nothing. -/
structure ReadFile where
  blocks : List Bytes
  block_pos : ∀ b ∈ blocks, b ≠ []
  block_le : ∀ b ∈ blocks, b.length ≤ 65536

/-- The `fread` loop, which also counts the bytes. -/
def freadLoop (ctx : Sha256Ctx) (size : Nat) : List Bytes → Sha256Ctx × Nat
  | [] => (ctx, size)
  | b :: rest => if 0 < b.length then freadLoop (sha256Update ctx b) (size + b.length) rest else (ctx, size)

/-- `file_sha256`: the digest and the size, for the file its path opens. -/
def fileSha256 : Option ReadFile → Bytes × Nat
  | none => (txt "file not found", 0)
  | some f =>
    let (ctx, size) := freadLoop sha256Init 0 f.blocks
    (sha256FinalHex ctx, size)

/-! ## The transform is the compression function -/

theorem sha256K_eq : sha256K = Sha2.constants := by
  rw [Sha2.constants, Sha2.primes_eq]
  decide +kernel

theorem sha256Init_state : sha256Init.state = Sha2.initial := by decide +kernel

theorem take_drop_four (l : Bytes) {n : Nat} (h : n + 4 ≤ l.length) :
    (l.drop n).take 4 = [l.getD n 0, l.getD (n + 1) 0, l.getD (n + 2) 0, l.getD (n + 3) 0] := by
  have e (k : Nat) (hk : k < l.length) : l.getD k 0 = l[k] := List.getD_eq_getElem l 0 hk
  rw [List.drop_eq_getElem_cons (show n < l.length by omega),
    List.drop_eq_getElem_cons (show n + 1 < l.length by omega),
    List.drop_eq_getElem_cons (show n + 2 < l.length by omega),
    List.drop_eq_getElem_cons (show n + 3 < l.length by omega), e, e, e, e]
  rfl

/-- Four bytes shifted into place make the number they spell. -/
theorem shifts_eq_number (a b c d : UInt8) :
    (a.toUInt32 <<< 24) ||| (b.toUInt32 <<< 16) ||| (c.toUInt32 <<< 8) ||| d.toUInt32
      = ((((0 * 256 + a.toUInt32) * 256 + b.toUInt32) * 256 + c.toUInt32) * 256 + d.toUInt32 : UInt32) := by
  have ha := a.toNat_lt
  have hb := b.toNat_lt
  have hc := c.toNat_lt
  have hd := d.toNat_lt
  have h₁ : c.toNat <<< 8 + d.toNat < 2 ^ 16 := by rw [Nat.shiftLeft_eq]; omega
  have h₂ : b.toNat <<< 16 + (c.toNat <<< 8 + d.toNat) < 2 ^ 24 := by
    rw [Nat.shiftLeft_eq b.toNat]
    omega
  apply UInt32.toNat_inj.1
  simp only [UInt32.toNat_or, UInt32.toNat_shiftLeft, UInt32.toNat_add, UInt32.toNat_mul, UInt8.toNat_toUInt32,
    UInt32.toNat_ofNat, Nat.reduceMod, Nat.reducePow, Nat.or_assoc]
  rw [Nat.mod_eq_of_lt (show a.toNat <<< 24 < 4294967296 by rw [Nat.shiftLeft_eq]; omega),
    Nat.mod_eq_of_lt (show b.toNat <<< 16 < 4294967296 by rw [Nat.shiftLeft_eq]; omega),
    Nat.mod_eq_of_lt (show c.toNat <<< 8 < 4294967296 by rw [Nat.shiftLeft_eq]; omega),
    ← Nat.shiftLeft_add_eq_or_of_lt hd, ← Nat.shiftLeft_add_eq_or_of_lt h₁, ← Nat.shiftLeft_add_eq_or_of_lt h₂]
  simp only [Nat.shiftLeft_eq]
  omega

theorem loadWords_getD {block : Bytes} (hb : block.length = 64) {t : Nat} (ht : t < 16) :
    (loadWords block).getD t 0 = Sha2.blockWord block t := by
  rw [loadWords, List.getD_eq_getElem _ 0 (by simpa using ht), List.getElem_map, List.getElem_range, Nat.mul_comm t 4,
    shifts_eq_number, Sha2.blockWord, take_drop_four block (by omega)]
  rfl

theorem extendWords_succ (w : List UInt32) (n : Nat) :
    extendWords w (n + 1) = extendWords w n ++ [nextWord (extendWords w n) (16 + n)] := by
  rw [extendWords, List.range'_1_concat, List.foldl_append]
  rfl

theorem extendWords_length (w : List UInt32) (n : Nat) : (extendWords w n).length = w.length + n := by
  induction n with
  | zero => rfl
  | succ n ih => rw [extendWords_succ, List.length_append, ih]; rfl

theorem nextWord_eq (w : List UInt32) (i : Nat) :
    nextWord w i = Sha2.smallSigma1 (w.getD (i - 2) 0) + w.getD (i - 7) 0
      + Sha2.smallSigma0 (w.getD (i - 15) 0) + w.getD (i - 16) 0 := by
  have h : nextWord w i = w.getD (i - 16) 0 + Sha2.smallSigma0 (w.getD (i - 15) 0) + w.getD (i - 7) 0
      + Sha2.smallSigma1 (w.getD (i - 2) 0) := rfl
  rw [h]
  ac_rfl

/-- The array `w` holds the message schedule as far as it is filled. -/
theorem extendWords_getD {block : Bytes} (hb : block.length = 64) (n : Nat) :
    ∀ t < 16 + n, (extendWords (loadWords block) n).getD t 0 = Sha2.schedule block t := by
  induction n with
  | zero =>
    intro t ht
    rw [Sha2.schedule, if_pos (by omega)]
    exact loadWords_getD hb ht
  | succ n ih =>
    have hlen : (extendWords (loadWords block) n).length = 16 + n := by rw [extendWords_length]; simp [loadWords]
    intro t ht
    rw [extendWords_succ]
    rcases Nat.lt_or_ge t (16 + n) with h | h
    · rw [List.getD_append _ _ _ _ (by omega)]
      exact ih t h
    · obtain rfl : t = 16 + n := by omega
      rw [List.getD_append_right _ _ _ _ (by omega), hlen, Nat.sub_self, List.getD_cons_zero, nextWord_eq,
        ih _ (by omega), ih _ (by omega), ih _ (by omega), ih _ (by omega), Sha2.schedule.eq_def block (16 + n),
        if_neg (by omega)]

theorem sha256Transform_eq (state : Words) {block : Bytes} (hb : block.length = 64) :
    sha256Transform state block = Sha2.compress state block := by
  have h : (List.range 64).foldl (sha256Round (extendWords (loadWords block) 48)) state
      = (List.range 64).foldl (fun v t => Sha2.round v (Sha2.constants.getD t 0) (Sha2.schedule block t)) state := by
    apply List.foldl_ext
    intro v t ht
    rw [sha256Round, extendWords_getD hb 48 t (List.mem_range.1 ht), sha256K_eq]
    rfl
  simp only [sha256Transform, Sha2.compress, h]
  generalize List.foldl _ state _ = v
  simp only [Words.add, UInt32.add_comm]

/-! ## What the context holds -/

namespace Sha256Ctx

/-- The bytes not compressed yet. -/
def pending (ctx : Sha256Ctx) : Bytes := ctx.buffer.take ctx.bufferLen

theorem pending_length (ctx : Sha256Ctx) : ctx.pending.length = ctx.bufferLen := by
  have h := ctx.buffer_length
  have h' := ctx.bufferLen_lt
  rw [pending, List.length_take]
  omega

/-- The hash value once `data` follows what the context holds. -/
def after (ctx : Sha256Ctx) (data : Bytes) : Words := (blocks 64 (ctx.pending ++ data)).foldl Sha2.compress ctx.state

/-- The context has taken the message `m`. -/
structure Holds (ctx : Sha256Ctx) (m : Bytes) : Prop where
  state : ctx.state = (blocks 64 m).foldl Sha2.compress Sha2.initial
  pending : ctx.pending = leftover 64 m
  bitLen : ctx.bitLen = UInt64.ofNat (8 * m.length)

theorem filled_of_room {ctx : Sha256Ctx} {data : Bytes} (h : ctx.bufferLen + ctx.room data.length = 64) :
    ctx.filled data = ctx.pending ++ data.take (ctx.room data.length) := by
  rw [filled, h, List.drop_of_length_le (by rw [ctx.buffer_length]), List.append_nil, pending]

/-- A pass moves bytes from the input to the context and loses none. -/
theorem copyIn_step (ctx : Sha256Ctx) (data : Bytes) :
    (ctx.copyIn data).after (data.drop (ctx.room data.length)) = ctx.after data ∧
      leftover 64 ((ctx.copyIn data).pending ++ data.drop (ctx.room data.length)) = leftover 64 (ctx.pending ++ data) ∧
      (ctx.copyIn data).bitLen = ctx.bitLen := by
  by_cases h : ctx.bufferLen + ctx.room data.length = 64
  · -- the buffer is the next block of the message
    have e : ctx.pending ++ data = ctx.filled data ++ data.drop (ctx.room data.length) := by
      rw [filled_of_room h, List.append_assoc, List.take_append_drop]
    have hb := ctx.filled_length data
    rw [after, after, e, blocks_block (by omega) hb, leftover_block (by omega) hb, List.foldl_cons,
      ← sha256Transform_eq ctx.state hb, copyIn, dif_pos h]
    exact ⟨rfl, rfl, rfl⟩
  · -- the input ends before the buffer is full
    have hr : ctx.room data.length = data.length := by
      have := ctx.bufferLen_lt
      rw [room] at h ⊢
      omega
    have hp : (ctx.copyIn data).pending = ctx.pending ++ data := by
      have hl : (ctx.pending ++ data).length = ctx.bufferLen + data.length := by
        rw [List.length_append, ctx.pending_length]
      rw [copyIn, dif_neg h]
      change (ctx.filled data).take (ctx.bufferLen + ctx.room data.length) = _
      rw [filled, hr, List.take_length]
      exact List.take_left' hl
    have hs : (ctx.copyIn data).state = ctx.state := by rw [copyIn, dif_neg h]
    rw [after, after, hp, hs, hr, List.drop_length, List.append_nil]
    exact ⟨rfl, rfl, by rw [copyIn, dif_neg h]⟩

end Sha256Ctx

open Sha256Ctx

theorem sha256Absorb_spec (ctx : Sha256Ctx) (data : Bytes) :
    (sha256Absorb ctx data).state = ctx.after data ∧
      (sha256Absorb ctx data).pending = leftover 64 (ctx.pending ++ data) ∧
      (sha256Absorb ctx data).bitLen = ctx.bitLen := by
  fun_induction sha256Absorb ctx data with
  | case1 ctx =>
    have h : (ctx.pending ++ []).length < 64 := by
      rw [List.append_nil, ctx.pending_length]
      exact ctx.bufferLen_lt
    rw [after, blocks_of_lt h, leftover_of_lt h, List.append_nil]
    exact ⟨rfl, rfl, rfl⟩
  | case2 ctx data _ ih =>
    obtain ⟨h₁, h₂, h₃⟩ := copyIn_step ctx data
    rw [h₁, h₂, h₃] at ih
    exact ih

theorem sha256Init_holds : Holds sha256Init [] := by
  refine ⟨?_, ?_, rfl⟩
  · rw [sha256Init_state, blocks_of_lt (by simp), List.foldl_nil]
  · rw [leftover_of_lt (by simp)]
    rfl

/-- Whatever follows a taken message is processed as the end of one message. -/
theorem absorb_after (ctx : Sha256Ctx) {m : Bytes} (hs : ctx.state = (blocks 64 m).foldl Sha2.compress Sha2.initial)
    (hp : ctx.pending = leftover 64 m) (data : Bytes) :
    (sha256Absorb ctx data).state = (blocks 64 (m ++ data)).foldl Sha2.compress Sha2.initial ∧
      (sha256Absorb ctx data).pending = leftover 64 (m ++ data) := by
  obtain ⟨h₁, h₂, -⟩ := sha256Absorb_spec ctx data
  constructor
  · rw [h₁, after, hp, hs, blocks_append (by omega) m, List.foldl_append]
  · rw [h₂, hp, ← leftover_append (by omega) m]

theorem sha256Update_holds {ctx : Sha256Ctx} {m : Bytes} (h : Holds ctx m) (data : Bytes) :
    Holds (sha256Update ctx data) (m ++ data) := by
  obtain ⟨hs, hp⟩ := absorb_after { ctx with bitLen := ctx.bitLen + UInt64.ofNat data.length * 8 }
    h.state h.pending data
  refine ⟨hs, hp, ?_⟩
  have hb : ctx.bitLen + UInt64.ofNat data.length * 8 = UInt64.ofNat (8 * (m ++ data).length) := by
    rw [h.bitLen, List.length_append, Nat.mul_add, UInt64.ofNat_add, Nat.mul_comm 8 data.length,
      UInt64.ofNat_mul data.length]
    rfl
  rw [← hb]
  exact (sha256Absorb_spec _ data).2.2

/-! ## The end of a message -/

theorem bytes64_eq (n : Nat) :
    ([7, 6, 5, 4, 3, 2, 1, 0] : List UInt64).map (fun i => (UInt64.ofNat n >>> (i * 8)).toUInt8) = Sha2.bytes64 n := by
  simp only [Sha2.bytes64, List.map_cons, List.map_nil, List.cons.injEq, and_true, ← UInt8.toNat_inj]
  refine ⟨?_, ?_, ?_, ?_, ?_, ?_, ?_, ?_⟩
  all_goals
    simp only [UInt8.toNat_ofNat', UInt64.toNat_toUInt8, UInt64.toNat_shiftRight, UInt64.toNat_ofNat', UInt64.toNat_mul,
      UInt64.reduceToNat, Nat.reduceMul, Nat.reducePow, Nat.reduceMod, Nat.shiftRight_eq_div_pow]
    omega

/-- The pad the code appends is the specified one, whichever shape it takes. -/
theorem finalPad_eq {ctx : Sha256Ctx} {m : Bytes} (h : Holds ctx m) : finalPad ctx = Sha2.padding m.length := by
  have hlt := ctx.bufferLen_lt
  have hl : ctx.bufferLen = m.length % 64 := by rw [← ctx.pending_length, h.pending, length_leftover]
  have hz : (if ctx.bufferLen < 56 then 56 - ctx.bufferLen - 1 else 120 - ctx.bufferLen - 1)
      = Sha2.zeros m.length := by
    rw [Sha2.zeros, ← hl]
    split <;> omega
  unfold finalPad
  rw [hz, h.bitLen, bytes64_eq, Sha2.padding]

/-- The pad fits the array the code writes it to. -/
theorem finalPad_fits (ctx : Sha256Ctx) : (finalPad ctx).length ≤ 128 := by
  have h := ctx.bufferLen_lt
  simp only [finalPad, List.length_append, List.length_cons, List.length_replicate, List.length_map, List.length_nil]
  split <;> omega

/-- The pad ends on a block boundary: nothing is left uncompressed. -/
theorem finalPad_completes {ctx : Sha256Ctx} {m : Bytes} (h : Holds ctx m) :
    (sha256Absorb ctx (finalPad ctx)).pending = [] := by
  rw [(absorb_after ctx h.state h.pending _).2, finalPad_eq h, ← List.length_eq_zero_iff, length_leftover]
  exact Sha2.pad_length m

theorem hexdigits_getD : ∀ n < 16, hexdigits.getD n 0 = Sha2.hexDigit n := by decide

theorem nibble_eq (v : UInt32) {s : UInt32} (hs : s < 32) :
    hexdigits.getD ((v >>> s) &&& 0xf).toNat 0 = Sha2.hexDigit (v.toNat / 2 ^ s.toNat % 16) := by
  have h : ((v >>> s) &&& 0xf).toNat = v.toNat / 2 ^ s.toNat % 16 := by
    rw [UInt32.toNat_and, UInt32.toNat_shiftRight, Nat.mod_eq_of_lt (by simpa using UInt32.lt_iff_toNat_lt.1 hs),
      Nat.shiftRight_eq_div_pow]
    exact Nat.and_two_pow_sub_one_eq_mod _ 4
  rw [h]
  exact hexdigits_getD _ (Nat.mod_lt _ (by omega))

theorem wordHex_eq (v : UInt32) : wordHex v = Sha2.hex (Sha2.wordBytes v) := by
  simp only [wordHex, Sha2.hex, Sha2.wordBytes, List.map_cons, List.map_nil, List.flatMap_cons, List.flatMap_nil,
    List.cons_append, List.nil_append]
  rw [nibble_eq v (s := 28) (by decide), nibble_eq v (s := 24) (by decide), nibble_eq v (s := 20) (by decide),
    nibble_eq v (s := 16) (by decide), nibble_eq v (s := 12) (by decide), nibble_eq v (s := 8) (by decide),
    nibble_eq v (s := 4) (by decide), nibble_eq v (s := 0) (by decide)]
  simp only [List.cons.injEq, and_true]
  refine ⟨?_, ?_, ?_, ?_, ?_, ?_, ?_, ?_⟩
  all_goals
    congr 1
    simp only [UInt32.toNat_toUInt8, UInt32.toNat_shiftRight, UInt32.reduceToNat, Nat.reduceMod, Nat.reducePow,
      Nat.shiftRight_eq_div_pow]
    omega

theorem sha256FinalHex_eq {ctx : Sha256Ctx} {m : Bytes} (h : Holds ctx m) :
    sha256FinalHex ctx = Sha2.hex (Sha2.sha256 m) := by
  rw [sha256FinalHex, finalPad_eq h, (absorb_after ctx h.state h.pending _).1, ← Sha2.pad, Sha2.sha256, Sha2.hex,
    List.flatMap_assoc]
  congr 1
  funext v
  exact wordHex_eq v

/-! ## Any way of cutting a message -/

theorem foldl_update_holds (chunks : List Bytes) :
    ∀ {ctx : Sha256Ctx} {m : Bytes}, Holds ctx m → Holds (chunks.foldl sha256Update ctx) (m ++ chunks.flatten) := by
  induction chunks with
  | nil =>
    intro ctx m h
    simpa using h
  | cons c chunks ih =>
    intro ctx m h
    rw [List.foldl_cons, List.flatten_cons, ← List.append_assoc]
    exact ih (sha256Update_holds h c)

/-- As no block `fread` returns is empty, its loop takes them all. -/
theorem freadLoop_eq {blocks : List Bytes} (hb : ∀ b ∈ blocks, b ≠ []) :
    ∀ ctx size, freadLoop ctx size blocks = (blocks.foldl sha256Update ctx, size + blocks.flatten.length) := by
  induction blocks with
  | nil => intro ctx size; rfl
  | cons b blocks ih =>
    intro ctx size
    have hpos : 0 < b.length := List.length_pos_iff.2 (hb b (by simp))
    rw [freadLoop, if_pos hpos, ih (fun b hb' => hb b (by simp [hb'])), List.foldl_cons, List.flatten_cons,
      List.length_append, Nat.add_assoc]

def ReadFile.content (f : ReadFile) : Bytes := f.blocks.flatten

theorem sha256_eq (data : Bytes) : sha256 data = Sha2.hex (Sha2.sha256 data) :=
  sha256FinalHex_eq (sha256Update_holds sha256Init_holds data)

/-- Hashing a message in chunks, whole, or from a file gives its digest. -/
theorem digest_of_chunks (chunks : List Bytes) (f : ReadFile) :
    sha256FinalHex (chunks.foldl sha256Update sha256Init) = Sha2.hex (Sha2.sha256 chunks.flatten) ∧
      fileSha256 (some f) = (sha256 f.content, f.content.length) ∧
      sha256 f.content = Sha2.hex (Sha2.sha256 f.content) := by
  refine ⟨sha256FinalHex_eq (foldl_update_holds chunks sha256Init_holds), ?_, sha256_eq _⟩
  have h := sha256FinalHex_eq (foldl_update_holds f.blocks sha256Init_holds)
  rw [fileSha256, freadLoop_eq f.block_pos, sha256_eq]
  simp only [h, Nat.zero_add, List.nil_append]
  rfl

end NgxLuaCpp
