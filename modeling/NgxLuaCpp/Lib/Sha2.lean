import NgxLuaCpp.Lib.BlockStream
import Mathlib.Data.Nat.NthRoot.Defs
import Mathlib.Data.Nat.Prime.Basic
/-!
# SHA-256 and HMAC, on whole messages

FIPS 180-4 for messages of bytes: a message is padded, cut into 64-byte
blocks, and each block is compressed into eight words. HMAC is stated for any
hash and block size.
-/

namespace Sha2

abbrev Word := UInt32

/-! ## Functions and constants -/

def rotr (n : Word) (x : Word) : Word := (x >>> n) ||| (x <<< (32 - n))

def ch (x y z : Word) : Word := (x &&& y) ^^^ (~~~x &&& z)
def maj (x y z : Word) : Word := (x &&& y) ^^^ (x &&& z) ^^^ (y &&& z)

def bigSigma0 (x : Word) : Word := rotr 2 x ^^^ rotr 13 x ^^^ rotr 22 x
def bigSigma1 (x : Word) : Word := rotr 6 x ^^^ rotr 11 x ^^^ rotr 25 x
def smallSigma0 (x : Word) : Word := rotr 7 x ^^^ rotr 18 x ^^^ (x >>> 3)
def smallSigma1 (x : Word) : Word := rotr 17 x ^^^ rotr 19 x ^^^ (x >>> 10)

/-- The first 64 primes. -/
def primes : List Nat := (List.range 312).filter fun p => decide p.Prime

/-- The first 32 bits of the fractional parts of the primes' cube roots. -/
def constants : List Word := primes.map fun p => UInt32.ofNat (Nat.nthRoot 3 (p * 2 ^ 96))

/-- Below 18 squared, a number is prime when nothing from 2 to 17 divides it. -/
theorem prime_iff_trial {p : Nat} (hp : p < 312) : p.Prime ↔ 2 ≤ p ∧ ∀ m < 18, 2 ≤ m → m < p → ¬ m ∣ p := by
  constructor
  · intro h
    refine ⟨h.two_le, ?_⟩
    intro m _ hm hlt hd
    rcases (Nat.dvd_prime h).1 hd with rfl | rfl <;> omega
  · rintro ⟨h2, h⟩
    by_contra hn
    have hsq := Nat.minFac_sq_le_self (by omega) hn
    have hlt : p.minFac < 18 := by
      by_contra hge
      have : 18 ^ 2 ≤ p.minFac ^ 2 := Nat.pow_le_pow_left (by omega) 2
      omega
    have hmin := (Nat.minFac_prime (show p ≠ 1 by omega)).two_le
    exact h p.minFac hlt hmin ((Nat.not_prime_iff_minFac_lt h2).1 hn) p.minFac_dvd

/-- The primes by trial division, which evaluates fast. -/
theorem primes_eq : primes = (List.range 312).filter fun p => decide (2 ≤ p ∧ ∀ m < 18, 2 ≤ m → m < p → ¬ m ∣ p) := by
  apply List.filter_congr
  intro p hp
  exact decide_eq_decide.2 (prime_iff_trial (List.mem_range.1 hp))

/-- The eight working variables, and a hash value. -/
structure Words where
  a : Word
  b : Word
  c : Word
  d : Word
  e : Word
  f : Word
  g : Word
  h : Word
  deriving DecidableEq, Repr

namespace Words

def toList (v : Words) : List Word := [v.a, v.b, v.c, v.d, v.e, v.f, v.g, v.h]

def add (v w : Words) : Words :=
  ⟨v.a + w.a, v.b + w.b, v.c + w.c, v.d + w.d, v.e + w.e, v.f + w.f, v.g + w.g, v.h + w.h⟩

end Words

/-- The first 32 bits of the fractional part of a prime's square root. -/
def rootWord (p : Nat) : Word := UInt32.ofNat (Nat.sqrt (p * 2 ^ 64))

def initial : Words :=
  ⟨rootWord 2, rootWord 3, rootWord 5, rootWord 7, rootWord 11, rootWord 13, rootWord 17, rootWord 19⟩

/-! ## Padding -/

/-- The fewest zero bytes that end the padded message on a block boundary. -/
def zeros (len : Nat) : Nat := (119 - len % 64) % 64

theorem zeros_ends_block (len : Nat) : (len + 1 + zeros len + 8) % 64 = 0 := by
  unfold zeros
  omega

/-- A 64-bit number, most significant byte first. -/
def bytes64 (n : Nat) : List UInt8 :=
  [56, 48, 40, 32, 24, 16, 8, 0].map fun s => UInt8.ofNat (n / 2 ^ s)

/-- What follows a message of `len` bytes. The length field wraps past the
`2 ^ 64` bits a message may have. -/
def padding (len : Nat) : List UInt8 := 0x80 :: List.replicate (zeros len) 0 ++ bytes64 (8 * len)

def pad (m : List UInt8) : List UInt8 := m ++ padding m.length

theorem pad_length (m : List UInt8) : (pad m).length % 64 = 0 := by
  have h := zeros_ends_block m.length
  simp only [pad, padding, bytes64, List.length_append, List.length_cons, List.length_replicate, List.length_map,
    List.length_nil]
  omega

/-! ## Compression -/

/-- The `t`-th big-endian word of a block. -/
def blockWord (block : List UInt8) (t : Nat) : Word :=
  ((block.drop (4 * t)).take 4).foldl (fun w b => w * 256 + b.toUInt32) 0

/-- The message schedule. -/
def schedule (block : List UInt8) (t : Nat) : Word :=
  if t < 16 then blockWord block t
  else smallSigma1 (schedule block (t - 2)) + schedule block (t - 7)
    + smallSigma0 (schedule block (t - 15)) + schedule block (t - 16)

def round (v : Words) (k w : Word) : Words :=
  let t₁ := v.h + bigSigma1 v.e + ch v.e v.f v.g + k + w
  let t₂ := bigSigma0 v.a + maj v.a v.b v.c
  ⟨t₁ + t₂, v.a, v.b, v.c, v.d + t₁, v.e, v.f, v.g⟩

def compress (hash : Words) (block : List UInt8) : Words :=
  ((List.range 64).foldl (fun v t => round v (constants.getD t 0) (schedule block t)) hash).add hash

def wordBytes (w : Word) : List UInt8 := [(w >>> 24).toUInt8, (w >>> 16).toUInt8, (w >>> 8).toUInt8, w.toUInt8]

/-- The SHA-256 digest of a message. -/
def sha256 (m : List UInt8) : List UInt8 :=
  ((BlockStream.blocks 64 (pad m)).foldl compress initial).toList.flatMap wordBytes

@[simp] theorem length_sha256 (m : List UInt8) : (sha256 m).length = 32 := by
  simp [sha256, Words.toList, wordBytes]

/-! ## HMAC -/

/-- The key of HMAC with hash `H`, filled up to the block size `B`. -/
def hmacKey (H : List UInt8 → List UInt8) (B : Nat) (key : List UInt8) : List UInt8 :=
  let k := if B < key.length then H key else key
  k ++ List.replicate (B - k.length) 0

def hmac (H : List UInt8 → List UInt8) (B : Nat) (key text : List UInt8) : List UInt8 :=
  H ((hmacKey H B key).map (· ^^^ 0x5c) ++ H ((hmacKey H B key).map (· ^^^ 0x36) ++ text))

/-! ## Hexadecimal -/

def hexDigit (n : Nat) : UInt8 := UInt8.ofNat (if n < 10 then 48 + n else 87 + n)

/-- Lowercase hexadecimal, two digits a byte. -/
def hex (bytes : List UInt8) : List UInt8 :=
  bytes.flatMap fun b => [hexDigit (b.toNat / 16), hexDigit (b.toNat % 16)]

end Sha2
