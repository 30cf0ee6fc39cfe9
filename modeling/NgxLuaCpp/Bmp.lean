import NgxLuaCpp.Mandelbrot
import NgxLuaCpp.Lib.ByteBuffer
/-!
# The picture file read back

`encode_bmp` copies the header's fields and the rows, the last one first, into a buffer of
zeros. A reader of the format finds the picture in it.
-/
open ByteBuffer

namespace NgxLuaCpp.Bmp

/-! ## A reader -/

/-- The number in some bytes, the lowest first. -/
def ofLittleEndian (s : Bytes) : Nat := s.foldr (fun b n => b.toNat + 256 * n) 0

/-- The field of `n` bytes at `i`. -/
def field (file : Bytes) (i n : Nat) : Nat := ofLittleEndian (slice file i n)

/-- A signed field of four bytes. -/
def signedField (file : Bytes) (i : Nat) : Int :=
  let v := field file i 4
  if v < 0x80000000 then v else v - 0x100000000

/-- A picture as a reader of the file sees it. -/
structure Picture where
  width : Nat
  height : Nat
  /-- rows from the top, three bytes a pixel -/
  pixels : Bytes

/-- The bytes of a row in a file, with its padding. -/
def stride (width : Nat) : Nat := (24 * width + 31) / 32 * 4

/-- Uncompressed files of 24 bits a pixel, stored from the bottom up. -/
def readBmp (file : Bytes) : Option Picture :=
  let offset := field file 10 4
  let width := signedField file 18
  let height := signedField file 22
  if slice file 0 2 = txt "BM" ∧ 0 < width ∧ 0 < height ∧ field file 26 2 = 1 ∧ field file 28 2 = 24 ∧
      field file 30 4 = 0 ∧ offset + stride width.toNat * height.toNat ≤ file.length then
    some ⟨width.toNat, height.toNat, (List.range height.toNat).flatMap fun y =>
      slice file (offset + (height.toNat - 1 - y) * stride width.toNat) (width.toNat * 3)⟩
  else none

/-! ## Numbers -/

theorem length_littleEndian (n v : Nat) : (littleEndian n v).length = n := by
  unfold littleEndian
  rw [List.length_map, List.length_range]

theorem littleEndian_succ (n v : Nat) : littleEndian (n + 1) v = UInt8.ofNat v :: littleEndian n (v / 256) := by
  unfold littleEndian
  rw [List.range_succ_eq_map, List.map_cons, List.map_map]
  congr 1
  apply List.map_congr_left
  intro i _
  rw [Function.comp_apply, Nat.shiftRight_eq_div_pow, Nat.shiftRight_eq_div_pow, Nat.mul_succ, Nat.pow_add,
    Nat.mul_comm (2 ^ (8 * i)), ← Nat.div_div_eq_div_mul]

theorem ofLittleEndian_littleEndian {n v : Nat} (h : v < 256 ^ n) : ofLittleEndian (littleEndian n v) = v := by
  induction n generalizing v with
  | zero =>
    rw [Nat.pow_zero, Nat.lt_one_iff] at h
    rw [h]
    rfl
  | succ n ih =>
    have hdiv : v / 256 < 256 ^ n := by
      rw [Nat.div_lt_iff_lt_mul (by decide)]
      exact h
    rw [littleEndian_succ, ofLittleEndian, List.foldr_cons, ← ofLittleEndian, ih hdiv, UInt8.toNat_ofNat']
    omega

/-! ## The writes -/

/-- The fields of the header and where they go. -/
def bmpHeader (width height dataSize : Nat) : List (Nat × Bytes) := [
  (0, txt "BM"),
  (2, littleEndian 4 (54 + dataSize)),
  (6, littleEndian 4 0),
  (10, littleEndian 4 54),
  (14, littleEndian 4 40),
  (18, littleEndian 4 width),
  (22, littleEndian 4 height),
  (26, littleEndian 2 1),
  (28, littleEndian 2 24),
  (30, littleEndian 4 0),
  (34, littleEndian 4 dataSize)]

/-- The rows and where they go. -/
def bmpRows (width height : Nat) (rgbTopdown : Bytes) : List (Nat × Bytes) :=
  (List.range height).map fun y =>
    (54 + y * stride width, slice rgbTopdown ((height - 1 - y) * width * 3) (width * 3))

/-- All the writes of `encode_bmp`, in order. -/
def bmpWrites (width height : Nat) (rgbTopdown : Bytes) : List (Nat × Bytes) :=
  bmpHeader width height (stride width * height) ++ bmpRows width height rgbTopdown

variable {width height : Nat} {px : Bytes}

theorem rowSize_eq (width : Nat) : (width * 3 + 3) / 4 * 4 = stride width := by
  unfold stride
  omega

/-- The copies are these writes, in order. -/
theorem encodeBmp_eq (width height : Nat) (px : Bytes) : encodeBmp width height px =
    (bmpWrites width height px).foldl overwrite (List.replicate (54 + stride width * height) 0) := by
  unfold encodeBmp bmpWrites bmpHeader bmpRows
  dsimp only
  rw [rowSize_eq, List.foldl_append, List.foldl_map, List.length_replicate]
  rfl

theorem row_source (hpx : px.length = width * height * 3) {y : Nat} (hy : y < height) :
    (height - 1 - y) * width * 3 + width * 3 ≤ px.length := by
  have hle : (height - 1 - y + 1) * (width * 3) ≤ height * (width * 3) := Nat.mul_le_mul_right _ (by omega)
  rw [Nat.succ_mul] at hle
  rw [hpx, Nat.mul_assoc, Nat.mul_comm width height, Nat.mul_assoc]
  exact hle

theorem length_row (hpx : px.length = width * height * 3) {y : Nat} (hy : y < height) :
    (slice px ((height - 1 - y) * width * 3) (width * 3)).length = width * 3 := length_slice (row_source hpx hy)

theorem row_le_stride (width : Nat) : width * 3 ≤ stride width := by
  unfold stride
  omega

theorem header_inside (width height dataSize : Nat) :
    ∀ w ∈ bmpHeader width height dataSize, w.1 + w.2.length ≤ 54 := by
  simp [bmpHeader, length_littleEndian, txt]

theorem header_ordered (width height dataSize : Nat) :
    (bmpHeader width height dataSize).Pairwise fun v w => v.1 + v.2.length ≤ w.1 := by
  simp [bmpHeader, length_littleEndian, txt]

/-- Rows follow each other, each with its padding. -/
theorem row_le (width : Nat) {y z : Nat} (h : y < z) : y * stride width + stride width ≤ z * stride width := by
  rw [← Nat.succ_mul]
  exact Nat.mul_le_mul_right _ h

theorem writes_inside (hpx : px.length = width * height * 3) :
    Inside (54 + stride width * height) (bmpWrites width height px) := by
  unfold bmpWrites
  intro w hw
  rcases List.mem_append.1 hw with hw | hw
  · exact Nat.le_trans (header_inside _ _ _ w hw) (Nat.le_add_right _ _)
  · obtain ⟨y, hy, rfl⟩ := List.mem_map.1 hw
    have hy := List.mem_range.1 hy
    have hrow := row_le width hy
    have hstride := row_le_stride width
    rw [length_row hpx hy, Nat.mul_comm (stride width)]
    dsimp only
    omega

/-- Nothing is written twice. -/
theorem writes_ordered (hpx : px.length = width * height * 3) :
    (bmpWrites width height px).Pairwise fun v w => v.1 + v.2.length ≤ w.1 := by
  unfold bmpWrites
  refine List.pairwise_append.2 ⟨header_ordered _ _ _, ?_, ?_⟩
  · refine List.pairwise_map.2 (List.pairwise_lt_range.imp_of_mem ?_)
    intro y z hy hz hlt
    have hrow := row_le width hlt
    have hstride := row_le_stride width
    rw [length_row hpx (List.mem_range.1 hy)]
    dsimp only
    omega
  · intro v hv w hw
    obtain ⟨y, -, rfl⟩ := List.mem_map.1 hw
    exact Nat.le_trans (header_inside _ _ _ v hv) (Nat.le_add_right _ _)

/-! ## The reader on the file -/

section
variable (hpx : px.length = width * height * 3)
include hpx

theorem length_encodeBmp : (encodeBmp width height px).length = 54 + stride width * height := by
  rw [encodeBmp_eq, length_foldl_overwrite, List.length_replicate]
  rw [List.length_replicate]
  exact writes_inside hpx

theorem slice_encodeBmp {w : Nat × Bytes} (hw : w ∈ bmpWrites width height px) :
    slice (encodeBmp width height px) w.1 w.2.length = w.2 := by
  rw [encodeBmp_eq]
  apply slice_foldl_of_mem _ (writes_ordered hpx) hw
  rw [List.length_replicate]
  exact writes_inside hpx

theorem field_encodeBmp {i n v : Nat} (hmem : (i, littleEndian n v) ∈ bmpHeader width height (stride width * height))
    (hv : v < 256 ^ n) : field (encodeBmp width height px) i n = v := by
  have hslice := slice_encodeBmp hpx (List.mem_append_left _ hmem)
  rw [length_littleEndian] at hslice
  rw [field, hslice, ofLittleEndian_littleEndian hv]

theorem row_encodeBmp {y : Nat} (hy : y < height) :
    slice (encodeBmp width height px) (54 + y * stride width) (width * 3) =
      slice px ((height - 1 - y) * width * 3) (width * 3) := by
  have hmem : (54 + y * stride width, slice px ((height - 1 - y) * width * 3) (width * 3)) ∈
      bmpWrites width height px :=
    List.mem_append_right _ (List.mem_map.2 ⟨y, List.mem_range.2 hy, rfl⟩)
  have hslice := slice_encodeBmp hpx hmem
  rwa [length_row hpx hy] at hslice

/-- What follows a row up to the next is not written. -/
theorem padding_encodeBmp {y : Nat} (hy : y < height) :
    slice (encodeBmp width height px) (54 + y * stride width + width * 3) (stride width - width * 3) =
      List.replicate (stride width - width * 3) 0 := by
  have hstride := row_le_stride width
  have hlast := row_le width hy
  rw [encodeBmp_eq, slice_foldl_of_apart]
  · rw [slice, List.drop_replicate, List.take_replicate]
    congr 1
    rw [Nat.mul_comm (stride width)]
    omega
  · rw [List.length_replicate]
    exact writes_inside hpx
  · unfold bmpWrites
    intro w hw
    unfold Apart
    rcases List.mem_append.1 hw with hw | hw
    · have := header_inside _ _ _ w hw
      omega
    · obtain ⟨z, hz, rfl⟩ := List.mem_map.1 hw
      rw [length_row hpx (List.mem_range.1 hz)]
      dsimp only
      rcases Nat.lt_trichotomy z y with hlt | rfl | hgt
      · have := row_le width hlt
        omega
      · omega
      · have := row_le width hgt
        omega

end

/-- The file and what a reader makes of it. -/
structure BmpOf (width height : Nat) (px file : Bytes) : Prop where
  /-- the copies of the source -/
  writes : file = (bmpWrites width height px).foldl overwrite (List.replicate file.length 0)
  inside : Inside file.length (bmpWrites width height px)
  /-- what they copy from the picture is there -/
  sources : ∀ y < height, (height - 1 - y) * width * 3 + width * 3 ≤ px.length
  reads_back : readBmp file = some ⟨width, height, px⟩
  file_size : field file 2 4 = file.length
  image_size : field file 34 4 = file.length - field file 10 4
  padding : ∀ y < height, slice file (field file 10 4 + y * stride width + width * 3) (stride width - width * 3) =
    List.replicate (stride width - width * 3) 0

/-- For the sizes that are let in, the file is a picture file of that picture, and nothing else.
-/
theorem encodeBmp_exact {width height : Nat} {px : Bytes} (hwidth : 16 ≤ width ∧ width ≤ 1600)
    (hheight : 16 ≤ height ∧ height ≤ 1200) (hpx : px.length = width * height * 3) :
    BmpOf width height px (encodeBmp width height px) := by
  have hlen := length_encodeBmp hpx
  have hstride : stride width ≤ 4800 := by
    unfold stride
    omega
  have hsize : stride width * height ≤ 4800 * 1200 := Nat.mul_le_mul hstride hheight.2
  have hoffset : field (encodeBmp width height px) 10 4 = 54 :=
    field_encodeBmp hpx (by simp [bmpHeader]) (by decide)
  have hw : signedField (encodeBmp width height px) 18 = width := by
    rw [signedField, field_encodeBmp (v := width) hpx (by simp [bmpHeader]) (by omega), if_pos (by omega)]
  have hh : signedField (encodeBmp width height px) 22 = height := by
    rw [signedField, field_encodeBmp (v := height) hpx (by simp [bmpHeader]) (by omega), if_pos (by omega)]
  refine
    { writes := ?_
      inside := ?_
      sources := ?_
      reads_back := ?_
      file_size := ?_
      image_size := ?_
      padding := ?_ }
  · rw [hlen]
    exact encodeBmp_eq width height px
  · rw [hlen]
    exact writes_inside hpx
  · exact fun y hy => row_source hpx hy
  · have hbm : slice (encodeBmp width height px) 0 2 = txt "BM" :=
      slice_encodeBmp hpx (List.mem_append_left _ (List.mem_cons_self ..))
    have hplanes : field (encodeBmp width height px) 26 2 = 1 := field_encodeBmp hpx (by simp [bmpHeader]) (by decide)
    have hbits : field (encodeBmp width height px) 28 2 = 24 := field_encodeBmp hpx (by simp [bmpHeader]) (by decide)
    have hraw : field (encodeBmp width height px) 30 4 = 0 := field_encodeBmp hpx (by simp [bmpHeader]) (by decide)
    have hrows : ((List.range height).flatMap fun y =>
        slice (encodeBmp width height px) (54 + (height - 1 - y) * stride width) (width * 3)) = px := by
      rw [← flatMap_slice height (width * 3) px (by rw [hpx, Nat.mul_comm width, Nat.mul_assoc])]
      refine List.flatMap_congr fun y hy => ?_
      have hy := List.mem_range.1 hy
      rw [flatMap_slice height (width * 3) px (by rw [hpx, Nat.mul_comm width, Nat.mul_assoc]),
        row_encodeBmp hpx (by omega), show height - 1 - (height - 1 - y) = y by omega, Nat.mul_assoc]
    unfold readBmp
    rw [hoffset, hw, hh]
    dsimp only [Int.toNat_natCast]
    rw [if_pos ⟨hbm, by omega, by omega, hplanes, hbits, hraw, by rw [hlen]⟩, hrows]
  · rw [hlen]
    exact field_encodeBmp hpx (by simp [bmpHeader]) (by omega)
  · rw [hlen, hoffset, Nat.add_sub_cancel_left]
    exact field_encodeBmp hpx (by simp [bmpHeader]) (by omega)
  · intro y hy
    rw [hoffset]
    exact padding_encodeBmp hpx hy

/-- A picture whose rows are padded. -/
theorem encodeBmp_padded : ((16 ≤ 17 ∧ 17 ≤ 1600) ∧ (16 ≤ 16 ∧ 16 ≤ 1200) ∧
    ((List.range 816).map UInt8.ofNat).length = 17 * 16 * 3) ∧
    BmpOf 17 16 ((List.range 816).map UInt8.ofNat) (encodeBmp 17 16 ((List.range 816).map UInt8.ofNat)) :=
  have hpx : ((List.range 816).map UInt8.ofNat).length = 17 * 16 * 3 := by simp
  ⟨⟨by decide, by decide, hpx⟩, encodeBmp_exact (by decide) (by decide) hpx⟩

end NgxLuaCpp.Bmp
