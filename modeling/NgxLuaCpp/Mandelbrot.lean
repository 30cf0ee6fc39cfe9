import NgxLuaCpp.Base
import NgxLuaCpp.Lib.Interleave
import Mathlib.Data.List.GetD
/-!
# Rendering rows in parallel

`mandelbrot` renders into one buffer, in mode 0 with a task per row on the worker
pool. A step of a task is the write of one byte. `R` stands for `double`.
-/

namespace NgxLuaCpp

/-! ## Rows -/

/-- What a row is rendered from, besides its number. -/
structure Frame (R : Type) where
  width : Nat
  height : Nat
  iterations : Nat
  reMin : R
  imMax : R
  pixelSize : R

/-- A row function: the writes into its row, in order. It writes its `width * 3` bytes
and no others. -/
structure RowRenderer (R : Type) where
  writes : Frame R → Nat → List (Nat × UInt8)
  inside : ∀ frame y, ∀ w ∈ writes frame y, w.1 < frame.width * 3
  covers : ∀ frame y, ∀ j < frame.width * 3, ∃ w ∈ writes frame y, w.1 = j

section
variable {R : Type} [Add R] [Sub R] [Mul R] [LT R] [DecidableLT R] [NatCast R] [OfScientific R]

/-- The loop for one point, with `left` passes to go: the passes made, and `zr2 + zi2`
once it is over 4. -/
def escape (cr ci : R) : Nat → Nat → R → R → R → R → Option (Nat × R)
  | 0, _, _, _, _, _ => none
  | left + 1, n, zr, zi, zr2, zi2 =>
    if (4.0 : R) < zr2 + zi2 then some (n, zr2 + zi2)
    else
      let zi := (2.0 : R) * zr * zi + ci
      let zr := zr2 - zi2 + cr
      escape cr ci left (n + 1) zr zi (zr * zr) (zi * zi)

/-- `render_mandelbrot_row`; `colour` is the smoothed palette of an escaped point. -/
def renderMandelbrotRow (colour : Nat → Nat → R → UInt8 × UInt8 × UInt8) (frame : Frame R) (y : Nat) :
    List (Nat × UInt8) :=
  let ci := frame.imMax - (y : R) * frame.pixelSize
  (List.range frame.width).flatMap fun (x : Nat) =>
    let cr := frame.reMin + (x : R) * frame.pixelSize
    match escape cr ci frame.iterations 0 0.0 0.0 0.0 0.0 with
    | none => [(x * 3, 0), (x * 3 + 1, 0), (x * 3 + 2, 0)]
    | some (n, norm) =>
      let (r, g, b) := colour frame.iterations n norm
      [(x * 3, b), (x * 3 + 1, g), (x * 3 + 2, r)]

/-- The writes of a row go to its bytes in order. -/
theorem renderMandelbrotRow_fst (colour : Nat → Nat → R → UInt8 × UInt8 × UInt8) (frame : Frame R) (y : Nat) :
    (renderMandelbrotRow colour frame y).map Prod.fst =
      (List.range frame.width).flatMap fun x => [x * 3, x * 3 + 1, x * 3 + 2] := by
  rw [renderMandelbrotRow, List.map_flatMap]
  refine List.flatMap_congr fun x _ => ?_
  dsimp only
  split <;> rfl

/-- The row function of the source. -/
def mandelbrotRow (colour : Nat → Nat → R → UInt8 × UInt8 × UInt8) : RowRenderer R where
  writes := renderMandelbrotRow colour
  inside frame y w hw := by
    have hmem := List.mem_map_of_mem (f := Prod.fst) hw
    rw [renderMandelbrotRow_fst] at hmem
    obtain ⟨x, hx, hj⟩ := List.mem_flatMap.1 hmem
    have hx := List.mem_range.1 hx
    simp only [List.mem_cons, List.not_mem_nil, or_false] at hj
    omega
  covers frame y j hj := by
    have hmem : j ∈ (renderMandelbrotRow colour frame y).map Prod.fst := by
      rw [renderMandelbrotRow_fst, List.mem_flatMap]
      refine ⟨j / 3, List.mem_range.2 (by omega), ?_⟩
      simp only [List.mem_cons, List.not_mem_nil, or_false]
      omega
    obtain ⟨w, hw, rfl⟩ := List.mem_map.1 hmem
    exact ⟨w, hw, rfl⟩

end

/-! ## The picture file -/

/-- `std::memcpy(p + i, src, src.length)` -/
def memcpy (p : Bytes) (i : Nat) (src : Bytes) : Bytes := p.take i ++ src ++ p.drop (i + src.length)

/-- A number in `n` bytes, the lowest first. -/
def littleEndian (n v : Nat) : Bytes := (List.range n).map fun i => UInt8.ofNat (v >>> (8 * i))

/-- `encode_bmp` of a picture stored from the top down. -/
def encodeBmp (width height : Nat) (rgbTopdown : Bytes) : Bytes :=
  let rowSize := (width * 3 + 3) / 4 * 4
  let dataSize := rowSize * height
  let bmp := List.replicate (54 + dataSize) (0 : UInt8)
  let fields : List (Nat × Bytes) := [
    (0, txt "BM"),
    (2, littleEndian 4 bmp.length),
    (6, littleEndian 4 0),
    (10, littleEndian 4 54),
    (14, littleEndian 4 40),
    (18, littleEndian 4 width),
    (22, littleEndian 4 height),
    (26, littleEndian 2 1),
    (28, littleEndian 2 24),
    (30, littleEndian 4 0),
    (34, littleEndian 4 dataSize)]
  let bmp := fields.foldl (fun bmp f => memcpy bmp f.1 f.2) bmp
  -- rows are stored bottom-up
  (List.range height).foldl (fun bmp y =>
    memcpy bmp (54 + y * rowSize) ((rgbTopdown.drop ((height - 1 - y) * width * 3)).take (width * 3))) bmp

/-! ## The picture -/

/-- `out[i] = b` -/
def store (pixels : Bytes) (w : Nat × UInt8) : Bytes := pixels.set w.1 w.2

section
variable {R : Type}

/-- The buffer before anything is drawn. -/
def blank (frame : Frame R) : Bytes := List.replicate (frame.width * frame.height * 3) 0

/-- The writes of the row `y`, from `pixels.data() + y * width * 3` on. -/
def rowTask (renderer : RowRenderer R) (frame : Frame R) (y : Nat) : List (Nat × UInt8) :=
  (renderer.writes frame y).map fun w => (y * frame.width * 3 + w.1, w.2)

/-- The buffer and the tasks, all of them dispatched. -/
def dispatched (renderer : RowRenderer R) (frame : Frame R) : Interleave.Config Bytes (Nat × UInt8) :=
  ⟨blank frame, (List.range frame.height).map (rowTask renderer frame)⟩

/-- Every row on one thread. -/
def renderSerial (renderer : RowRenderer R) (frame : Frame R) : Bytes :=
  (List.range frame.height).foldl (fun pixels y => (rowTask renderer frame y).foldl store pixels) (blank frame)

variable [Add R] [Sub R] [Mul R] [Div R] [LT R] [DecidableLT R] [NatCast R] [OfScientific R]

/-- The frame of a request. -/
def frameOf (width height iterations : Nat) (cx cy zoom : R) : Frame R :=
  let width := clamp width 16 1600
  let height := clamp height 16 1200
  let iterations := clamp iterations 4 100000
  let span := (3.0 : R) / if zoom < (1e-6 : R) then (1e-6 : R) else zoom
  { width := width
    height := height
    iterations := iterations
    reMin := cx - span * (0.5 : R)
    imMax := cy + span * (0.5 : R)
    pixelSize := span / (width : R) }

/-- The picture returned. In mode 0 the tasks take steps as `schedule` has it, and nothing
is returned before all have completed. -/
def mandelbrot (renderer : RowRenderer R) (width height iterations : Nat) (cx cy zoom : R) (mode : Nat)
    (schedule : List Nat) : Option Bytes :=
  let frame := frameOf width height iterations cx cy zoom
  if mode = 0 ∧ 1 < frame.height then
    let config := Interleave.run store schedule (dispatched renderer frame)
    if config.finished then some (encodeBmp frame.width frame.height config.state) else none
  else some (encodeBmp frame.width frame.height (renderSerial renderer frame))

end

/-! ## Disjoint rows -/

section
variable {R : Type} (renderer : RowRenderer R) (frame : Frame R)

theorem mem_rowTask {y : Nat} {w : Nat × UInt8} (h : w ∈ rowTask renderer frame y) :
    y * frame.width * 3 ≤ w.1 ∧ w.1 < (y + 1) * frame.width * 3 := by
  obtain ⟨v, hv, rfl⟩ := List.mem_map.1 h
  have hlt := renderer.inside frame y v hv
  have hsucc : (y + 1) * frame.width * 3 = y * frame.width * 3 + frame.width * 3 := by
    rw [Nat.succ_mul, Nat.add_mul]
  rw [hsucc]
  exact ⟨Nat.le_add_right _ _, Nat.add_lt_add_left hlt _⟩

/-- No write leaves the buffer. -/
theorem rowTask_inside {y : Nat} (hy : y < frame.height) {w : Nat × UInt8} (h : w ∈ rowTask renderer frame y) :
    w.1 < (blank frame).length := by
  have hle : (y + 1) * frame.width * 3 ≤ frame.height * frame.width * 3 :=
    Nat.mul_le_mul_right 3 (Nat.mul_le_mul_right frame.width hy)
  rw [blank, List.length_replicate, Nat.mul_comm frame.width]
  exact Nat.lt_of_lt_of_le (mem_rowTask renderer frame h).2 hle

theorem store_comm {v w : Nat × UInt8} (h : v.1 ≠ w.1) (pixels : Bytes) :
    store (store pixels v) w = store (store pixels w) v := List.set_comm v.2 w.2 h

/-- Rows share no byte. -/
theorem independent_rows : Interleave.Independent store (dispatched renderer frame).left := by
  refine List.pairwise_map.2 (List.pairwise_lt_range.imp ?_)
  intro y z hlt v hv w hw pixels
  have hle : (y + 1) * frame.width * 3 ≤ z * frame.width * 3 :=
    Nat.mul_le_mul_right 3 (Nat.mul_le_mul_right frame.width hlt)
  have hv := (mem_rowTask renderer frame hv).2
  have hw := (mem_rowTask renderer frame hw).1
  exact store_comm (by omega) pixels

theorem serial_dispatched : (dispatched renderer frame).serial store = renderSerial renderer frame := by
  rw [Interleave.Config.serial, dispatched, renderSerial, List.foldl_flatten, List.foldl_map]

end

/-- Whatever the order of the tasks' writes, they come to the serial picture. -/
theorem mandelbrot_parallel_eq_serial {R : Type} [Add R] [Sub R] [Mul R] [Div R] [LT R] [DecidableLT R] [NatCast R]
    [OfScientific R] (renderer : RowRenderer R) (width height iterations : Nat) (cx cy zoom : R) (schedule : List Nat)
    (hdone : (Interleave.run store schedule
      (dispatched renderer (frameOf width height iterations cx cy zoom))).finished = true) :
    let frame := frameOf width height iterations cx cy zoom
    (Interleave.run store schedule (dispatched renderer frame)).state = renderSerial renderer frame ∧
      (∀ mode ≠ 0, mandelbrot renderer width height iterations cx cy zoom 0 schedule =
        mandelbrot renderer width height iterations cx cy zoom mode []) ∧
      ∀ task ∈ (dispatched renderer frame).left, ∀ w ∈ task, w.1 < (dispatched renderer frame).state.length := by
  intro frame
  have hstate : (Interleave.run store schedule (dispatched renderer frame)).state = renderSerial renderer frame := by
    rw [← serial_dispatched]
    exact Interleave.run_finished (independent_rows renderer frame) hdone
  refine ⟨hstate, ?_, ?_⟩
  · intro mode hmode
    have hheight : 1 < frame.height := by
      change 1 < clamp height 16 1200
      unfold clamp
      split_ifs <;> omega
    unfold mandelbrot
    dsimp only
    rw [if_pos ⟨rfl, hheight⟩, if_pos hdone, if_neg (not_and_of_not_left _ hmode)]
    exact congrArg (fun pixels => some (encodeBmp frame.width frame.height pixels)) hstate
  · intro task htask w hw
    obtain ⟨y, hy, rfl⟩ := List.mem_map.1 htask
    exact rowTask_inside renderer frame (List.mem_range.1 hy) hw

/-- A row function that colours by position. -/
def stripes : RowRenderer Rat where
  writes frame y := (List.range (frame.width * 3)).map fun j => (j, UInt8.ofNat (y + j))
  inside frame y w hw := by
    obtain ⟨j, hj, rfl⟩ := List.mem_map.1 hw
    exact List.mem_range.1 hj
  covers frame y j hj := ⟨(j, UInt8.ofNat (y + j)), List.mem_map.2 ⟨j, List.mem_range.2 hj, rfl⟩, rfl⟩

/-- The 16 rows of the smallest picture, a byte of each in turn. -/
theorem stripes_in_turn :
    mandelbrot stripes 1 1 1 0 0 1 0 ((List.range 48).flatMap fun _ => List.range 16) =
      mandelbrot stripes 1 1 1 0 0 1 1 [] :=
  (mandelbrot_parallel_eq_serial stripes 1 1 1 0 0 1 _ (by decide +kernel)).2.1 1 one_ne_zero

end NgxLuaCpp
