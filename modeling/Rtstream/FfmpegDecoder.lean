import Rtstream.Lib.BlockCopy
import Rtstream.ServerMain

/-!
# `ffmpeg_decoder.h`, `gl_renderer.h`: from the decoder's picture to the textures

FFmpeg's picture has three planes whose rows are padded. `receive` copies them, row by row and
without the padding, into the frame's memory; `draw` hands three places of that memory to OpenGL.
The two do not share a layout, each computes where the planes are.

Both cut the chroma planes to half the picture's size, rounded down, so at an odd size the last
column or row of FFmpeg's chroma planes is left out.

* `draw_receive`: for a picture of any size, no copy and no texture leaves its memory, and the
  textures are the planes of the picture, cut so.
-/

namespace Rtstream

open Slices

/-- A plane of an `AVFrame`. -/
structure AvPlane where
  data : Bytes
  linesize : ℕ
  deriving DecidableEq, Repr

namespace AvPlane

variable (p : AvPlane)

/-- The plane has that many rows, each as long as that. -/
def Holds (width height : ℕ) : Prop := width ≤ p.linesize ∧ height * p.linesize ≤ p.data.length

instance (width height : ℕ) : Decidable (p.Holds width height) :=
  inferInstanceAs (Decidable (_ ∧ _))

/-- What is to be seen of it. -/
def pixels (width height : ℕ) : List Bytes :=
  (List.range height).map fun i => slice p.data (i * p.linesize) width

end AvPlane

/-- A decoded picture, as FFmpeg hands it out. -/
structure AvFrame where
  width : ℕ
  height : ℕ
  y : AvPlane
  u : AvPlane
  v : AvPlane
  width_pos : 0 < width
  height_pos : 0 < height
  /-- `av_image_check_size` -/
  size_lt : width * height < 2 ^ 28
  holds_y : y.Holds width height
  holds_u : u.Holds ((width + 1) / 2) ((height + 1) / 2)
  holds_v : v.Holds ((width + 1) / 2) ((height + 1) / 2)
  deriving DecidableEq, Repr

namespace FfmpegDecoder

/-- The copies that `receive` makes, in this order. -/
def copies (a : AvFrame) : List (BlockCopy UInt8) :=
  let ysize := a.width * a.height
  (List.range a.height).map (.row 0 a.width a.y.data a.y.linesize) ++
    (List.range (a.height / 2)).flatMap fun i =>
      [.row ysize (a.width / 2) a.u.data a.u.linesize i,
        .row (ysize + ysize / 4) (a.width / 2) a.v.data a.v.linesize i]

/-- `receive`, when FFmpeg has a picture. A copy that leaves its memory gives `none`. -/
def receive (a : AvFrame) (captureUs wallUs frameId : Int) : Option Frame := do
  let ysize := a.width * a.height
  let data ← BlockCopy.runAll (copies a) (List.replicate (ysize * 3 / 2) 0)
  return {
    captureUs, wallUs, frameId
    width := UInt32.ofNat a.width
    height := UInt32.ofNat a.height
    fmt := .i420
    data }

end FfmpegDecoder

/-- libavcodec, with the decoder's context in `σ`. -/
structure Avcodec (σ : Type) where
  /-- `avcodec_find_decoder` -/
  findDecoder : Bool
  /-- `avcodec_alloc_context3` -/
  allocContext3 : Option σ
  /-- `avcodec_open2`, on a context for low delay. -/
  open2 : σ → Int × σ
  /-- `av_packet_alloc` -/
  packetAlloc : Bool
  /-- `av_frame_alloc` -/
  frameAlloc : Bool
  /-- `AVERROR(EAGAIN)` -/
  eagain : Int
  /-- `avcodec_send_packet`, on a packet's data, its size and its time stamp. -/
  sendPacket : σ → Bytes → Int → Int → Int × σ
  /-- `avcodec_receive_frame` -/
  receiveFrame : σ → Option AvFrame × σ

/-- What `decode` comes to. -/
inductive Decoded
  /-- It returns `false`. -/
  | nothing
  /-- It returns `true`, with the frame that is a copy of the picture. -/
  | frame (a : AvFrame) (f : Frame)
  /-- A copy past the end of the frame's memory. -/
  | overrun (a : AvFrame)
  deriving DecidableEq, Repr

namespace FfmpegDecoder

variable {σ : Type}

/-- `open` -/
def openWith (lib : Avcodec σ) : Except String σ :=
  if !lib.findDecoder then .error "h264 decoder not found"
  else match lib.allocContext3 with
    | none => .error "avcodec_alloc_context3 failed"
    | some ctx =>
      let r := lib.open2 ctx
      if r.1 < 0 then .error "avcodec_open2 failed"
      else if !lib.packetAlloc || !lib.frameAlloc then .error "av_packet/av_frame alloc failed"
      else .ok r.2

/-- `decode`: the label of the frame is that of the unit, whichever picture FFmpeg has ready. -/
def decode (lib : Avcodec σ) (ctx : σ) (ef : EncodedFrame) : σ × Decoded :=
  let sent := lib.sendPacket ctx ef.data (Int.bmod ef.data.length (2 ^ 32)) ef.frameId
  if sent.1 < 0 ∧ sent.1 ≠ lib.eagain then (sent.2, .nothing)
  else
    let r := lib.receiveFrame sent.2
    match r.1 with
    | none => (r.2, .nothing)
    | some a => match receive a ef.captureUs ef.wallUs ef.frameId with
      | none => (r.2, .overrun a)
      | some f => (r.2, .frame a f)

end FfmpegDecoder

/-- The three textures, row by row. -/
structure Textures where
  y : List Bytes
  u : List Bytes
  v : List Bytes
  deriving DecidableEq, Repr

/-- The planes of a picture, the chroma planes cut to half its size, rounded down. At an odd size
FFmpeg's own have one column or row more. -/
def AvFrame.planes (a : AvFrame) : Textures where
  y := a.y.pixels a.width a.height
  u := a.u.pixels (a.width / 2) (a.height / 2)
  v := a.v.pixels (a.width / 2) (a.height / 2)

namespace GlRenderer

/-- What `glTexImage2D` reads, with rows that are not aligned; `none` when it leaves the memory. -/
def upload (data : Bytes) (base : UInt64) (w h : UInt32) : Option (List Bytes) :=
  if base.toNat + h.toNat * w.toNat ≤ data.length then
    some ((List.range h.toNat).map fun i => slice data (base.toNat + i * w.toNat) w.toNat)
  else none

/-- `draw` -/
def draw (f : Frame) : Option Textures := do
  let ysize := f.width.toUInt64 * f.height.toUInt64
  let y ← upload f.data 0 f.width f.height
  let u ← upload f.data ysize (f.width / 2) (f.height / 2)
  let v ← upload f.data (ysize + ysize / 4) (f.width / 2) (f.height / 2)
  return { y, u, v }

end GlRenderer

/-! ## The planes -/

namespace FfmpegDecoder

variable (a : AvFrame)

theorem fits_row {p : AvPlane} {width height base size i : ℕ} (hp : p.Holds width height)
    (hsize : base + height * width ≤ size) (hi : i < height) :
    (BlockCopy.row base width p.data p.linesize i).Fits size := by
  have hplace : (i + 1) * width ≤ height * width := Nat.mul_le_mul_right _ hi
  have hsource : (i + 1) * p.linesize ≤ height * p.linesize := Nat.mul_le_mul_right _ hi
  rw [Nat.succ_mul] at hplace hsource
  have hwidth := hp.1
  have hdata := hp.2
  refine ⟨?_, ?_⟩
  · show base + i * width + width ≤ size
    omega
  · show i * p.linesize + width ≤ p.data.length
    omega

theorem disjoint_row (base width : ℕ) (src : Bytes) (pitch : ℕ) {i j : ℕ} (hij : i < j) :
    (BlockCopy.row base width src pitch i).Disjoint (.row base width src pitch j) := by
  have hle : (i + 1) * width ≤ j * width := Nat.mul_le_mul_right _ hij
  rw [Nat.succ_mul] at hle
  left
  show base + i * width + width ≤ base + j * width
  omega

theorem holds_mono {p : AvPlane} {width height width' height' : ℕ} (h : p.Holds width height)
    (hwidth : width' ≤ width) (hheight : height' ≤ height) : p.Holds width' height' :=
  ⟨hwidth.trans h.1, (Nat.mul_le_mul_right _ hheight).trans h.2⟩

theorem holds_half_u : a.u.Holds (a.width / 2) (a.height / 2) :=
  holds_mono a.holds_u (Nat.div_le_div_right (Nat.le_succ _)) (Nat.div_le_div_right (Nat.le_succ _))

theorem holds_half_v : a.v.Holds (a.width / 2) (a.height / 2) :=
  holds_mono a.holds_v (Nat.div_le_div_right (Nat.le_succ _)) (Nat.div_le_div_right (Nat.le_succ _))

/-- A plane of half the size takes at most a quarter of the room, also when it is rounded. -/
theorem chroma_le (width height : ℕ) : height / 2 * (width / 2) ≤ width * height / 4 := by
  have hmul : height / 2 * 2 * (width / 2 * 2) ≤ height * width :=
    Nat.mul_le_mul (Nat.div_mul_le_self _ _) (Nat.div_mul_le_self _ _)
  rw [Nat.le_div_iff_mul_le (by decide), Nat.mul_comm width height]
  calc height / 2 * (width / 2) * 4 = height / 2 * 2 * (width / 2 * 2) := by ring
    _ ≤ height * width := hmul

theorem mem_copies {c : BlockCopy UInt8} : c ∈ copies a ↔
    (∃ i < a.height, c = .row 0 a.width a.y.data a.y.linesize i) ∨
      ∃ i < a.height / 2,
        c = .row (a.width * a.height) (a.width / 2) a.u.data a.u.linesize i ∨
        c = .row (a.width * a.height + a.width * a.height / 4) (a.width / 2) a.v.data
          a.v.linesize i := by
  simp only [copies, List.mem_append, List.mem_map, List.mem_range, List.mem_flatMap,
    List.mem_cons, List.not_mem_nil, or_false, eq_comm]

theorem fits_copies : ∀ c ∈ copies a, c.Fits (a.width * a.height * 3 / 2) := by
  have hchroma := chroma_le a.width a.height
  have hluma : a.height * a.width = a.width * a.height := Nat.mul_comm _ _
  intro c hc
  rcases (mem_copies a).1 hc with ⟨i, hi, rfl⟩ | ⟨i, hi, rfl | rfl⟩
  · exact fits_row a.holds_y (by omega) hi
  · exact fits_row (holds_half_u a) (by omega) hi
  · exact fits_row (holds_half_v a) (by omega) hi

theorem row_le {width height i : ℕ} (hi : i < height) : i * width + width ≤ height * width := by
  have hle : (i + 1) * width ≤ height * width := Nat.mul_le_mul_right _ hi
  rwa [Nat.succ_mul] at hle

/-- **No two copies write to the same place.** -/
theorem disjoint_copies : (copies a).Pairwise BlockCopy.Disjoint := by
  have hchroma := chroma_le a.width a.height
  have hluma : a.height * a.width = a.width * a.height := Nat.mul_comm _ _
  -- A row of the first chroma plane, and one of the second.
  have hcross : ∀ i j, i < a.height / 2 →
      (BlockCopy.row (a.width * a.height) (a.width / 2) a.u.data a.u.linesize i).Disjoint
        (.row (a.width * a.height + a.width * a.height / 4) (a.width / 2) a.v.data
          a.v.linesize j) := by
    intro i j hi
    have hrow : i * (a.width / 2) + a.width / 2 ≤ a.height / 2 * (a.width / 2) := row_le hi
    left
    show a.width * a.height + i * (a.width / 2) + a.width / 2 ≤
      a.width * a.height + a.width * a.height / 4 + j * (a.width / 2)
    omega
  refine List.pairwise_append.2 ⟨?_, ?_, fun c hc c' hc' => ?_⟩
  · exact List.pairwise_map.2 (List.pairwise_lt_range.imp fun hij => disjoint_row _ _ _ _ hij)
  · refine List.pairwise_flatMap.2 ⟨fun i hi => ?_, ?_⟩
    · simpa using hcross i i (List.mem_range.1 hi)
    · refine List.pairwise_lt_range.imp_of_mem fun {i j} hi hj hij c hc c' hc' => ?_
      simp only [List.mem_cons, List.not_mem_nil, or_false] at hc hc'
      rcases hc with rfl | rfl <;> rcases hc' with rfl | rfl
      · exact disjoint_row _ _ _ _ hij
      · exact hcross i j (List.mem_range.1 hi)
      · exact (hcross j i (List.mem_range.1 hj)).symm
      · exact disjoint_row _ _ _ _ hij
  · obtain ⟨i, hi, rfl⟩ := List.mem_map.1 hc
    have hrow : i * a.width + a.width ≤ a.height * a.width := row_le (List.mem_range.1 hi)
    have hbase : a.width * a.height ≤ c'.dst := by
      obtain ⟨j, -, hj⟩ := List.mem_flatMap.1 hc'
      simp only [List.mem_cons, List.not_mem_nil, or_false] at hj
      rcases hj with rfl | rfl
      · exact Nat.le_add_right _ _
      · exact (Nat.le_add_right _ _).trans (Nat.le_add_right _ _)
    left
    show 0 + i * a.width + a.width ≤ c'.dst
    omega

/-- What `receive` makes of a picture. -/
theorem exists_receive (captureUs wallUs frameId : Int) :
    ∃ f, receive a captureUs wallUs frameId = some f ∧ f.captureUs = captureUs ∧
      f.wallUs = wallUs ∧ f.frameId = frameId ∧ f.width = UInt32.ofNat a.width ∧
      f.height = UInt32.ofNat a.height ∧ f.fmt = .i420 ∧
      f.data.length = a.width * a.height * 3 / 2 ∧
      ∀ c ∈ copies a, slice f.data c.dst c.len = c.block := by
  have hsize : (List.replicate (a.width * a.height * 3 / 2) (0 : UInt8)).length =
      a.width * a.height * 3 / 2 := List.length_replicate
  obtain ⟨data, hrun, hlen⟩ := BlockCopy.exists_runAll (hsize.symm ▸ fits_copies a)
  let f : Frame :=
    { captureUs, wallUs, frameId, width := UInt32.ofNat a.width, height := UInt32.ofNat a.height
      fmt := .i420, data }
  refine ⟨f, ?_, rfl, rfl, rfl, rfl, rfl, rfl, hlen.trans hsize,
    BlockCopy.slice_runAll hrun (disjoint_copies a)⟩
  rw [receive, hrun]
  rfl

/-- **What `decode` does**: it has no picture, or a copy of one, under the label of the unit. -/
theorem decode_cases {σ : Type} (lib : Avcodec σ) (ctx : σ) (ef : EncodedFrame) :
    (∃ ctx', decode lib ctx ef = (ctx', .nothing)) ∨
      ∃ ctx' a f, decode lib ctx ef = (ctx', .frame a f) ∧
        receive a ef.captureUs ef.wallUs ef.frameId = some f := by
  simp only [decode]
  split_ifs with hsent
  · exact .inl ⟨_, rfl⟩
  · generalize lib.receiveFrame _ = r
    cases hr : r.1 with
    | none => exact .inl ⟨r.2, rfl⟩
    | some a =>
      obtain ⟨f, hf, -⟩ := exists_receive a ef.captureUs ef.wallUs ef.frameId
      exact .inr ⟨r.2, a, f, by simp only [hf], hf⟩

end FfmpegDecoder

namespace GlRenderer

theorem upload_eq {data : Bytes} {p : AvPlane} {base : UInt64} {w h : UInt32}
    (hsize : base.toNat + h.toNat * w.toNat ≤ data.length)
    (hrows : ∀ i < h.toNat, slice data (base.toNat + i * w.toNat) w.toNat =
      slice p.data (i * p.linesize) w.toNat) :
    upload data base w h = some (p.pixels w.toNat h.toNat) := by
  rw [upload, if_pos hsize, AvPlane.pixels]
  exact congrArg some (List.map_congr_left fun i hi => hrows i (List.mem_range.1 hi))

theorem draw_of_receive {a : AvFrame} {captureUs wallUs frameId : Int} {f : Frame}
    (hreceive : FfmpegDecoder.receive a captureUs wallUs frameId = some f) :
    draw f = some a.planes := by
  obtain ⟨g, hg, -, -, -, hw, hh, -, hlen, hcopies⟩ :=
    FfmpegDecoder.exists_receive a captureUs wallUs frameId
  obtain rfl := Option.some.inj (hreceive.symm.trans hg)
  have hchroma := FfmpegDecoder.chroma_le a.width a.height
  have hsize := a.size_lt
  have hwidth : a.width < 2 ^ 28 :=
    (Nat.le_mul_of_pos_right _ a.height_pos).trans_lt hsize
  have hheight : a.height < 2 ^ 28 :=
    (Nat.le_mul_of_pos_left _ a.width_pos).trans_lt hsize
  have hw' : f.width.toNat = a.width := by
    rw [hw, UInt32.toNat_ofNat']
    exact Nat.mod_eq_of_lt (hwidth.trans (by decide))
  have hh' : f.height.toNat = a.height := by
    rw [hh, UInt32.toNat_ofNat']
    exact Nat.mod_eq_of_lt (hheight.trans (by decide))
  have hhalfw : (f.width / 2).toNat = a.width / 2 := by rw [UInt32.toNat_div, hw']; rfl
  have hhalfh : (f.height / 2).toNat = a.height / 2 := by rw [UInt32.toNat_div, hh']; rfl
  have hysize : (f.width.toUInt64 * f.height.toUInt64).toNat = a.width * a.height := by
    rw [UInt64.toNat_mul, UInt32.toNat_toUInt64, UInt32.toNat_toUInt64, hw', hh']
    exact Nat.mod_eq_of_lt (hsize.trans (by decide))
  have hvbase : (f.width.toUInt64 * f.height.toUInt64 +
      f.width.toUInt64 * f.height.toUInt64 / 4).toNat =
        a.width * a.height + a.width * a.height / 4 := by
    rw [UInt64.toNat_add, UInt64.toNat_div, hysize]
    show (a.width * a.height + a.width * a.height / 4) % 2 ^ 64 = _
    omega
  -- Each plane stands where the texture is read.
  have hy : upload f.data 0 f.width f.height = some (a.y.pixels a.width a.height) := by
    rw [upload_eq (p := a.y), hw', hh']
    · rw [hw', hh', hlen]
      show 0 + a.height * a.width ≤ a.width * a.height * 3 / 2
      rw [Nat.mul_comm a.height]
      omega
    · intro i hi
      rw [hh'] at hi
      rw [hw']
      exact hcopies _ ((FfmpegDecoder.mem_copies a).2 (.inl ⟨i, hi, rfl⟩))
  have hu : upload f.data (f.width.toUInt64 * f.height.toUInt64) (f.width / 2) (f.height / 2) =
      some (a.u.pixels (a.width / 2) (a.height / 2)) := by
    rw [upload_eq (p := a.u), hhalfw, hhalfh]
    · rw [hhalfw, hhalfh, hysize, hlen]
      omega
    · intro i hi
      rw [hhalfh] at hi
      rw [hhalfw, hysize]
      exact hcopies _ ((FfmpegDecoder.mem_copies a).2 (.inr ⟨i, hi, .inl rfl⟩))
  have hv : upload f.data (f.width.toUInt64 * f.height.toUInt64 +
      f.width.toUInt64 * f.height.toUInt64 / 4) (f.width / 2) (f.height / 2) =
      some (a.v.pixels (a.width / 2) (a.height / 2)) := by
    rw [upload_eq (p := a.v), hhalfw, hhalfh]
    · rw [hhalfw, hhalfh, hvbase, hlen]
      omega
    · intro i hi
      rw [hhalfh] at hi
      rw [hhalfw, hvbase]
      exact hcopies _ ((FfmpegDecoder.mem_copies a).2 (.inr ⟨i, hi, .inr rfl⟩))
  simp only [draw, hy, hu, hv, Option.bind_eq_bind, Option.bind_some, Option.pure_def]
  rfl

/-- **The textures are the planes of the picture.** For a picture of any size and any padding, no
copy of `receive` and no texture of `draw` leaves its memory, and what is drawn are the picture's
luma plane and the first rows and columns of its chroma planes, half its size and rounded down. -/
theorem draw_receive (a : AvFrame) (captureUs wallUs frameId : Int) :
    (FfmpegDecoder.receive a captureUs wallUs frameId).bind draw =
      some
        { y := a.y.pixels a.width a.height
          u := a.u.pixels (a.width / 2) (a.height / 2)
          v := a.v.pixels (a.width / 2) (a.height / 2) } := by
  obtain ⟨f, hf, -⟩ := FfmpegDecoder.exists_receive a captureUs wallUs frameId
  rw [hf, Option.bind_some]
  exact draw_of_receive hf

end GlRenderer

end Rtstream
