import Mathlib.Order.Interval.Set.Basic
import Mathlib.Tactic.Common

/-!
# `web_previewer.h`, `jpeg_encoder.h`: where the preview is scaled to

The previewer scales each frame to a width of 640 and the height that keeps its shape. The encoder
has one buffer for the three planes, as large as a luma plane and two quarters of one. The scaler
rounds the height of the chroma planes up. FFmpeg is a parameter: whether it accepts a size.

`planes_fit_iff`: the three planes lie in the buffer, apart from each other, exactly when the
height is even. `odd_height_overflows` is a resolution of a camera that makes it odd.
-/

namespace Rtstream

/-! ## The code -/

/-- What FFmpeg answers. -/
structure Ffmpeg where
  /-- `avcodec_find_encoder` -/
  findEncoder : Bool
  /-- `avcodec_alloc_context3` -/
  allocContext : Bool
  /-- `avcodec_open2`, for a size and the coarsest quantiser. -/
  open2 : Int → Int → Int → Bool
  /-- `av_frame_get_buffer`, for a size. -/
  frameGetBuffer : Int → Int → Bool
  /-- `sws_getContext`, from one size to another. -/
  getContext : Int → Int → Int → Int → Bool

structure JpegEncoder where
  srcW : UInt32
  srcH : UInt32
  outW : UInt32
  outH : UInt32
  /-- The size of `scaled_`. -/
  scaled : UInt64
  deriving DecidableEq, Repr

namespace JpegEncoder

/-- `static_cast<int>` -/
def toInt (x : UInt32) : Int := x.toInt32.toInt

/-- `static_cast<size_t>(out_w_) * out_h_` -/
def area (outW outH : UInt32) : UInt64 := outW.toUInt64 * outH.toUInt64

/-- `std::clamp(31 - quality * 29 / 100, 2, 31)` -/
def qmax (quality : Int) : Int := max 2 (min (31 - (quality * 29).tdiv 100) 31)

/-- `open` -/
def openFor (lib : Ffmpeg) (srcW srcH outW outH : UInt32) (quality : Int) :
    Except String JpegEncoder :=
  if !lib.findEncoder then .error "mjpeg encoder not found"
  else if !lib.allocContext then .error "alloc mjpeg ctx failed"
  else if !lib.open2 (toInt outW) (toInt outH) (qmax quality) then
    .error "avcodec_open2 mjpeg failed"
  else if !lib.frameGetBuffer (toInt outW) (toInt outH) then .error "av_frame_get_buffer failed"
  else if !lib.getContext (toInt srcW) (toInt srcH) (toInt outW) (toInt outH) then
    .error "sws_getContext failed"
  else .ok { srcW, srcH, outW, outH, scaled := area outW outH * 3 / 2 }

end JpegEncoder

/-- `WebPreviewer::start`, up to the threads. -/
def startPreview (lib : Ffmpeg) (width height : UInt32) : Except String JpegEncoder :=
  if width < 64 ∨ height < 64 then .error "invalid preview size"
  else JpegEncoder.openFor lib width height 640 (640 * height / width) 85

/-! ## Planes -/

/-- Rows of bytes in a buffer. -/
structure Plane where
  offset : ℕ
  stride : ℕ
  rowBytes : ℕ
  rows : ℕ

namespace Plane

/-- The bytes that are written. -/
def bytes (p : Plane) : Set ℕ :=
  {a | ∃ r < p.rows, ∃ c < p.rowBytes, a = p.offset + r * p.stride + c}

/-- Rows without gaps are an interval. -/
theorem bytes_of_packed {p : Plane} (h : p.rowBytes = p.stride) :
    p.bytes = Set.Ico p.offset (p.offset + p.rows * p.stride) := by
  ext a
  simp only [bytes, h, Set.mem_ofPred_eq, Set.mem_Ico]
  constructor
  · rintro ⟨r, hr, c, hc, rfl⟩
    have hrow : (r + 1) * p.stride ≤ p.rows * p.stride := Nat.mul_le_mul_right _ hr
    rw [Nat.add_mul, Nat.one_mul] at hrow
    omega
  · rintro ⟨hlo, hhi⟩
    have hpos : 0 < p.stride := by
      by_contra hzero
      rw [Nat.eq_zero_of_not_pos hzero, Nat.mul_zero] at hhi
      omega
    have hrow : (a - p.offset) / p.stride < p.rows := by
      apply Nat.div_lt_of_lt_mul
      rw [Nat.mul_comm]
      omega
    refine ⟨_, hrow, _, Nat.mod_lt (a - p.offset) hpos, ?_⟩
    have hdiv := Nat.div_add_mod' (a - p.offset) p.stride
    omega

end Plane

namespace JpegEncoder

variable (e : JpegEncoder)

/-- The rows of a chroma plane, and their bytes, are half those of the luma plane, rounded up. -/
def chroma (offset : ℕ) : Plane where
  offset := offset
  stride := (e.outW / 2).toNat
  rowBytes := (e.outW.toNat + 1) / 2
  rows := (e.outH.toNat + 1) / 2

/-- The planes that `encode` has the scaler write. -/
def dst : List Plane :=
  [{ offset := 0, stride := e.outW.toNat, rowBytes := e.outW.toNat, rows := e.outH.toNat },
    e.chroma (area e.outW e.outH).toNat,
    e.chroma (area e.outW e.outH * 5 / 4).toNat]

/-- The planes lie in the buffer, apart from each other. -/
def PlanesFit : Prop :=
  e.dst.Pairwise (fun p q => ∀ a ∈ p.bytes, a ∉ q.bytes) ∧
    ∀ p ∈ e.dst, ∀ a ∈ p.bytes, a < e.scaled.toNat

variable {e}

theorem openFor_eq_ok {lib : Ffmpeg} {srcW srcH outW outH : UInt32} {quality : Int}
    (h : openFor lib srcW srcH outW outH quality = .ok e) :
    e = { srcW, srcH, outW, outH, scaled := area outW outH * 3 / 2 } := by
  rw [openFor] at h
  split_ifs at h
  exact (Except.ok.inj h).symm

/-- With a width of 640, the products have room in 64 bits. -/
theorem area_640 (outH : UInt32) {n : ℕ} (hn : n ≤ 5) :
    (area 640 outH * UInt64.ofNat n).toNat = 640 * outH.toNat * n := by
  have hlt := outH.toNat_lt
  have harea : (area 640 outH).toNat = 640 * outH.toNat := by
    rw [area, UInt64.toNat_mul, UInt32.toNat_toUInt64, UInt32.toNat_toUInt64]
    show 640 * outH.toNat % 2 ^ 64 = _
    omega
  rw [UInt64.toNat_mul, harea, UInt64.toNat_ofNat', Nat.mod_eq_of_lt (by omega : n < 2 ^ 64)]
  apply Nat.mod_eq_of_lt
  have hmul : 640 * outH.toNat * n ≤ 640 * outH.toNat * 5 := Nat.mul_le_mul_left _ hn
  omega

/-- The encoder of the previewer. -/
def preview (srcW srcH outH : UInt32) : JpegEncoder :=
  { srcW, srcH, outW := 640, outH, scaled := area 640 outH * 3 / 2 }

section Preview

variable (srcW srcH outH : UInt32)

theorem scaled_preview : (preview srcW srcH outH).scaled.toNat = 960 * outH.toNat := by
  have harea := area_640 outH (by decide : 3 ≤ 5)
  rw [preview, UInt64.toNat_div]
  show (area 640 outH * UInt64.ofNat 3).toNat / 2 = _
  rw [harea]
  omega

theorem toNat_area_640 : (area 640 outH).toNat = 640 * outH.toNat := by
  have harea := area_640 outH (by decide : 1 ≤ 5)
  rwa [Nat.mul_one, show UInt64.ofNat 1 = 1 from rfl, UInt64.mul_one] at harea

theorem toNat_area_640_mul_five_div_four :
    (area 640 outH * 5 / 4).toNat = 800 * outH.toNat := by
  have harea := area_640 outH (by decide : 5 ≤ 5)
  rw [UInt64.toNat_div]
  show (area 640 outH * UInt64.ofNat 5).toNat / 4 = _
  rw [harea]
  omega

theorem bytes_chroma_preview (offset : ℕ) : ((preview srcW srcH outH).chroma offset).bytes =
    Set.Ico offset (offset + (outH.toNat + 1) / 2 * 320) := by
  have hstride : ((preview srcW srcH outH).chroma offset).stride = 320 := by
    show ((640 : UInt32) / 2).toNat = 320
    decide
  have hrow : ((preview srcW srcH outH).chroma offset).rowBytes = 320 := by
    show ((640 : UInt32).toNat + 1) / 2 = 320
    decide
  rw [Plane.bytes_of_packed (hrow.trans hstride.symm), hstride]
  rfl

/-- The chroma planes are meant to be a quarter of the luma plane each. -/
theorem map_bytes_dst_preview :
    (preview srcW srcH outH).dst.map Plane.bytes =
      [Set.Ico 0 (outH.toNat * 640),
        Set.Ico (640 * outH.toNat) (640 * outH.toNat + (outH.toNat + 1) / 2 * 320),
        Set.Ico (800 * outH.toNat) (800 * outH.toNat + (outH.toNat + 1) / 2 * 320)] := by
  have hluma : Plane.bytes { offset := 0, stride := 640, rowBytes := 640, rows := outH.toNat } =
      Set.Ico 0 (0 + outH.toNat * 640) := Plane.bytes_of_packed rfl
  have hdst : (preview srcW srcH outH).dst =
      [{ offset := 0, stride := 640, rowBytes := 640, rows := outH.toNat },
        (preview srcW srcH outH).chroma (640 * outH.toNat),
        (preview srcW srcH outH).chroma (800 * outH.toNat)] := by
    show [_, JpegEncoder.chroma _ (area 640 outH).toNat,
      JpegEncoder.chroma _ (area 640 outH * 5 / 4).toNat] = _
    rw [toNat_area_640, toNat_area_640_mul_five_div_four]
    rfl
  rw [Nat.zero_add] at hluma
  simp only [hdst, List.map_cons, List.map_nil, hluma, bytes_chroma_preview]

/-- **The planes fit** if and only if the height is even. -/
theorem planesFit_preview_iff : (preview srcW srcH outH).PlanesFit ↔ outH.toNat % 2 = 0 := by
  have hbytes := map_bytes_dst_preview srcW srcH outH
  have hapart : (preview srcW srcH outH).dst.Pairwise (fun p q => ∀ a ∈ p.bytes, a ∉ q.bytes) ↔
      ((preview srcW srcH outH).dst.map Plane.bytes).Pairwise fun s t => ∀ a ∈ s, a ∉ t := by
    rw [List.pairwise_map]
  have hinside : (∀ p ∈ (preview srcW srcH outH).dst, ∀ a ∈ p.bytes, a < 960 * outH.toNat) ↔
      ∀ s ∈ (preview srcW srcH outH).dst.map Plane.bytes, ∀ a ∈ s, a < 960 * outH.toNat := by
    rw [List.forall_mem_map]
  rw [PlanesFit, scaled_preview, hapart, hinside, hbytes]
  generalize outH.toNat = h
  constructor
  · rintro ⟨-, hin⟩
    by_contra hodd
    -- The last byte of the last plane.
    have hlast : 800 * h + (h + 1) / 2 * 320 - 1 ∈
        Set.Ico (800 * h) (800 * h + (h + 1) / 2 * 320) := ⟨by omega, by omega⟩
    have hlt := hin _ (by simp) _ hlast
    omega
  · intro heven
    have hhalf : (h + 1) / 2 * 320 = 160 * h := by omega
    rw [hhalf]
    constructor
    · simp only [List.pairwise_cons, List.mem_cons, List.not_mem_nil, or_false, forall_eq_or_imp,
        forall_eq, false_imp_iff, forall_const, List.Pairwise.nil, and_true, Set.mem_Ico]
      refine ⟨⟨fun a ha hb => ?_, fun a ha hb => ?_⟩, fun a ha hb => ?_⟩ <;> omega
    · simp only [List.mem_cons, List.not_mem_nil, or_false, forall_eq_or_imp, forall_eq,
        Set.mem_Ico]
      refine ⟨fun a ha => ?_, fun a ha => ?_, fun a ha => ?_⟩ <;> omega

end Preview

theorem eq_preview {lib : Ffmpeg} {width height : UInt32} {e : JpegEncoder}
    (h : startPreview lib width height = .ok e) :
    e = preview width height (640 * height / width) := by
  rw [startPreview] at h
  split_ifs at h
  exact openFor_eq_ok h

end JpegEncoder

/-- **The scaling buffer is large enough** for the preview of an accepted size exactly when the
height that it is scaled to is even. -/
theorem planes_fit_iff {lib : Ffmpeg} {width height : UInt32} {e : JpegEncoder}
    (h : startPreview lib width height = .ok e) :
    e.PlanesFit ↔ (640 * height / width).toNat % 2 = 0 := by
  rw [JpegEncoder.eq_preview h]
  exact JpegEncoder.planesFit_preview_iff width height (640 * height / width)

/-- FFmpeg, for the sizes that it accepts. -/
def acceptingFfmpeg : Ffmpeg where
  findEncoder := true
  allocContext := true
  open2 w h _ := 0 < w && 0 < h
  frameGetBuffer w h := 0 < w && 0 < h
  getContext sw sh dw dh := 0 < sw && 0 < sh && 0 < dw && 0 < dh

/-- At 1280×720 the preview is 640×360. -/
theorem planes_fit_720p :
    startPreview acceptingFfmpeg 1280 720 = .ok (JpegEncoder.preview 1280 720 360) ∧
      (JpegEncoder.preview 1280 720 360).PlanesFit := by
  have hstart :
      startPreview acceptingFfmpeg 1280 720 = .ok (JpegEncoder.preview 1280 720 360) := rfl
  exact ⟨hstart, (planes_fit_iff hstart).2 (by decide)⟩

/-- At 352×288, the size of many small cameras, the preview is 640×523. -/
theorem odd_height_overflows :
    startPreview acceptingFfmpeg 352 288 = .ok (JpegEncoder.preview 352 288 523) ∧
      ¬ (JpegEncoder.preview 352 288 523).PlanesFit := by
  refine ⟨rfl, fun hfit => ?_⟩
  exact absurd ((JpegEncoder.planesFit_preview_iff 352 288 523).1 hfit) (by decide)

end Rtstream
