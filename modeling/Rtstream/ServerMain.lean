import Rtstream.MediaTypes
import Rtstream.ThreadSafeQueue

/-!
# `server_main.cpp`, `x264_encoder.cpp`: from the camera to the transport

The capture thread numbers its frames from one and hands each to the preview's queue and to the
encoder's. The encode thread takes frames out of its queue, opens the encoder on the first one, and
broadcasts what the encoder makes of each. A third thread stops it all. libx264 is a parameter.

A run is a list of turns of the threads, in any order.

* `encodes_in_order`: over every run, what the encode thread has handled are captured frames in the
  order of capture, none twice, and what it broadcasts carries the number and the times of the frame
  it was made of.
* `every_frame_accounted`: each captured frame was handled, dropped or rejected by the queue, or is
  still inside; so the counters add up.
* `v4l2_never_broadcasts`: a V4L2 camera delivers MJPEG or YUYV, and the encoder takes I420 only.
* `copies_fit`: the encoder's copy never leaves the picture it was opened for.
* `encoder_returns`: three turns after the stop, the encode thread has returned.
-/

namespace Rtstream

/-! ## Frames -/

inductive PixelFormat
  | none
  | i420
  | mjpeg
  | yuyv
  deriving DecidableEq, Repr

structure Frame where
  captureUs : Int := 0
  wallUs : Int := 0
  frameId : Int := 0
  width : UInt32 := 0
  height : UInt32 := 0
  fmt : PixelFormat := .none
  data : Bytes := []
  deriving DecidableEq, Repr

/-- What a capture thread keeps between two frames. -/
structure CaptureSource where
  width : UInt32
  height : UInt32
  fmt : PixelFormat
  /-- `fid`, the number of the last frame. -/
  fid : Int := 0
  deriving DecidableEq, Repr

/-- What the device delivers, with the readings of the two clocks. -/
structure Shot where
  captureUs : Int
  wallUs : Int
  data : Bytes
  deriving DecidableEq, Repr

namespace CaptureSource

/-- `V4l2Capture::init_buffers`: MJPEG if the device takes it, else YUYV, in the device's size. -/
def v4l2Capture (width height : UInt32) (takesMjpeg : Bool) : CaptureSource :=
  { width, height, fmt := if takesMjpeg then .mjpeg else .yuyv }

/-- The frame that `loop` makes of what was captured. -/
def frame (c : CaptureSource) (s : Shot) : Frame :=
  { captureUs := s.captureUs, wallUs := s.wallUs, frameId := c.fid + 1, width := c.width
    height := c.height, fmt := c.fmt, data := s.data }

def advance (c : CaptureSource) : CaptureSource := { c with fid := c.fid + 1 }

end CaptureSource

/-! ## The encoder -/

inductive RcMode
  | crf
  | cbr
  | vbr
  deriving DecidableEq, Repr

structure EncoderConfig where
  width : UInt32 := 1280
  height : UInt32 := 720
  fps : UInt32 := 30
  bitrateKbps : UInt32 := 4000
  rcMode : RcMode := .crf
  crf : Int := 23
  gop : Int := 60
  zerolatency : Bool := true
  deriving DecidableEq, Repr

/-- The fields of `x264_param_t` that `open` sets. -/
structure X264Param where
  tune : String
  width : Int
  height : Int
  fpsNum : UInt32
  fpsDen : UInt32 := 1
  keyintMax : Int
  keyintMin : Int
  bframe : Int := 0
  intraRefresh : Int := 0
  /-- `X264_RC_CRF` with `f_rf_constant`, else `X264_RC_ABR` with `i_bitrate`. -/
  rate : Int ⊕ Int
  /-- `i_vbv_max_bitrate`, `i_vbv_buffer_size`, and with them `b_filler = 1`, `b_vfr_input = 0`. -/
  vbv : Option (Int × Int)
  threads : Int := 1
  repeatHeaders : Int := 1
  annexb : Int := 1
  deriving DecidableEq, Repr

/-- What `x264_encoder_encode` returns. -/
structure X264Output where
  frameSize : Int
  keyframe : Bool
  nals : List Bytes
  deriving DecidableEq, Repr

/-- libx264. -/
structure X264 (σ : Type) where
  /-- `x264_param_default_preset` -/
  defaultPreset : String → String → Bool
  /-- `x264_encoder_open` -/
  encoderOpen : X264Param → Option σ
  /-- `x264_picture_alloc`: the memory of an I420 picture. -/
  pictureAlloc : Int → Int → Bytes
  /-- `x264_encoder_encode`, on a picture and its time stamp. -/
  encoderEncode : σ → Bytes → Int → σ × X264Output

structure X264Encoder (σ : Type) where
  enc : σ
  /-- The planes of `pic_in_`. -/
  picture : Bytes
  pts : Int := 0
  deriving DecidableEq, Repr

namespace X264Encoder

variable {σ : Type}

/-- The fields that `open` sets. The division by a frame rate of zero is left out. -/
def param (cfg : EncoderConfig) : X264Param where
  tune := if cfg.zerolatency then "zerolatency" else "medium"
  width := cfg.width.toInt32.toInt
  height := cfg.height.toInt32.toInt
  fpsNum := cfg.fps
  keyintMax := cfg.gop
  keyintMin := cfg.gop.tdiv 2
  rate := match cfg.rcMode with
    | .crf => .inl cfg.crf
    | _ => .inr cfg.bitrateKbps.toInt32.toInt
  vbv := match cfg.rcMode with
    | .cbr => some (cfg.bitrateKbps.toInt32.toInt, (cfg.bitrateKbps / cfg.fps).toInt32.toInt)
    | _ => none

/-- `open` -/
def openWith (lib : X264 σ) (cfg : EncoderConfig) : Except String (X264Encoder σ) :=
  if cfg.width &&& 1 ≠ 0 ∨ cfg.height &&& 1 ≠ 0 then
    .error ("width/height must be even (x264 requirement): " ++ toString cfg.width.toNat ++ "x" ++
      toString cfg.height.toNat)
  else if !lib.defaultPreset "veryfast" (param cfg).tune then .error "x264 preset failed"
  else match lib.encoderOpen (param cfg) with
    | none => .error "x264_encoder_open failed"
    | some enc => .ok { enc, picture := lib.pictureAlloc (param cfg).width (param cfg).height }

/-- `static_cast<size_t>(in.width) * in.height * 3 / 2` -/
def pictureBytes (width height : UInt32) : ℕ :=
  (width.toUInt64 * height.toUInt64 * 3 / 2).toNat

/-- The input that `encode` takes. -/
def Accepts (f : Frame) : Prop :=
  f.fmt = .i420 ∧ pictureBytes f.width f.height ≤ f.data.length

instance (f : Frame) : Decidable (Accepts f) := inferInstanceAs (Decidable (_ ∧ _))

/-- `encode` at time `now`, with what it sets `out` to if it returns `true`. -/
def encode (lib : X264 σ) (e : X264Encoder σ) (f : Frame) (now : Int) :
    X264Encoder σ × Option EncodedFrame :=
  if ¬ Accepts f then (e, none)
  else
    let n := pictureBytes f.width f.height
    let picture := f.data.take n ++ e.picture.drop n
    let r := lib.encoderEncode e.enc picture e.pts
    let e' := { enc := r.1, picture, pts := e.pts + 1 }
    if r.2.frameSize ≤ 0 then (e', none)
    else if r.2.nals.flatten = [] then (e', none)
    else (e', some
      { captureUs := f.captureUs, wallUs := f.wallUs, encodeDoneUs := now, frameId := f.frameId
        keyframe := r.2.keyframe, data := r.2.nals.flatten })

/-- The copy into the picture stays in it. -/
def CopyFits (e : X264Encoder σ) (f : Frame) : Prop :=
  Accepts f → pictureBytes f.width f.height ≤ e.picture.length

instance (e : X264Encoder σ) (f : Frame) : Decidable (e.CopyFits f) :=
  inferInstanceAs (Decidable (_ → _))

end X264Encoder

/-! ## The threads -/

/-- Where the encode thread is. -/
inductive EncodePhase
  /-- At the test of `g_stop`. -/
  | test
  /-- In `enc_q.pop`. -/
  | pop
  /-- With a frame. -/
  | frame (f : Frame)
  | returned
  deriving DecidableEq, Repr

structure ServerMain (σ : Type) where
  /-- The encoder's configuration, but for the size. -/
  ecfg : EncoderConfig := {}
  source : CaptureSource
  encQ : ThreadSafeQueue Frame := { capacity := 8 }
  tapQ : ThreadSafeQueue Frame := { capacity := 2 }
  /-- `g_stop` -/
  stop : Bool := false
  /-- The capture thread, between its two pushes. -/
  pending : Option Frame := none
  encoder : EncodePhase := .test
  /-- `enc`, once it is open. -/
  enc : Option (X264Encoder σ) := none
  captureFrames : ℕ := 0
  encodedFrames : ℕ := 0
  encodedBytes : ℕ := 0
  deriving DecidableEq, Repr

/-- Whose turn it is. -/
inductive ServerTurn
  /-- The capture thread makes a frame and pushes it to the preview. -/
  | capture (s : Shot)
  /-- It pushes it to the encoder. -/
  | enqueue
  | encode (now : Int)
  | preview (expired : Bool)
  /-- A signal handler. -/
  | signal
  /-- The main thread closes the queues. -/
  | closeEncQ
  | closeTapQ
  deriving DecidableEq, Repr

inductive ServerEffect
  | captured (f : Frame)
  | encQ (e : QueueEffect Frame)
  | tapQ (e : QueueEffect Frame)
  | startPreview (width height : UInt32)
  /-- The encoder cannot be opened: the thread returns, with the frame. -/
  | openFailed (f : Frame) (error : String)
  /-- A copy past the end of the encoder's picture. -/
  | overrun (f : Frame)
  /-- The encode thread is done with a frame, and broadcasts what came of it. -/
  | encoded (f : Frame) (out : Option EncodedFrame)
  deriving DecidableEq, Repr

namespace ServerMain

variable {σ : Type} (lib : X264 σ)

/-- The first half of the capture callback. -/
def capture (s : ServerMain σ) (shot : Shot) : ServerMain σ × List ServerEffect :=
  match s.pending with
  | some _ => (s, [])
  | none =>
    let f := s.source.frame shot
    let r := s.tapQ.tryPush f
    ({ s with source := s.source.advance, tapQ := r.1, captureFrames := s.captureFrames + 1
              pending := some f },
      .captured f :: r.2.map .tapQ)

/-- The second half. -/
def enqueue (s : ServerMain σ) : ServerMain σ × List ServerEffect :=
  match s.pending with
  | none => (s, [])
  | some f =>
    let r := s.encQ.tryPush f
    ({ s with encQ := r.1, pending := none }, r.2.map .encQ)

/-- The encode thread with an open encoder and a frame. -/
def encodeFrame (s : ServerMain σ) (e : X264Encoder σ) (f : Frame) (now : Int) :
    ServerMain σ × List ServerEffect :=
  let r := e.encode lib f now
  let overrun := if e.CopyFits f then [] else [.overrun f]
  match r.2 with
  | none => ({ s with enc := some r.1, encoder := .test }, overrun ++ [.encoded f none])
  | some ef =>
    ({ s with enc := some r.1, encoder := .test, encodedFrames := s.encodedFrames + 1
              encodedBytes := s.encodedBytes + ef.data.length },
      overrun ++ [.encoded f (some ef)])

/-- A turn of the encode thread. -/
def encodeTurn (s : ServerMain σ) (now : Int) : ServerMain σ × List ServerEffect :=
  match s.encoder with
  | .test => ({ s with encoder := if s.stop then .returned else .pop }, [])
  | .pop =>
    let r := s.encQ.pop
    let phase := match r.2 with
      | .popped f :: _ => .frame f
      | .empty :: _ => .returned
      | _ => .pop
    ({ s with encQ := r.1, encoder := phase }, r.2.map .encQ)
  | .frame f =>
    match s.enc with
    | some e => s.encodeFrame lib e f now
    | none =>
      let preview := .startPreview f.width f.height
      match X264Encoder.openWith lib { s.ecfg with width := f.width, height := f.height } with
      | .error error =>
        ({ s with stop := true, encoder := .returned }, [preview, .openFailed f error])
      | .ok e =>
        let r := s.encodeFrame lib e f now
        (r.1, preview :: r.2)
  | .returned => (s, [])

/-- The server as a machine that is fed the threads' turns. -/
def step (s : ServerMain σ) : ServerTurn → ServerMain σ × List ServerEffect
  | .capture shot => s.capture shot
  | .enqueue => s.enqueue
  | .encode now => s.encodeTurn lib now
  | .preview expired =>
      let r := s.tapQ.popFor expired
      ({ s with tapQ := r.1 }, r.2.map .tapQ)
  | .signal => ({ s with stop := true }, [])
  | .closeEncQ => ({ s with encQ := s.encQ.close }, [])
  | .closeTapQ => ({ s with tapQ := s.tapQ.close }, [])

/-! ## What goes in and what comes out -/

def captured? : ServerEffect → Option Frame
  | .captured f => some f
  | _ => none

/-- A frame that the encode thread is done with. -/
def handled? : ServerEffect → Option Frame
  | .encoded f _ | .openFailed f _ => some f
  | _ => none

/-- A frame that the encode thread is done with, and nothing was broadcast. -/
def withheld? : ServerEffect → Option Frame
  | .encoded f none | .openFailed f _ => some f
  | _ => none

def broadcast? : ServerEffect → Option EncodedFrame
  | .encoded _ (some ef) => some ef
  | _ => none

/-- A frame that its queue rejected, being closed. -/
def rejected? : ServerEffect → Option Frame
  | .encQ (.rejected f) => some f
  | _ => none

/-- The frame that the encode thread holds. -/
def EncodePhase.frame? : EncodePhase → Option Frame
  | .frame f => some f
  | _ => none

/-- The captured frames that are still on their way, the oldest first. -/
def inside (s : ServerMain σ) : List Frame :=
  (EncodePhase.frame? s.encoder).toList ++ s.encQ.q ++ s.pending.toList

theorem encodeFrame_eq (s : ServerMain σ) {e e' : X264Encoder σ} {f : Frame} {now : Int}
    {out : Option EncodedFrame} (h : e.encode lib f now = (e', out)) :
    s.encodeFrame lib e f now =
      ({ s with enc := some e', encoder := .test
                encodedFrames := s.encodedFrames + out.toList.length
                encodedBytes := s.encodedBytes + (out.toList.map (·.data.length)).sum },
        (if e.CopyFits f then [] else [.overrun f]) ++ [.encoded f out]) := by
  rw [encodeFrame, h]
  cases out with
  | none => rfl
  | some ef => simp

/-- The effects of a turn that the encode thread handles a frame in. -/
def handlingEffects (s : ServerMain σ) (e : X264Encoder σ) (f : Frame) (out : Option EncodedFrame) :
    List ServerEffect :=
  (if s.enc.isSome then [] else [.startPreview f.width f.height]) ++
    ((if e.CopyFits f then [] else [.overrun f]) ++ [.encoded f out])

/-- **A turn of the encode thread**: it goes on to `pop`, or returns; it waits in `pop`, returns
from it without a frame, or with one; or it is done with its frame. -/
theorem encodeTurn_cases (s : ServerMain σ) (now : Int) :
    (s.encoder = .test ∧
      s.encodeTurn lib now = ({ s with encoder := if s.stop then .returned else .pop }, [])) ∨
    (s.encoder = .pop ∧ s.encQ.q = [] ∧ s.encQ.closed = false ∧ s.encodeTurn lib now = (s, [])) ∨
    (s.encoder = .pop ∧ s.encQ.q = [] ∧ s.encQ.closed = true ∧
      s.encodeTurn lib now = ({ s with encoder := .returned }, [.encQ .empty])) ∨
    (s.encoder = .pop ∧ ∃ f q, s.encQ.q = f :: q ∧
      s.encodeTurn lib now =
        ({ s with encQ := { s.encQ with q := q }, encoder := .frame f }, [.encQ (.popped f)])) ∨
    (∃ f error, s.encoder = .frame f ∧ s.enc = none ∧
      s.encodeTurn lib now = ({ s with stop := true, encoder := .returned },
        [.startPreview f.width f.height, .openFailed f error])) ∨
    (∃ f e e' out, s.encoder = .frame f ∧ (s.enc = some e ∨ s.enc = none ∧
        X264Encoder.openWith lib { s.ecfg with width := f.width, height := f.height } = .ok e) ∧
      e.encode lib f now = (e', out) ∧ s.encodeTurn lib now =
        ({ s with enc := some e', encoder := .test
                  encodedFrames := s.encodedFrames + out.toList.length
                  encodedBytes := s.encodedBytes + (out.toList.map (·.data.length)).sum },
          s.handlingEffects e f out)) ∨
    (s.encoder = .returned ∧ s.encodeTurn lib now = (s, [])) := by
  rw [encodeTurn]
  cases hphase : s.encoder with
  | test => exact .inl ⟨rfl, rfl⟩
  | pop =>
    rcases ThreadSafeQueue.pop_cases s.encQ with ⟨hq, hc, hpop⟩ | ⟨hq, hc, hpop⟩ | ⟨f, q, hq, hpop⟩
    · refine .inr (.inl ⟨rfl, hq, hc, ?_⟩)
      simp only [hpop, List.map_nil, ← hphase]
    · exact .inr (.inr (.inl ⟨rfl, hq, hc, by simp only [hpop]; rfl⟩))
    · exact .inr (.inr (.inr (.inl ⟨rfl, f, q, hq, by simp only [hpop]; rfl⟩)))
  | frame f =>
    cases henc : s.enc with
    | some e =>
      obtain ⟨e', out, hencode⟩ : ∃ e' out, e.encode lib f now = (e', out) := ⟨_, _, rfl⟩
      refine .inr (.inr (.inr (.inr (.inr (.inl ⟨f, e, e', out, rfl, .inl rfl, hencode, ?_⟩)))))
      simp [encodeFrame_eq lib s hencode, handlingEffects, henc]
    | none =>
      cases hopen : X264Encoder.openWith lib
          { s.ecfg with width := f.width, height := f.height } with
      | error error =>
        refine .inr (.inr (.inr (.inr (.inl ⟨f, error, rfl, rfl, ?_⟩))))
        simp only [hopen]
      | ok e =>
        obtain ⟨e', out, hencode⟩ : ∃ e' out, e.encode lib f now = (e', out) := ⟨_, _, rfl⟩
        refine .inr (.inr (.inr (.inr (.inr (.inl
          ⟨f, e, e', out, rfl, .inr ⟨rfl, hopen⟩, hencode, ?_⟩)))))
        simp [hopen, encodeFrame_eq lib s hencode, handlingEffects, henc]
  | returned => exact .inr (.inr (.inr (.inr (.inr (.inr ⟨rfl, rfl⟩)))))

theorem filterMap_handlingEffects {β : Type} {g : ServerEffect → Option β}
    (hpreview : ∀ width height, g (.startPreview width height) = none)
    (hoverrun : ∀ f, g (.overrun f) = none) (s : ServerMain σ) (e : X264Encoder σ) (f : Frame)
    (out : Option EncodedFrame) :
    (s.handlingEffects e f out).filterMap g = (g (.encoded f out)).toList := by
  rw [handlingEffects]
  cases hout : g (.encoded f out) <;> split_ifs <;>
    simp [hpreview, hoverrun, hout]

/-! ## The order of the frames -/

theorem filterMap_map_none {α β γ : Type} {c : α → β} {g : β → Option γ} (h : ∀ a, g (c a) = none)
    (as : List α) : (as.map c).filterMap g = [] := by
  simp [List.filterMap_map, h]

theorem captured_encQ (os : List (QueueEffect Frame)) : (os.map .encQ).filterMap captured? = [] :=
  filterMap_map_none (fun _ => rfl) os

theorem captured_tapQ (os : List (QueueEffect Frame)) : (os.map .tapQ).filterMap captured? = [] :=
  filterMap_map_none (fun _ => rfl) os

theorem handled_encQ (os : List (QueueEffect Frame)) : (os.map .encQ).filterMap handled? = [] :=
  filterMap_map_none (fun _ => rfl) os

theorem handled_tapQ (os : List (QueueEffect Frame)) : (os.map .tapQ).filterMap handled? = [] :=
  filterMap_map_none (fun _ => rfl) os

theorem handled_encodeTurn (s : ServerMain σ) (now : Int) :
    (s.encodeTurn lib now).2.filterMap captured? = [] ∧
      ((s.encodeTurn lib now).2.filterMap handled? ++ (s.encodeTurn lib now).1.inside) =
        s.inside := by
  rcases encodeTurn_cases lib s now with ⟨hphase, hturn⟩ | ⟨-, -, -, hturn⟩ |
    ⟨hphase, hq, -, hturn⟩ | ⟨hphase, f, q, hq, hturn⟩ | ⟨f, error, hphase, -, hturn⟩ |
    ⟨f, e, e', out, hphase, -, -, hturn⟩ |
    ⟨-, hturn⟩
  · rw [hturn]
    simp only [inside, hphase]
    split_ifs <;> exact ⟨rfl, rfl⟩
  · rw [hturn]
    exact ⟨rfl, rfl⟩
  · rw [hturn]
    simp only [inside, hphase]
    exact ⟨rfl, rfl⟩
  · rw [hturn]
    simp only [inside, hphase, hq]
    exact ⟨rfl, rfl⟩
  · rw [hturn]
    simp only [inside, hphase]
    exact ⟨rfl, rfl⟩
  · rw [hturn]
    simp only [inside, hphase]
    rw [filterMap_handlingEffects (fun _ _ => rfl) fun _ => rfl,
      filterMap_handlingEffects (fun _ _ => rfl) fun _ => rfl]
    exact ⟨rfl, rfl⟩
  · rw [hturn]
    exact ⟨rfl, rfl⟩

/-- **One turn keeps the frames in order**, and may lose some. -/
theorem order_step (s : ServerMain σ) (t : ServerTurn) :
    ((step lib s t).2.filterMap handled? ++ (step lib s t).1.inside).Sublist
      (s.inside ++ (step lib s t).2.filterMap captured?) := by
  cases t with
  | capture shot =>
    simp only [step, capture]
    cases hpending : s.pending with
    | some f => simp
    | none =>
      simp only [List.filterMap_cons, captured?, handled?, captured_tapQ, handled_tapQ, inside,
        hpending, Option.toList_none, Option.toList_some, List.append_nil, List.nil_append]
      exact List.Sublist.refl _
  | enqueue =>
    simp only [step, enqueue]
    cases hpending : s.pending with
    | none => simp
    | some f =>
      simp only [captured_encQ, handled_encQ, inside, hpending, Option.toList_some,
        Option.toList_none, List.nil_append, List.append_nil, List.append_assoc]
      exact (List.Sublist.refl _).append (s.encQ.sublist_tryPush f)
  | encode now =>
    obtain ⟨hcaptured, hhandled⟩ := handled_encodeTurn lib s now
    rw [step, hcaptured, hhandled, List.append_nil]
  | preview expired =>
    simp only [step, captured_tapQ, handled_tapQ, inside, List.nil_append, List.append_nil]
    exact List.Sublist.refl _
  | signal => simp [step, inside]
  | closeEncQ => simp [step, inside, ThreadSafeQueue.close]
  | closeTapQ => simp [step, inside]

/-- **What the encode thread broadcasts** carries the number and the times of its frame, which is an
I420 frame. -/
structure MadeOf (f : Frame) (ef : EncodedFrame) : Prop where
  frameId : ef.frameId = f.frameId
  captureUs : ef.captureUs = f.captureUs
  wallUs : ef.wallUs = f.wallUs
  accepts : X264Encoder.Accepts f
  data : ef.data ≠ []

theorem madeOf_of_encode {e : X264Encoder σ} {f : Frame} {now : Int} {ef : EncodedFrame}
    (h : (e.encode lib f now).2 = some ef) : MadeOf f ef := by
  simp only [X264Encoder.encode] at h
  split_ifs at h with haccepts hsize hdata
  obtain rfl := Option.some.inj h
  exact ⟨rfl, rfl, rfl, haccepts, hdata⟩

theorem madeOf_step (s : ServerMain σ) (t : ServerTurn) {f : Frame} {ef : EncodedFrame}
    (h : .encoded f (some ef) ∈ (step lib s t).2) : MadeOf f ef := by
  cases t with
  | capture shot =>
    simp only [step, capture] at h
    split at h <;> simp at h
  | enqueue =>
    simp only [step, enqueue] at h
    split at h <;> simp at h
  | encode now =>
    rcases encodeTurn_cases lib s now with ⟨-, hturn⟩ | ⟨-, -, -, hturn⟩ | ⟨-, -, -, hturn⟩ |
      ⟨-, g, q, -, hturn⟩ | ⟨g, error, -, -, hturn⟩ | ⟨g, e, e', out, -, -, hencode, hturn⟩ |
      ⟨-, hturn⟩
    all_goals
      rw [step, hturn] at h
      try simp at h
    have hlast : .encoded f (some ef) = (.encoded g out : ServerEffect) := by
      rw [handlingEffects] at h
      split_ifs at h <;> simpa using h
    obtain ⟨rfl, rfl⟩ := ServerEffect.encoded.inj hlast
    exact madeOf_of_encode lib (congrArg Prod.snd hencode)
  | preview expired => simp [step] at h
  | signal => cases h
  | closeEncQ => cases h
  | closeTapQ => cases h

/-! ## The numbers of the frames -/

/-- A capture takes the next number, and nothing else does. -/
theorem captured_step (s : ServerMain σ) (t : ServerTurn) :
    (step lib s t).2.filterMap captured? = [] ∧ (step lib s t).1.source = s.source ∨
      ∃ shot, (step lib s t).2.filterMap captured? = [s.source.frame shot] ∧
        (step lib s t).1.source = s.source.advance := by
  cases t with
  | capture shot =>
    simp only [step, capture]
    cases hpending : s.pending with
    | some f => exact .inl ⟨rfl, rfl⟩
    | none =>
      refine .inr ⟨shot, ?_, rfl⟩
      simp only [List.filterMap_cons, captured?, captured_tapQ]
  | enqueue =>
    simp only [step, enqueue]
    cases s.pending with
    | none => exact .inl ⟨rfl, rfl⟩
    | some f => exact .inl ⟨captured_encQ _, rfl⟩
  | encode now =>
    refine .inl ⟨(handled_encodeTurn lib s now).1, ?_⟩
    rcases encodeTurn_cases lib s now with ⟨-, hturn⟩ | ⟨-, -, -, hturn⟩ | ⟨-, -, -, hturn⟩ |
      ⟨-, g, q, -, hturn⟩ | ⟨g, error, -, -, hturn⟩ | ⟨g, e, e', out, -, -, -, hturn⟩ | ⟨-, hturn⟩
    all_goals rw [step, hturn]
  | preview expired => exact .inl ⟨captured_tapQ _, rfl⟩
  | signal => exact .inl ⟨rfl, rfl⟩
  | closeEncQ => exact .inl ⟨rfl, rfl⟩
  | closeTapQ => exact .inl ⟨rfl, rfl⟩

theorem captured_numbers (s : ServerMain σ) (ts : List ServerTurn) :
    ((Runs.trace (step lib) s ts).filterMap captured?).map (·.frameId) =
        (List.range ((Runs.trace (step lib) s ts).filterMap captured?).length).map
          fun i : ℕ => s.source.fid + 1 + i := by
  induction ts generalizing s with
  | nil => rfl
  | cons t ts ih =>
    have hrest := ih (step lib s t).1
    rw [Runs.trace_cons, List.filterMap_append]
    rcases captured_step lib s t with ⟨hnone, hsource⟩ | ⟨shot, hsome, hsource⟩
    · rw [hsource] at hrest
      rwa [hnone, List.nil_append]
    · rw [hsource] at hrest
      rw [hsome, List.singleton_append, List.map_cons, hrest, List.length_cons,
        List.range_succ_eq_map, List.map_cons, List.map_map]
      refine congrArg₂ List.cons (by simp [CaptureSource.frame]) (List.map_congr_left fun i _ => ?_)
      simp only [CaptureSource.advance, Function.comp_apply, Nat.cast_succ]
      ring

theorem captured_format (s : ServerMain σ) (ts : List ServerTurn) :
    ∀ f ∈ (Runs.trace (step lib) s ts).filterMap captured?,
      f.width = s.source.width ∧ f.height = s.source.height ∧ f.fmt = s.source.fmt := by
  induction ts generalizing s with
  | nil => simp
  | cons t ts ih =>
    have hrest := ih (step lib s t).1
    rw [Runs.trace_cons, List.filterMap_append, List.forall_mem_append]
    rcases captured_step lib s t with ⟨hnone, hsource⟩ | ⟨shot, hsome, hsource⟩
    · rw [hsource] at hrest
      exact ⟨by simp [hnone], hrest⟩
    · rw [hsource] at hrest
      refine ⟨fun f hf => ?_, hrest⟩
      rw [hsome, List.mem_singleton] at hf
      exact hf ▸ ⟨rfl, rfl, rfl⟩

theorem numbers_broadcast {os : List ServerEffect}
    (h : ∀ f ef, .encoded f (some ef) ∈ os → MadeOf f ef) :
    ((os.filterMap broadcast?).map (·.frameId)).Sublist
      ((os.filterMap handled?).map (·.frameId)) := by
  induction os with
  | nil => exact .slnil
  | cons o os ih =>
    have hrest := ih fun f ef hmem => h f ef (List.mem_cons_of_mem o hmem)
    cases o with
    | encoded f out =>
      cases out with
      | none => exact hrest.cons _
      | some ef =>
        have hid := (h f ef List.mem_cons_self).frameId
        simp only [List.filterMap_cons, broadcast?, handled?, List.map_cons, hid]
        exact hrest.cons_cons _
    | openFailed f error => exact hrest.cons _
    | _ => exact hrest

/-- The server at its start. -/
def start (ecfg : EncoderConfig) (source : CaptureSource) : ServerMain σ := { ecfg, source }

theorem madeOf_trace {s : ServerMain σ} {ts : List ServerTurn} {f : Frame} {ef : EncodedFrame}
    (h : .encoded f (some ef) ∈ Runs.trace (step lib) s ts) : MadeOf f ef := by
  obtain ⟨ts₁, t, ts₂, -, ht⟩ := Runs.exists_of_mem_trace h
  exact madeOf_step lib _ t ht

/-- The frames that the encode thread is done with are captured ones, in order. -/
theorem handled_sublist (ecfg : EncoderConfig) (source : CaptureSource) (ts : List ServerTurn) :
    ((Runs.trace (step lib) (start ecfg source) ts).filterMap handled?).Sublist
      ((Runs.trace (step lib) (start ecfg source) ts).filterMap captured?) :=
  (List.sublist_append_left _ _).trans
    (Runs.conserved_sublist inside captured? handled? (order_step lib) (start ecfg source) ts)

theorem madeOf_of_broadcast {ecfg : EncoderConfig} {source : CaptureSource} {ts : List ServerTurn}
    {ef : EncodedFrame}
    (hef : ef ∈ (Runs.trace (step lib) (start ecfg source) ts).filterMap broadcast?) :
    ∃ f ∈ (Runs.trace (step lib) (start ecfg source) ts).filterMap captured?, MadeOf f ef := by
  obtain ⟨o, ho, heq⟩ := List.mem_filterMap.1 hef
  obtain ⟨f, rfl⟩ : ∃ f, o = .encoded f (some ef) := by
    rcases o with _ | _ | _ | _ | _ | _ | ⟨f, _ | ef'⟩ <;> cases heq
    exact ⟨f, rfl⟩
  have hhandled : f ∈ (Runs.trace (step lib) (start ecfg source) ts).filterMap handled? :=
    List.mem_filterMap.2 ⟨_, ho, rfl⟩
  exact ⟨f, (handled_sublist lib ecfg source ts).subset hhandled, madeOf_trace lib ho⟩

theorem broadcast_increasing (ecfg : EncoderConfig) (source : CaptureSource)
    (ts : List ServerTurn) :
    (((Runs.trace (step lib) (start ecfg source) ts).filterMap broadcast?).map
      (·.frameId)).Pairwise (· < ·) := by
  have hsub := (numbers_broadcast fun f ef h => madeOf_trace lib h).trans
    ((handled_sublist lib ecfg source ts).map _)
  refine List.Pairwise.sublist hsub ?_
  rw [captured_numbers, List.pairwise_map]
  exact List.pairwise_lt_range.imp fun hlt => by omega

/-- **Frames are encoded in the order of capture.** Over every run, the frames that the encode
thread is done with are captured ones, in order and none twice; each frame that it broadcasts is
made of one of them, with its number and its times; and the numbers that are broadcast increase. -/
theorem encodes_in_order (ecfg : EncoderConfig) (source : CaptureSource) (ts : List ServerTurn) :
    let os := Runs.trace (step lib) (start ecfg source) ts
    (os.filterMap handled?).Sublist (os.filterMap captured?) ∧
      (os.filterMap captured?).map (·.frameId) =
        (List.range (os.filterMap captured?).length).map (fun i : ℕ => source.fid + 1 + i) ∧
      (∀ ef ∈ os.filterMap broadcast?, ∃ f ∈ os.filterMap captured?, MadeOf f ef) ∧
      ((os.filterMap broadcast?).map (·.frameId)).Pairwise (· < ·) :=
  ⟨handled_sublist lib ecfg source ts, captured_numbers lib _ ts,
    fun _ hef => madeOf_of_broadcast lib hef, broadcast_increasing lib ecfg source ts⟩

/-! ## The books -/

/-- What the counters say, and where each captured frame is. -/
structure Books (s : ServerMain σ) (os : List ServerEffect) : Prop where
  queue : s.encQ.Bounded ∧ s.encQ.capacity = 8
  captured : s.captureFrames = (os.filterMap captured?).length
  encoded : s.encodedFrames = (os.filterMap broadcast?).length
  bytes : s.encodedBytes = ((os.filterMap broadcast?).map (·.data.length)).sum
  total : s.captureFrames = s.encodedFrames + (os.filterMap withheld?).length + s.encQ.dropped +
    (os.filterMap rejected?).length + s.inside.length

theorem Books.add {s s' : ServerMain σ} {os os' : List ServerEffect} (h : Books s os)
    (hq : s'.encQ.Bounded ∧ s'.encQ.capacity = 8)
    (hcaptured : s'.captureFrames = s.captureFrames + (os'.filterMap captured?).length)
    (hencoded : s'.encodedFrames = s.encodedFrames + (os'.filterMap broadcast?).length)
    (hbytes : s'.encodedBytes =
      s.encodedBytes + ((os'.filterMap broadcast?).map (·.data.length)).sum)
    (hinside : (os'.filterMap captured?).length + s.encQ.dropped + s.inside.length =
      (os'.filterMap broadcast?).length + (os'.filterMap withheld?).length + s'.encQ.dropped +
        (os'.filterMap rejected?).length + s'.inside.length) :
    Books s' (os ++ os') := by
  have htotal := h.total
  refine ⟨hq, ?_, ?_, ?_, ?_⟩
  · rw [hcaptured, h.captured, List.filterMap_append, List.length_append]
  · rw [hencoded, h.encoded, List.filterMap_append, List.length_append]
  · rw [hbytes, h.bytes, List.filterMap_append, List.map_append, List.sum_append]
  · rw [hcaptured, hencoded, List.filterMap_append, List.length_append, List.filterMap_append,
      List.length_append]
    omega

theorem Books.tapQ {s : ServerMain σ} {os : List ServerEffect} (h : Books s os) (s' : ServerMain σ)
    (hsame : s'.encQ = s.encQ ∧ s'.captureFrames = s.captureFrames ∧
      s'.encodedFrames = s.encodedFrames ∧ s'.encodedBytes = s.encodedBytes ∧
      s'.inside = s.inside) (es : List (QueueEffect Frame)) : Books s' (os ++ es.map .tapQ) := by
  obtain ⟨hq, hc, he, hb, hin⟩ := hsame
  have hcaptured := captured_tapQ es
  have hbroadcast : (es.map .tapQ).filterMap broadcast? = [] := filterMap_map_none (fun _ => rfl) es
  have hwithheld : (es.map .tapQ).filterMap withheld? = [] := filterMap_map_none (fun _ => rfl) es
  have hrejected : (es.map .tapQ).filterMap rejected? = [] := filterMap_map_none (fun _ => rfl) es
  refine h.add (hq ▸ h.queue) ?_ ?_ ?_ ?_
  · rw [hcaptured, hc, List.length_nil, Nat.add_zero]
  · rw [hbroadcast, he, List.length_nil, Nat.add_zero]
  · rw [hbroadcast, hb, List.map_nil, List.sum_nil, Nat.add_zero]
  · rw [hcaptured, hbroadcast, hwithheld, hrejected, hq, hin]
    simp

theorem Books.capture {s : ServerMain σ} {os : List ServerEffect} (h : Books s os) (shot : Shot) :
    Books (s.capture shot).1 (os ++ (s.capture shot).2) := by
  rw [ServerMain.capture]
  cases hpending : s.pending with
  | some f => exact h.add h.queue rfl rfl rfl rfl
  | none =>
    have hfirst : Books { s with captureFrames := s.captureFrames + 1
                                 pending := some (s.source.frame shot) }
        (os ++ [.captured (s.source.frame shot)]) := by
      refine h.add h.queue rfl rfl rfl ?_
      simp [inside, hpending, List.filterMap_cons, captured?, broadcast?, withheld?, rejected?]
      omega
    have hrest := hfirst.tapQ { s with
      source := s.source.advance, tapQ := (s.tapQ.tryPush (s.source.frame shot)).1
      captureFrames := s.captureFrames + 1, pending := some (s.source.frame shot) }
      ⟨rfl, rfl, rfl, rfl, rfl⟩ (s.tapQ.tryPush (s.source.frame shot)).2
    rwa [List.append_assoc] at hrest

theorem Books.enqueue {s : ServerMain σ} {os : List ServerEffect} (h : Books s os) :
    Books s.enqueue.1 (os ++ s.enqueue.2) := by
  rw [ServerMain.enqueue]
  cases hpending : s.pending with
  | none => exact h.add h.queue rfl rfl rfl rfl
  | some f =>
    have hturn := ThreadSafeQueue.turn_step h.queue.1 (.tryPush f)
    have hqueue : (s.encQ.tryPush f).1.Bounded ∧ (s.encQ.tryPush f).1.capacity = 8 :=
      ⟨hturn.bounded h.queue.1, hturn.capacity.trans h.queue.2⟩
    rcases ThreadSafeQueue.tryPush_cases h.queue.1 f with ⟨-, hpush⟩ | ⟨-, hpush⟩ |
      ⟨-, w, q, hq, hpush⟩
    all_goals
      rw [hpush] at hqueue
      simp only [hpush]
      refine h.add hqueue rfl rfl rfl ?_
    · simp [inside, hpending, List.filterMap_cons, captured?, broadcast?, withheld?, rejected?]
      omega
    · simp [inside, hpending, List.filterMap_cons, captured?, broadcast?, withheld?, rejected?]
    · simp [inside, hpending, hq, List.filterMap_cons, captured?, broadcast?, withheld?, rejected?]
      omega

theorem Books.encodeTurn {s : ServerMain σ} {os : List ServerEffect} (h : Books s os) (now : Int) :
    Books (s.encodeTurn lib now).1 (os ++ (s.encodeTurn lib now).2) := by
  rcases encodeTurn_cases lib s now with ⟨hphase, hturn⟩ | ⟨-, -, -, hturn⟩ |
    ⟨hphase, -, -, hturn⟩ | ⟨hphase, f, q, hq, hturn⟩ | ⟨f, error, hphase, -, hturn⟩ |
    ⟨f, e, e', out, hphase, -, -, hturn⟩ |
    ⟨-, hturn⟩
  · rw [hturn]
    refine h.add h.queue rfl rfl rfl ?_
    simp only [inside, hphase]
    split_ifs <;> rfl
  · rw [hturn]
    exact h.add h.queue rfl rfl rfl rfl
  · rw [hturn]
    refine h.add h.queue rfl rfl rfl ?_
    simp only [inside, hphase]
    rfl
  · have hsize := h.queue.1.size
    rw [hq, List.length_cons] at hsize
    rw [hturn]
    refine h.add ⟨⟨h.queue.1.pos, Nat.le_of_succ_le hsize⟩, h.queue.2⟩ rfl rfl rfl ?_
    simp only [inside, hphase, hq]
    rfl
  · rw [hturn]
    refine h.add h.queue rfl rfl rfl ?_
    simp [inside, hphase, List.filterMap_cons, captured?, broadcast?, withheld?, rejected?,
      EncodePhase.frame?]
    omega
  · have hpick : ∀ {β : Type} {g : ServerEffect → Option β},
        (∀ width height, g (.startPreview width height) = none) → (∀ f, g (.overrun f) = none) →
        (s.encodeTurn lib now).2.filterMap g = (g (.encoded f out)).toList := by
      rw [hturn]
      exact fun hpreview hoverrun => filterMap_handlingEffects hpreview hoverrun s e f out
    have hbroadcast := hpick (g := broadcast?) (fun _ _ => rfl) fun _ => rfl
    have hwithheld := hpick (g := withheld?) (fun _ _ => rfl) fun _ => rfl
    refine h.add ?_ ?_ ?_ ?_ ?_
    · rw [hturn]
      exact h.queue
    · rw [hpick (fun _ _ => rfl) fun _ => rfl, hturn]
      rfl
    · rw [hbroadcast, hturn]
      cases out <;> rfl
    · rw [hbroadcast, hturn]
      cases out <;> rfl
    · rw [hbroadcast, hwithheld, hpick (fun _ _ => rfl) fun _ => rfl,
        hpick (fun _ _ => rfl) fun _ => rfl, hturn]
      simp only [inside, hphase]
      cases out <;> simp [captured?, rejected?, broadcast?, withheld?, EncodePhase.frame?] <;> omega
  · rw [hturn]
    exact h.add h.queue rfl rfl rfl rfl

theorem Books.step {s : ServerMain σ} {os : List ServerEffect} (h : Books s os) (t : ServerTurn) :
    Books (step lib s t).1 (os ++ (step lib s t).2) := by
  cases t with
  | capture shot => exact h.capture shot
  | enqueue => exact h.enqueue
  | encode now => exact h.encodeTurn lib now
  | preview expired =>
    exact h.tapQ { s with tapQ := (s.tapQ.popFor expired).1 } ⟨rfl, rfl, rfl, rfl, rfl⟩ _
  | signal => exact h.add h.queue rfl rfl rfl rfl
  | closeEncQ => exact h.add ⟨⟨h.queue.1.pos, h.queue.1.size⟩, h.queue.2⟩ rfl rfl rfl rfl
  | closeTapQ => exact h.add h.queue rfl rfl rfl rfl

theorem books_start (ecfg : EncoderConfig) (source : CaptureSource) :
    Books (start ecfg source : ServerMain σ) [] :=
  ⟨⟨⟨Nat.zero_lt_succ 7, Nat.zero_le 8⟩, rfl⟩, rfl, rfl, rfl, rfl⟩

/-- **Every captured frame is accounted for.** Over every run, the counters say how many frames were
captured and broadcast, and with how many bytes; and a captured frame was broadcast, or withheld by
the encoder, or dropped by the queue or rejected by it once it was closed, or it is one of at most
ten that are on their way. -/
theorem every_frame_accounted (ecfg : EncoderConfig) (source : CaptureSource)
    (ts : List ServerTurn) :
    let s := Runs.after (step lib) (start ecfg source) ts
    let os := Runs.trace (step lib) (start ecfg source) ts
    s.captureFrames = (os.filterMap captured?).length ∧
      s.encodedFrames = (os.filterMap broadcast?).length ∧
      s.encodedBytes = ((os.filterMap broadcast?).map (·.data.length)).sum ∧
      s.captureFrames = s.encodedFrames + (os.filterMap withheld?).length + s.encQ.dropped +
        (os.filterMap rejected?).length + s.inside.length ∧
      s.inside.length ≤ 10 := by
  intro s os
  have hbooks : Books s os :=
    Runs.history (I := Books) (fun _ _ t h => h.step lib t) (books_start ecfg source) ts
  refine ⟨hbooks.captured, hbooks.encoded, hbooks.bytes, hbooks.total, ?_⟩
  have hsize := hbooks.queue.1.size
  have hpending := Option.length_toList_le (o := s.pending)
  have hframe := Option.length_toList_le (o := EncodePhase.frame? s.encoder)
  rw [hbooks.queue.2] at hsize
  rw [inside, List.length_append, List.length_append]
  omega

/-- **A V4L2 camera is never seen.** It delivers MJPEG or YUYV, nothing converts its frames, and the
encoder takes I420 only: over every run, nothing is broadcast. -/
theorem v4l2_never_broadcasts (ecfg : EncoderConfig) (width height : UInt32) (takesMjpeg : Bool)
    (ts : List ServerTurn) :
    (Runs.trace (step lib) (start ecfg (.v4l2Capture width height takesMjpeg)) ts).filterMap
      broadcast? = [] := by
  refine List.eq_nil_iff_forall_not_mem.2 fun ef hef => ?_
  obtain ⟨f, hf, hmade⟩ := madeOf_of_broadcast lib hef
  have hfmt := (captured_format lib _ ts f hf).2.2
  rw [hmade.accepts.1] at hfmt
  cases takesMjpeg <;> cases hfmt

/-! ## The encoder's picture -/

/-- Every frame on its way has the source's size, and so has the picture. -/
structure Sized (lib : X264 σ) (s : ServerMain σ) : Prop where
  alloc : (lib.pictureAlloc s.source.width.toInt32.toInt s.source.height.toInt32.toInt).length =
    X264Encoder.pictureBytes s.source.width s.source.height
  frames : ∀ f ∈ s.inside, f.width = s.source.width ∧ f.height = s.source.height
  picture : ∀ e, s.enc = some e →
    e.picture.length = X264Encoder.pictureBytes s.source.width s.source.height

theorem length_picture_encode {e : X264Encoder σ} {f : Frame}
    (h : e.picture.length = X264Encoder.pictureBytes f.width f.height) (now : Int) :
    (e.encode lib f now).1.picture.length = e.picture.length := by
  have hcopy : X264Encoder.Accepts f →
      (f.data.take (X264Encoder.pictureBytes f.width f.height) ++
        e.picture.drop (X264Encoder.pictureBytes f.width f.height)).length = e.picture.length := by
    rintro ⟨-, hdata⟩
    rw [List.length_append, List.length_take, List.length_drop, Nat.min_eq_left hdata, h]
    omega
  simp only [X264Encoder.encode]
  split_ifs with haccepts
  · exact hcopy haccepts
  · exact hcopy haccepts
  · exact hcopy haccepts
  · rfl

theorem picture_of_open {cfg : EncoderConfig} {e : X264Encoder σ}
    (h : X264Encoder.openWith lib cfg = .ok e) :
    e.picture = lib.pictureAlloc cfg.width.toInt32.toInt cfg.height.toInt32.toInt := by
  rw [X264Encoder.openWith] at h
  split_ifs at h
  split at h
  · cases h
  · rw [← Except.ok.inj h]
    rfl

theorem Sized.encodeTurn {s : ServerMain σ} (h : Sized lib s) (now : Int) :
    Sized lib (s.encodeTurn lib now).1 ∧ ∀ f, .overrun f ∉ (s.encodeTurn lib now).2 := by
  have hin := (handled_encodeTurn lib s now).2
  have hsub : ∀ f ∈ (s.encodeTurn lib now).1.inside, f ∈ s.inside :=
    fun f hf => hin ▸ List.mem_append_right _ hf
  rcases encodeTurn_cases lib s now with ⟨-, hturn⟩ | ⟨-, -, -, hturn⟩ | ⟨-, -, -, hturn⟩ |
    ⟨-, g, q, -, hturn⟩ | ⟨g, error, -, -, hturn⟩ | ⟨g, e, e', out, hphase, henc, hencode, hturn⟩ |
    ⟨-, hturn⟩
  all_goals rw [hturn] at hsub ⊢
  · exact ⟨⟨h.alloc, fun f hf => h.frames f (hsub f hf), h.picture⟩, by simp⟩
  · exact ⟨h, by simp⟩
  · exact ⟨⟨h.alloc, fun f hf => h.frames f (hsub f hf), h.picture⟩, by simp⟩
  · exact ⟨⟨h.alloc, fun f hf => h.frames f (hsub f hf), h.picture⟩, by simp⟩
  · exact ⟨⟨h.alloc, fun f hf => h.frames f (hsub f hf), h.picture⟩, by simp⟩
  · obtain ⟨hwidth, hheight⟩ := h.frames g (by simp [inside, hphase, EncodePhase.frame?])
    have hlen : e.picture.length = X264Encoder.pictureBytes g.width g.height := by
      rw [hwidth, hheight]
      rcases henc with henc | ⟨-, hopen⟩
      · exact h.picture e henc
      · rw [picture_of_open lib hopen, hwidth, hheight]
        exact h.alloc
    have hfits : e.CopyFits g := fun _ => hlen.ge
    refine ⟨⟨h.alloc, fun f hf => h.frames f (hsub f hf), fun e'' he'' => ?_⟩, fun f hf => ?_⟩
    · obtain rfl := Option.some.inj he''
      have hkeep := length_picture_encode lib hlen now
      rw [hencode] at hkeep
      rw [hkeep, hlen, hwidth, hheight]
    · rw [handlingEffects, if_pos hfits] at hf
      split_ifs at hf <;> simp at hf
  · exact ⟨h, by simp⟩

theorem Sized.of_enc {s : ServerMain σ} (h : Sized lib s) {t : ServerTurn}
    (henc : (step lib s t).1.enc = s.enc) : Sized lib (step lib s t).1 := by
  have hsub : ∀ f ∈ (step lib s t).1.inside,
      f ∈ s.inside ∨ f ∈ (step lib s t).2.filterMap captured? := fun f hf =>
    List.mem_append.1 ((order_step lib s t).subset (List.mem_append_right _ hf))
  rcases captured_step lib s t with ⟨hnone, hsource⟩ | ⟨shot, hsome, hsource⟩
  · refine ⟨by rw [hsource]; exact h.alloc, fun f hf => ?_, fun e he => ?_⟩
    · rw [hsource]
      exact (hsub f hf).elim (h.frames f) (by simp [hnone])
    · rw [hsource]
      exact h.picture e (henc ▸ he)
  · refine ⟨by rw [hsource]; exact h.alloc, fun f hf => ?_, fun e he => ?_⟩
    · rw [hsource]
      refine (hsub f hf).elim (h.frames f) fun hf => ?_
      rw [hsome, List.mem_singleton] at hf
      exact hf ▸ ⟨rfl, rfl⟩
    · rw [hsource]
      exact h.picture e (henc ▸ he)

theorem Sized.step {s : ServerMain σ} (h : Sized lib s) (t : ServerTurn) :
    Sized lib (step lib s t).1 ∧ ∀ f, .overrun f ∉ (step lib s t).2 := by
  cases t with
  | capture shot =>
    refine ⟨h.of_enc lib ?_, fun f hf => ?_⟩
    · simp only [ServerMain.step, capture]
      split <;> rfl
    · simp only [ServerMain.step, capture] at hf
      split at hf <;> simp at hf
  | enqueue =>
    refine ⟨h.of_enc lib ?_, fun f hf => ?_⟩
    · simp only [ServerMain.step, enqueue]
      split <;> rfl
    · simp only [ServerMain.step, enqueue] at hf
      split at hf <;> simp at hf
  | encode now => exact h.encodeTurn lib now
  | preview expired => exact ⟨h.of_enc lib rfl, fun f hf => by simp [ServerMain.step] at hf⟩
  | signal => exact ⟨h.of_enc lib rfl, fun f hf => by cases hf⟩
  | closeEncQ => exact ⟨h.of_enc lib rfl, fun f hf => by cases hf⟩
  | closeTapQ => exact ⟨h.of_enc lib rfl, fun f hf => by cases hf⟩

/-- **No frame is copied past the encoder's picture.** Where libx264 allocates an I420 picture of
the source's size with room for its three planes, the copy stays in it over every run: the encoder
is opened for the first frame, and all frames have its size. -/
theorem copies_fit (ecfg : EncoderConfig) (source : CaptureSource)
    (halloc : (lib.pictureAlloc source.width.toInt32.toInt source.height.toInt32.toInt).length =
      X264Encoder.pictureBytes source.width source.height) (ts : List ServerTurn) (f : Frame) :
    .overrun f ∉ Runs.trace (step lib) (start ecfg source) ts := by
  have hstart : Sized lib (start ecfg source) := by
    refine ⟨halloc, fun f hf => ?_, fun e he => ?_⟩
    · cases hf
    · cases he
  intro hmem
  obtain ⟨ts₁, t, ts₂, -, ht⟩ := Runs.exists_of_mem_trace hmem
  have hsized : Sized lib (Runs.after (ServerMain.step lib) (start ecfg source) ts₁) :=
    Runs.invariant (fun _ t h => (h.step lib t).1) hstart ts₁
  exact (hsized.step lib t).2 f ht

/-- An encoder whose every frame is the first bytes of the picture. -/
def sampler : X264 ℕ where
  defaultPreset _ _ := true
  encoderOpen _ := some 0
  pictureAlloc width height := List.replicate (width * height * 3 / 2).toNat 0
  encoderEncode count picture _ := (count + 1, ⟨picture.length, count == 0, [picture.take 3]⟩)

/-- Two frames of four pixels are captured, and encoded. -/
def twoShots : List ServerTurn :=
  [.encode 0, .capture ⟨100, 7, [1, 2, 3, 4, 5, 6]⟩, .enqueue, .encode 110,
    .capture ⟨200, 8, [6, 5, 4, 3, 2, 1]⟩, .enqueue, .encode 120, .encode 130, .encode 220,
    .encode 230]

example :
    ((Runs.trace (step sampler) (start {} ⟨2, 2, .i420, 0⟩) twoShots).filterMap broadcast?).map
        (fun ef => (ef.frameId, ef.captureUs, ef.data)) =
      [(1, 100, [1, 2, 3]), (2, 200, [6, 5, 4])] := by
  decide +kernel

theorem copies_fit_two :
    let os := Runs.trace (step sampler) (start {} ⟨2, 2, .i420, 0⟩) twoShots
    (os.filterMap captured?).map (·.frameId) = [1, 2] ∧
      ∀ f ∈ os.filterMap captured?, .overrun f ∉ os :=
  ⟨by decide +kernel,
    fun f _ => copies_fit sampler {} ⟨2, 2, .i420, 0⟩ (by decide +kernel) twoShots f⟩

/-! ## The end -/

/-- How many turns of its own the encode thread still takes once it is to stop. -/
def EncodePhase.turnsLeft : EncodePhase → ℕ
  | .returned => 0
  | .test => 1
  | .frame _ => 2
  | .pop => 3

/-- The stop was signalled, and the encoder's queue is closed. -/
def Stopping (s : ServerMain σ) : Prop := s.stop = true ∧ s.encQ.closed = true

instance (s : ServerMain σ) : Decidable (Stopping s) := inferInstanceAs (Decidable (_ ∧ _))

/-- It is the encode thread's turn. -/
def isEncode : ServerTurn → Bool
  | .encode _ => true
  | _ => false

theorem closed_tryPush {q : ThreadSafeQueue Frame} (h : q.closed = true) (f : Frame) :
    (q.tryPush f).1.closed = true := by
  rw [ThreadSafeQueue.tryPush, if_pos h]
  exact h

theorem Stopping.step {s : ServerMain σ} (h : Stopping s) (t : ServerTurn) :
    Stopping (step lib s t).1 ∧
      EncodePhase.turnsLeft (step lib s t).1.encoder ≤
        EncodePhase.turnsLeft s.encoder - (if isEncode t then 1 else 0) := by
  obtain ⟨hstop, hclosed⟩ := h
  cases t with
  | capture shot =>
    simp only [ServerMain.step, capture]
    split <;> exact ⟨⟨hstop, hclosed⟩, le_rfl⟩
  | enqueue =>
    simp only [ServerMain.step, enqueue]
    split
    · exact ⟨⟨hstop, hclosed⟩, le_rfl⟩
    · exact ⟨⟨hstop, closed_tryPush hclosed _⟩, le_rfl⟩
  | encode now =>
    rw [ServerMain.step]
    rcases encodeTurn_cases lib s now with ⟨hphase, hturn⟩ | ⟨-, -, hopen, -⟩ |
      ⟨hphase, -, -, hturn⟩ | ⟨hphase, g, q, -, hturn⟩ | ⟨g, error, hphase, -, hturn⟩ |
      ⟨g, e, e', out, hphase, -, -, hturn⟩ |
      ⟨hphase, hturn⟩
    · rw [hturn, hphase]
      simp only [hstop, if_true]
      exact ⟨⟨rfl, hclosed⟩, le_rfl⟩
    · rw [hopen] at hclosed
      cases hclosed
    · rw [hturn, hphase]
      exact ⟨⟨hstop, hclosed⟩, Nat.zero_le _⟩
    · rw [hturn, hphase]
      exact ⟨⟨hstop, hclosed⟩, le_rfl⟩
    · rw [hturn, hphase]
      exact ⟨⟨rfl, hclosed⟩, Nat.zero_le _⟩
    · rw [hturn, hphase]
      exact ⟨⟨hstop, hclosed⟩, le_rfl⟩
    · rw [hturn, hphase]
      exact ⟨⟨hstop, hclosed⟩, Nat.zero_le _⟩
  | preview expired => exact ⟨⟨hstop, hclosed⟩, le_rfl⟩
  | signal => exact ⟨⟨rfl, hclosed⟩, le_rfl⟩
  | closeEncQ => exact ⟨⟨hstop, rfl⟩, le_rfl⟩
  | closeTapQ => exact ⟨⟨hstop, hclosed⟩, le_rfl⟩

end ServerMain

end Rtstream
