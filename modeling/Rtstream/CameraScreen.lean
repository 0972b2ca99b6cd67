import Rtstream.CameraLink
import Rtstream.ClientMain

/-!
# From the camera to the screen

The server's threads, its UDP transport, the network, and the client: what its receiver hands out
goes into the queue of the decode thread.

A run is a list of turns of all of them, in any order. It is a run of the link, and one of the
client on what the link hands out.

* `shows_what_was_captured`: what is drawn has the number of a captured frame, and shows the picture
  that the decoder had when it was given what the encoder made of that frame.
* `shows_in_order`: the numbers of the frames that are shown increase.
-/

namespace Rtstream

open UdpServer

/-- Whose turn it is. -/
inductive ScreenEvent
  /-- The server, the network or the receiver. -/
  | link (e : CameraEvent)
  /-- The client's decode thread. -/
  | decode
  /-- Its main thread. -/
  | main (opens shouldClose expired : Bool)

namespace CameraScreen

variable {σ τ : Type} (lib : X264 σ) (av : Avcodec τ)

/-- The link as the client's threads see it. -/
def receiver (s : Network.State (ServerMain σ × UdpHost) Bytes UdpReceiver) :
    ScreenEvent → Network.State (ServerMain σ × UdpHost) Bytes UdpReceiver × List ClientMainTurn
  | .link e =>
      let r := (CameraLink.link lib).step s e
      (r.1, (UdpLink.outputs r.2).map .hand)
  | .decode => (s, [.decode])
  | .main opens shouldClose expired => (s, [.main opens shouldClose expired])

/-- The whole system. Its effects are those of the client. -/
def system : Runs.Machine
    (Network.State (ServerMain σ × UdpHost) Bytes UdpReceiver × ClientMain τ) ScreenEvent
    ClientMainEffect :=
  Runs.pipe (receiver lib) (ClientMain.step av)

/-- The system at its start. -/
def start (cfg : ServerConfig) (ecfg : EncoderConfig) (source : CaptureSource) (window : Bool) :
    Network.State (ServerMain σ × UdpHost) Bytes UdpReceiver × ClientMain τ :=
  (CameraLink.start cfg ecfg source, .start window)

def link? : ScreenEvent → Option CameraEvent
  | .link e => some e
  | _ => none

def hand? : ClientMainTurn → Option EncodedFrame
  | .hand ef => some ef
  | _ => none

theorem handed_receiver (s : Network.State (ServerMain σ × UdpHost) Bytes UdpReceiver)
    (es : List ScreenEvent) :
    (Runs.trace (receiver lib) s es).filterMap hand? =
      UdpLink.outputs (Runs.trace (CameraLink.link lib).step s (es.filterMap link?)) := by
  induction es generalizing s with
  | nil => rfl
  | cons e es ih =>
    cases e with
    | link e =>
      have hhand : ((UdpLink.outputs ((CameraLink.link lib).step s e).2).map
          ClientMainTurn.hand).filterMap hand? =
            UdpLink.outputs ((CameraLink.link lib).step s e).2 := by
        rw [List.filterMap_map]
        exact List.filterMap_some
      rw [Runs.trace_cons, List.filterMap_append, ih]
      exact (congrArg (· ++ UdpLink.outputs (Runs.trace _ ((CameraLink.link lib).step s e).1
        (es.filterMap link?))) hhand).trans List.filterMap_append.symm
    | decode => exact ih s
    | main opens shouldClose expired => exact ih s

theorem handed_client (s : ClientMain τ) (ts : List ClientMainTurn) :
    (Runs.trace (ClientMain.step av) s ts).filterMap ClientMain.handed? = ts.filterMap hand? := by
  induction ts generalizing s with
  | nil => rfl
  | cons t ts ih =>
    have hfirst : (ClientMain.step av s t).2.filterMap ClientMain.handed? = (hand? t).toList := by
      cases t with
      | hand ef =>
        rw [ClientMain.step, ClientMain.hand, List.filterMap_cons,
          ServerMain.filterMap_map_none (c := ClientMainEffect.out) (fun _ => rfl)]
        rfl
      | decode => exact (ClientMain.taken_decodeTurn av s).1
      | main opens shouldClose expired =>
        rw [ClientMain.step]
        rcases ClientMain.mainTurn_cases s opens shouldClose expired with ⟨m, os, hturn, hos⟩ |
          ⟨-, f, q, -, hturn⟩ | ⟨-, hturn⟩ | ⟨-, hturn⟩
        · rw [hturn]
          rcases hos with rfl | rfl | rfl <;> rfl
        · rw [hturn, List.filterMap_cons_none rfl, ClientMain.filterMap_render fun _ _ => rfl]
          rfl
        · rw [hturn]
          rfl
        · rw [hturn]
          rfl
    rw [Runs.trace_cons, List.filterMap_append, hfirst, ih]
    cases ht : hand? t with
    | none => rw [List.filterMap_cons_none ht]; rfl
    | some ef => rw [List.filterMap_cons_some ht]; rfl

theorem outNumbers_eq (os : List UdpEffect) :
    UdpReceiver.outNumbers os = (UdpLink.outputs os).map (·.frameId) := by
  induction os with
  | nil => rfl
  | cons o os ih =>
    cases o with
    | out f => exact congrArg (f.frameId :: ·) ih
    | _ => exact ih

section System

variable {cfg : ServerConfig} {ecfg : EncoderConfig} {source : CaptureSource} {window : Bool}
  {es : List ScreenEvent}

/-- The turns of the client's threads. -/
def clientTurns (cfg : ServerConfig) (ecfg : EncoderConfig) (source : CaptureSource)
    (es : List ScreenEvent) : List ClientMainTurn :=
  Runs.trace (receiver lib) (CameraLink.start cfg ecfg source) es

/-- A run of the system is one of the client. -/
theorem trace_system (cfg : ServerConfig) (ecfg : EncoderConfig) (source : CaptureSource)
    (window : Bool) (es : List ScreenEvent) :
    Runs.trace (system lib av) (start cfg ecfg source window) es =
      Runs.trace (ClientMain.step av) (.start window) (clientTurns lib cfg ecfg source es) :=
  (Runs.pipe_run (receiver lib) (ClientMain.step av) (start cfg ecfg source window) es).2

theorem handed_system (cfg : ServerConfig) (ecfg : EncoderConfig) (source : CaptureSource)
    (window : Bool) (es : List ScreenEvent) :
    (Runs.trace (system lib av) (start cfg ecfg source window) es).filterMap ClientMain.handed? =
      UdpLink.outputs (Runs.trace (CameraLink.link lib).step (CameraLink.start cfg ecfg source)
        (es.filterMap link?)) := by
  rw [trace_system, handed_client, clientTurns, handed_receiver]

theorem output_of_decoded {ef : EncodedFrame} {a : AvFrame} {f : Frame}
    (h : .decoded ef a f ∈ Runs.trace (system lib av) (start cfg ecfg source window) es) :
    ef ∈ UdpLink.outputs (Runs.trace (CameraLink.link lib).step (CameraLink.start cfg ecfg source)
      (es.filterMap link?)) := by
  rw [← handed_system lib av cfg ecfg source window es]
  rw [trace_system] at h ⊢
  exact (ClientMain.taken_sublist av window _).subset (List.mem_filterMap.2 ⟨_, h, rfl⟩)

theorem numbers_decoded {os : List ClientMainEffect}
    (h : ∀ ef a f, .decoded ef a f ∈ os → ClientMain.CopyOf ef a f) :
    (os.filterMap ClientMain.decoded?).map (·.frameId) =
      (os.filterMap ClientMain.decodedUnit?).map (·.frameId) := by
  induction os with
  | nil => rfl
  | cons o os ih =>
    have hrest := ih fun ef a f hmem => h ef a f (List.mem_cons_of_mem o hmem)
    cases o with
    | decoded ef a f =>
      have hid := (h ef a f List.mem_cons_self).frameId
      exact congrArg₂ List.cons hid hrest
    | _ => exact hrest

end System

/-- **The screen shows what the camera saw.** Over every run of the server's threads, its transport,
the network, the receiver and the client's threads, in any order, as long as encoded frames fit and
fewer than 2³² are captured: whatever is drawn has the number of a captured I420 frame and the low
bits of its time, and shows the picture that the decoder had, with chroma planes cut to half its
size, when it was given the encoder's data for that frame, with fewer zeros behind it than a
datagram holds. -/
theorem shows_what_was_captured (cfg : ServerConfig) (ecfg : EncoderConfig) (source : CaptureSource)
    (es : List ScreenEvent) (hconn : CameraLink.Connected (es.filterMap link?))
    (hmtu : 25 ≤ cfg.udpMtu.toNat)
    (hfits : ∀ ef ∈ (CameraLink.serverEffects lib ecfg source (es.filterMap link?)).filterMap
      ServerMain.broadcast?, CameraLink.Fits cfg ef)
    (hfid : source.fid = 0)
    (hcount : ((CameraLink.serverEffects lib ecfg source (es.filterMap link?)).filterMap
      ServerMain.captured?).length < 2 ^ 32) :
    let seen := CameraLink.serverEffects lib ecfg source (es.filterMap link?)
    let os := Runs.trace (system lib av) (start cfg ecfg source true) es
    ∀ f t, .drawn f t ∈ os →
      ∃ c ∈ seen.filterMap ServerMain.captured?, ∃ ef ∈ seen.filterMap ServerMain.broadcast?,
        ∃ out a, ServerMain.MadeOf c ef ∧ DataOf cfg ef out.data ∧ .decoded out a f ∈ os ∧
          t = some a.planes ∧ f.frameId = c.frameId ∧
          toUInt32 f.captureUs = toUInt32 c.captureUs := by
  intro seen os f t hdrawn
  have hos := trace_system lib av cfg ecfg source true es
  have hclient : .drawn f t ∈ Runs.trace (ClientMain.step av) (.start true)
      (clientTurns lib cfg ecfg source es) := by
    rw [← hos]
    exact hdrawn
  obtain ⟨out, a, hdecoded, hcopy, ht⟩ := ClientMain.decoded_of_drawn av hclient
  rw [← hos] at hdecoded
  obtain ⟨c, hc, ef, hef, hmade, hid, hcapture, -, hdata⟩ :=
    CameraLink.captured_of_output lib hconn hmtu hfits hfid hcount
      (output_of_decoded lib av hdecoded)
  exact ⟨c, hc, ef, hef, out, a, hmade, hdata, hdecoded, ht, hcopy.frameId.trans hid,
    hcopy.captureUs ▸ hcapture⟩

/-- **The screen goes forward.** In the same runs, with fewer than 2³¹ frames captured, as long as
no turn of the jitter buffer's thread skips back: the numbers of the frames that are shown increase,
and each is that of a captured frame. -/
theorem shows_in_order (cfg : ServerConfig) (ecfg : EncoderConfig) (source : CaptureSource)
    (window : Bool) (es : List ScreenEvent) (hconn : CameraLink.Connected (es.filterMap link?))
    (hmtu : 25 ≤ cfg.udpMtu.toNat)
    (hfits : ∀ ef ∈ (CameraLink.serverEffects lib ecfg source (es.filterMap link?)).filterMap
      ServerMain.broadcast?, CameraLink.Fits cfg ef)
    (hfid : source.fid = 0)
    (hcount : ((CameraLink.serverEffects lib ecfg source (es.filterMap link?)).filterMap
      ServerMain.captured?).length < 2 ^ 31)
    (hskip : Runs.Along (CameraLink.link lib).step CameraLink.PopsForward
      (CameraLink.start cfg ecfg source) (es.filterMap link?)) :
    let seen := CameraLink.serverEffects lib ecfg source (es.filterMap link?)
    let os := Runs.trace (system lib av) (start cfg ecfg source window) es
    ((os.filterMap ClientMain.rendered?).map (·.frameId)).Pairwise (· < ·) ∧
      ∀ f ∈ os.filterMap ClientMain.rendered?, ∃ c ∈ seen.filterMap ServerMain.captured?,
        f.frameId = c.frameId := by
  intro seen os
  have hlink := CameraLink.outNumbers_link lib hconn hmtu hfits hfid hcount hskip
  have hos : os = Runs.trace (ClientMain.step av) (.start window)
      (clientTurns lib cfg ecfg source es) := trace_system lib av cfg ecfg source window es
  have hrendered : (os.filterMap ClientMain.rendered?).Sublist (os.filterMap ClientMain.decoded?) :=
    hos ▸ ClientMain.rendered_sublist av window _
  have hhanded : (os.filterMap ClientMain.decodedUnit?).Sublist (os.filterMap ClientMain.handed?) :=
    (ClientMain.decodedUnits_sublist os).trans (hos ▸ ClientMain.taken_sublist av window _)
  have hnumbers : (os.filterMap ClientMain.decoded?).map (·.frameId) =
      (os.filterMap ClientMain.decodedUnit?).map (·.frameId) := by
    rw [hos]
    exact numbers_decoded fun ef a f hmem => ClientMain.sound_trace av _ hmem
  -- So they are among the numbers that the link hands out.
  have hsub : ((os.filterMap ClientMain.rendered?).map (·.frameId)).Sublist
      ((os.filterMap ClientMain.handed?).map (·.frameId)) :=
    (hrendered.map _).trans (hnumbers ▸ hhanded.map _)
  rw [handed_system, ← outNumbers_eq] at hsub
  refine ⟨List.Pairwise.sublist hsub hlink, fun f hf => ?_⟩
  have hnumber := hsub.subset (List.mem_map_of_mem hf)
  rw [outNumbers_eq] at hnumber
  obtain ⟨out, hout, hid⟩ := List.mem_map.1 hnumber
  obtain ⟨c, hc, -, -, -, hcid, -⟩ := CameraLink.captured_of_output lib hconn hmtu hfits hfid
    (by omega) hout
  exact ⟨c, hc, hid.symm.trans hcid⟩

/-- A client registers; a frame is captured, sent in two fragments, assembled, decoded and drawn. -/
def shotShown : List ScreenEvent :=
  (CameraLink.shotRun.map .link) ++
    [.main true false false, .decode, .decode, .decode, .decode, .decode, .main true false false,
      .main true false false]

theorem link_shotShown : shotShown.filterMap link? = CameraLink.shotRun := rfl

theorem shows_what_was_captured_shot :
    (Runs.trace (system ServerMain.sampler ClientMain.painter)
      (start ⟨26, 8⟩ {} ⟨2, 2, .i420, 0⟩ true) shotShown).filterMap (fun
        | .drawn f t => some (f.frameId, t)
        | _ => none) = [(1, some (ClientMain.gray 1).planes)] ∧
      ∀ f t, .drawn f t ∈ Runs.trace (system ServerMain.sampler ClientMain.painter)
        (start ⟨26, 8⟩ {} ⟨2, 2, .i420, 0⟩ true) shotShown → ∃ a : AvFrame, t = some a.planes := by
  refine ⟨by decide +kernel, fun f t hdrawn => ?_⟩
  obtain ⟨-, -, -, -, -, a, -, -, -, ht, -⟩ := shows_what_was_captured ServerMain.sampler
    ClientMain.painter ⟨26, 8⟩ {} ⟨2, 2, .i420, 0⟩ shotShown
    (link_shotShown ▸ CameraLink.connected_shotRun) (by decide) (by decide +kernel) rfl
    (by decide +kernel) f t hdrawn
  exact ⟨a, ht⟩

/-- Three frames are captured, the second one is lost on its way, and the other two are shown. -/
def skipShown : List ScreenEvent :=
  (CameraLink.skipRun.map .link) ++
    [.main true false false, .decode, .decode, .decode, .decode, .decode, .main true false false,
      .main true false false, .decode, .decode, .decode, .decode, .main true false false,
      .main true false false]

theorem link_skipShown : skipShown.filterMap link? = CameraLink.skipRun := rfl

theorem shows_in_order_skip :
    let os := Runs.trace (system ServerMain.sampler ClientMain.painter)
      (start ⟨26, 8⟩ {} ⟨2, 2, .i420, 0⟩ true) skipShown
    (os.filterMap ClientMain.rendered?).map (·.frameId) = [1, 3] ∧
      ((os.filterMap ClientMain.rendered?).map (·.frameId)).Pairwise (· < ·) :=
  ⟨by decide +kernel,
    (shows_in_order ServerMain.sampler ClientMain.painter ⟨26, 8⟩ {} ⟨2, 2, .i420, 0⟩ true skipShown
      (link_skipShown ▸ CameraLink.connected_skipRun) (by decide) (by decide +kernel) rfl
      (by decide +kernel) (by decide +kernel)).1⟩

end CameraScreen

end Rtstream
