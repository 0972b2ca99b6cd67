import Rtstream.FecKeys
import Rtstream.ServerMain
import Rtstream.UdpLink

/-!
# From the camera to the decoder

The server's threads with the UDP transport behind them, the network, and the receiver.

The numbers that the capture thread gives out are the numbers of the groups on the link, and those
of the units in the jitter buffer. So what the link needs of the frames it is given, that their
numbers differ, holds because of how they are captured.

* `decodes_what_was_captured`: over every run, a frame handed to the decoder has the number of a
  captured frame, the low bits of its time, and the data that the encoder made of it.
* `decodes_in_order`: as long as the jitter buffer's skips go forward, the numbers handed to the
  decoder increase.
-/

namespace Rtstream

open Std (TreeMap)
open UdpServer

/-! ## The order in which the receiver hands out frames -/

namespace UdpReceiver

variable {rx : UdpReceiver} {base : UInt32}

/-- A pop does not go back. -/
def PopsForward (rx : UdpReceiver) : UdpInput → Prop
  | .pop now => JitterBuffer.SkipsForward rx.jb (.pop now)
  | .datagram _ _ => True

instance (rx : UdpReceiver) : DecidablePred rx.PopsForward
  | .pop now => inferInstanceAs (Decidable (JitterBuffer.SkipsForward rx.jb (.pop now)))
  | .datagram _ _ => inferInstanceAs (Decidable True)

/-- A media packet's number lies in the window that starts at `base`. -/
def WithinWindow (base : UInt32) : UdpInput → Prop
  | .datagram buf _ => IsMedia buf → JitterBuffer.ahead base (UdpHeader.read buf).groupId < 2 ^ 31
  | .pop _ => True

/-- The numbers of the frames for the decoder. -/
def outNumbers (es : List UdpEffect) : List Int :=
  es.filterMap fun
    | .out f => some f.frameId
    | _ => none

/-- What a run keeps: `popped` are the numbers popped so far, `numbers` those of the frames that
came out. -/
structure InOrder (base : UInt32) (rx : UdpReceiver) (popped : List UInt32) (numbers : List Int) :
    Prop where
  keyed : rx.Keyed
  ordered : JitterBuffer.Ordered base rx.jb popped
  tagged : ∀ (k : UInt32) (u : JbUnit UdpAssembled), rx.jb.buf[k]? = some u →
    ∀ a, u.data = some a → a.frameId = u.seq
  out : numbers.Sublist (popped.map fun k => (k.toNat : Int))

theorem outNumbers_jb (evs : List JbEvent) : outNumbers (evs.map .jb) = [] := by
  induction evs with
  | nil => rfl
  | cons ev evs ih => exact ih

theorem outNumbers_finish (rx : UdpReceiver) (g : Group) (now : Int) :
    outNumbers (rx.finish g now).2 = [] := outNumbers_jb _

theorem outNumbers_requestMissing (rx : UdpReceiver) (g : Group) (now : Int) :
    outNumbers (rx.requestMissing g now).2 = [] := by
  refine List.eq_nil_iff_forall_not_mem.2 fun id hid => ?_
  obtain ⟨e, he, hsome⟩ := List.mem_filterMap.1 hid
  rcases UdpLink.requestMissing_effects rx he with ⟨pkt, rfl⟩ | ⟨n, rfl⟩ <;> cases hsome

theorem outNumbers_recv (rx : UdpReceiver) (buf : Bytes) (now : Int) :
    outNumbers (rx.recv buf now).2 = [] := by
  by_cases hm : IsMedia buf
  · rw [recv_of_media rx hm]
    cases hu : rx.updated (UdpHeader.read buf) (buf.drop UdpHeader.kSize) now with
    | none =>
      rw [onMedia_of_not_updated _ _ _ hu]
      rfl
    | some g =>
      rw [onMedia_of_updated _ _ _ hu]
      generalize { rx with lastCaptureUs := _ } = rx'
      cases hc : complete g with
      | true =>
        rw [tryFinalize_of_complete rx' now hc]
        exact outNumbers_finish rx' g now
      | false =>
        cases hr : recoverGroup g with
        | some g' =>
          rw [tryFinalize_of_recovered rx' now hc hr]
          exact outNumbers_finish rx' g' now
        | none =>
          rw [tryFinalize_of_missing rx' now hc hr]
          exact outNumbers_requestMissing rx' g now
  · rcases (recv_of_not_media rx hm now).2 with he | ⟨json, he⟩ <;> rw [he] <;> rfl

section Step

variable {popped : List UInt32} {numbers : List Int} (h : InOrder base rx popped numbers)
include h

/-- **A datagram** pushes at most one unit, under the number of its group. -/
theorem InOrder.recv {buf : Bytes} {now : Int} (hwindow : WithinWindow base (.datagram buf now)) :
    InOrder base (rx.recv buf now).1 popped numbers := by
  have hkeyed : (rx.recv buf now).1.Keyed := h.keyed.step (.datagram buf now)
  have hquiet : ∀ rx' : UdpReceiver, rx'.Keyed → rx'.jb = rx.jb → InOrder base rx' popped numbers :=
    fun rx' hk hjb => ⟨hk, hjb ▸ h.ordered, hjb ▸ h.tagged, h.out⟩
  by_cases hm : IsMedia buf
  · rw [recv_of_media rx hm] at hkeyed ⊢
    obtain ⟨-, hr⟩ | ⟨g, g', hu, hf, hr⟩ | ⟨g, -, -, hr⟩ | ⟨g, -, -, -, hr⟩ :=
      onMedia_cases h.keyed (UdpHeader.read buf) (buf.drop UdpHeader.kSize) now
    · exact hquiet _ hkeyed (by rw [hr])
    · rw [hr] at hkeyed ⊢
      refine ⟨hkeyed, (h.ordered.push (hwindow hm) _ now _).1, fun k u hk a ha => ?_, h.out⟩
      rcases JitterBuffer.getElem?_push _ hk with hold | ⟨-, rfl⟩
      · exact h.tagged k u hold a ha
      · obtain rfl : assembled g' = a := Option.some.inj ha
        have hid := updated_frameId _ _ now h.keyed hu
        have hsame := congrArg Group.frameId (finalized_eq hf)
        exact hsame.trans hid
    · exact hquiet _ hkeyed (by rw [hr])
    · exact hquiet _ hkeyed (by rw [hr])
  · rcases @recv_of_not_media_eq rx buf hm now with hr | ⟨ms, hr⟩
    · exact hquiet _ hkeyed (by rw [hr])
    · refine ⟨hkeyed, ?_, ?_, h.out⟩
      · rw [hr]
        exact h.ordered.congr (JitterBuffer.setRttMs_buf ..) (JitterBuffer.setRttMs_nextOut ..)
          (JitterBuffer.setRttMs_started ..)
      · rw [hr]
        exact h.tagged

/-- **A pop** hands out the unit it takes, under its number. -/
theorem InOrder.popUnit {now : Int} (hskip : JitterBuffer.SkipsForward rx.jb (.pop now)) :
    InOrder base (rx.popUnit now).1 (popped ++ (rx.jb.pop now).2.1.toList.map (·.seq))
      (numbers ++ outNumbers (rx.popUnit now).2) := by
  refine ⟨h.keyed.step (.pop now), (h.ordered.pop hskip).1,
    fun k u hk => h.tagged k u (JitterBuffer.getElem?_pop _ hk), ?_⟩
  rw [List.map_append]
  refine h.out.append ?_
  have hevents := outNumbers_jb (rx.jb.pop now).2.2
  rw [outNumbers] at hevents
  rw [UdpReceiver.popUnit, outNumbers, List.filterMap_append, hevents, List.append_nil]
  cases hunit : (rx.jb.pop now).2.1 with
  | none => exact .slnil
  | some u =>
    cases hdata : u.data with
    | none => simp [hdata]
    | some a =>
      have htag : a.frameId = u.seq := by
        rcases JitterBuffer.pop_spec rx.jb now with ⟨hnone, -⟩ | ⟨v, -, hv, hsome, -⟩ |
          ⟨head, v, -, -, -, hfirst, hsome, -⟩
        · rw [hnone] at hunit
          cases hunit
        · obtain rfl := Option.some.inj (hsome.symm.trans hunit)
          exact h.tagged _ v hv a hdata
        · obtain rfl := Option.some.inj (hsome.symm.trans hunit)
          exact h.tagged _ v (OrderedMap.getElem?_first? hfirst) a hdata
      simp [hdata, frameOf, htag]

theorem InOrder.step {i : UdpInput} (hwindow : WithinWindow base i) (hskip : PopsForward rx i) :
    ∃ popped', InOrder base (UdpReceiver.step rx i).1 popped'
      (numbers ++ outNumbers (UdpReceiver.step rx i).2) := by
  cases i with
  | datagram buf now =>
    refine ⟨popped, ?_⟩
    rw [UdpReceiver.step, outNumbers_recv, List.append_nil]
    exact h.recv hwindow
  | pop now => exact ⟨_, h.popUnit hskip⟩

end Step

theorem outNumbers_append (es es' : List UdpEffect) :
    outNumbers (es ++ es') = outNumbers es ++ outNumbers es' := List.filterMap_append

/-- **The numbers that come out increase**, as long as all are in the first half of the number space
and no pop goes back. -/
theorem outNumbers_increasing {is : List UdpInput} (hwindow : ∀ i ∈ is, WithinWindow 0 i)
    (hskip : Runs.Along UdpReceiver.step PopsForward {} is) :
    (outNumbers (Runs.trace UdpReceiver.step {} is)).Pairwise (· < ·) := by
  have hfresh : ∃ popped, InOrder 0 {} popped (outNumbers []) := by
    refine ⟨[], keyed_fresh, JitterBuffer.ordered_create 0 256 true 10000, fun k u hu => ?_, .slnil⟩
    simp [JitterBuffer.create] at hu
  have halong := (Runs.along_and ({} : UdpReceiver) is).2
    ⟨hskip, Runs.along_of_forall (P := fun _ i => WithinWindow 0 i) _ fun i hi _ => hwindow i hi⟩
  have hrun : ∃ popped, InOrder 0 (Runs.after UdpReceiver.step {} is) popped
      (outNumbers ([] ++ Runs.trace UdpReceiver.step {} is)) := by
    refine halong.history
      (I := fun rx es => ∃ popped, InOrder 0 rx popped (outNumbers es)) ?_ hfresh
    rintro rx es i ⟨popped, h⟩ ⟨hforward, hin⟩
    rw [outNumbers_append]
    exact h.step hin hforward
  obtain ⟨popped, hrun⟩ := hrun
  rw [List.nil_append] at hrun
  refine List.Pairwise.sublist hrun.out ?_
  rw [List.pairwise_map]
  refine hrun.ordered.increasing.imp fun {a b} hlt => ?_
  simpa [JitterBuffer.ahead] using hlt

end UdpReceiver

/-! ## The server behind its threads -/

/-- What happens in the server's process. -/
inductive ServerInput
  | turn (t : ServerTurn)
  /-- A datagram arrives at the transport's port. -/
  | control (d : Datagram)
  | stats (payload : Bytes)
  deriving DecidableEq, Repr

abbrev CameraEvent := Network.Event ServerInput Int UdpInput

namespace CameraLink

variable {σ : Type} (lib : X264 σ)

/-- What the threads hand to the transport. -/
def transport (s : ServerMain σ) : ServerInput → ServerMain σ × List HostInput
  | .turn t =>
      let r := s.step lib t
      (r.1, (r.2.filterMap ServerMain.broadcast?).map .broadcast)
  | .control d => (s, [.control d])
  | .stats payload => (s, [.stats payload])

/-- The link with the server's threads before its transport. -/
def link : Network.Wiring
    (ServerMain σ × UdpHost) ServerInput HostEffect UdpReceiver UdpInput UdpEffect
    Bytes Int := udpLink.behind (transport lib)

/-- The server's process and the receiver at their start. -/
def start (cfg : ServerConfig) (ecfg : EncoderConfig) (source : CaptureSource) :
    Network.State (ServerMain σ × UdpHost) Bytes UdpReceiver :=
  { sender := (.start ecfg source, .start cfg), receiver := {} }

/-- The turns of the server's threads. -/
def turns (es : List CameraEvent) : List ServerTurn :=
  (Network.inputs es).filterMap fun
    | .turn t => some t
    | _ => none

/-- What the server's threads do in a run. -/
def serverEffects (ecfg : EncoderConfig) (source : CaptureSource) (es : List CameraEvent) :
    List ServerEffect :=
  Runs.trace (ServerMain.step lib) (.start ecfg source) (turns es)

theorem broadcasts_transport (s : ServerMain σ) (is : List ServerInput) :
    (Runs.trace (transport lib) s is).filterMap (fun
      | .broadcast f => some f
      | _ => none) =
    (Runs.trace (ServerMain.step lib) s (is.filterMap fun
      | .turn t => some t
      | _ => none)).filterMap ServerMain.broadcast? := by
  induction is generalizing s with
  | nil => rfl
  | cons i is ih =>
    cases i with
    | turn t =>
      simp only [Runs.trace_cons, List.filterMap_append, List.filterMap_cons, ih]
      simp [transport, List.filterMap_map]
    | control d => exact ih s
    | stats payload => exact ih s

theorem frames_fed (ecfg : EncoderConfig) (source : CaptureSource) (es : List CameraEvent) :
    UdpLink.frames (Network.fed (transport lib) (.start ecfg source) es) =
      (serverEffects lib ecfg source es).filterMap ServerMain.broadcast? := by
  rw [serverEffects, turns, ← broadcasts_transport, ← Network.inputs_fed, UdpLink.frames,
    Network.inputs, List.filterMap_filterMap]
  refine List.filterMap_congr fun e _ => ?_
  cases e with
  | sender i => cases i <;> rfl
  | deliver n t => rfl
  | receiver k => rfl

theorem sent_link (cfg : ServerConfig) (ecfg : EncoderConfig) (source : CaptureSource)
    (es : List CameraEvent) :
    (Runs.after (link lib).step (start cfg ecfg source) es).sent =
      (Runs.after udpLink.step (UdpLink.start cfg)
        (Network.fed (transport lib) (.start ecfg source) es)).sent :=
  congrArg Network.State.sent
    (Network.behind_run udpLink (transport lib) (start cfg ecfg source) es).1

theorem trace_link (cfg : ServerConfig) (ecfg : EncoderConfig) (source : CaptureSource)
    (es : List CameraEvent) :
    Runs.trace (link lib).step (start cfg ecfg source) es =
      Runs.trace udpLink.step (UdpLink.start cfg)
        (Network.fed (transport lib) (.start ecfg source) es) :=
  (Network.behind_run udpLink (transport lib) (start cfg ecfg source) es).2

/-- What the transport and the encoder agree on: each frame fits the fragments' 16-bit count. -/
def Fits (cfg : ServerConfig) (ef : EncodedFrame) : Prop :=
  ef.data.length < 2 ^ 63 ∧ ef.data.length ≤ 65534 * (cfg.udpMtu.toNat - 24)

instance (cfg : ServerConfig) (ef : EncodedFrame) : Decidable (Fits cfg ef) :=
  inferInstanceAs (Decidable (_ ∧ _))

section System

variable {cfg : ServerConfig} {ecfg : EncoderConfig} {source : CaptureSource}
  {es : List CameraEvent}

theorem sendable_of_fits (hmtu : 25 ≤ cfg.udpMtu.toNat) {ef : EncodedFrame}
    (hef : ef ∈ (serverEffects lib ecfg source es).filterMap ServerMain.broadcast?)
    (hfits : Fits cfg ef) : Sendable cfg ef := by
  obtain ⟨f, -, hmade⟩ := ServerMain.madeOf_of_broadcast lib hef
  refine ⟨hmtu, hmade.data, hfits.1, ?_⟩
  have hpos : 0 < cfg.udpMtu.toNat - 24 := by omega
  rw [Nat.div_le_iff_le_mul_add_pred hpos, Nat.mul_comm]
  have hsize := hfits.2
  omega

theorem captured_number (hfid : source.fid = 0) {f : Frame}
    (hf : f ∈ (serverEffects lib ecfg source es).filterMap ServerMain.captured?) :
    0 < f.frameId ∧
      f.frameId ≤ ((serverEffects lib ecfg source es).filterMap ServerMain.captured?).length := by
  have hnumbers := ServerMain.captured_numbers lib (.start ecfg source) (turns es)
  have hmem := List.mem_map_of_mem (f := Frame.frameId) hf
  rw [serverEffects, hnumbers] at hmem
  obtain ⟨i, hi, heq⟩ := List.mem_map.1 hmem
  have hlt := List.mem_range.1 hi
  have hzero : (ServerMain.start ecfg source : ServerMain σ).source.fid = 0 := hfid
  rw [hzero] at heq
  rw [serverEffects]
  omega

/-- The numbers that are broadcast differ in their low 32 bits. -/
theorem broadcast_numbers (hfid : source.fid = 0)
    (hcount : ((serverEffects lib ecfg source es).filterMap ServerMain.captured?).length < 2 ^ 32)
    {ef : EncodedFrame}
    (hef : ef ∈ (serverEffects lib ecfg source es).filterMap ServerMain.broadcast?) :
    ((toUInt32 ef.frameId).toNat : Int) = ef.frameId := by
  obtain ⟨f, hf, hmade⟩ := ServerMain.madeOf_of_broadcast lib hef
  obtain ⟨hpos, hle⟩ := captured_number lib hfid hf
  rw [toNat_toUInt32, hmade.frameId]
  exact Int.emod_eq_of_lt (by omega) (by omega)

theorem broadcast_distinct (hfid : source.fid = 0)
    (hcount : ((serverEffects lib ecfg source es).filterMap ServerMain.captured?).length < 2 ^ 32) :
    ∀ ef ∈ (serverEffects lib ecfg source es).filterMap ServerMain.broadcast?,
      ∀ ef' ∈ (serverEffects lib ecfg source es).filterMap ServerMain.broadcast?,
        toUInt32 ef.frameId = toUInt32 ef'.frameId → ef = ef' := by
  intro ef hef ef' hef' heq
  have hid : ef.frameId = ef'.frameId := by
    rw [← broadcast_numbers lib hfid hcount hef, ← broadcast_numbers lib hfid hcount hef', heq]
  -- The numbers increase, so there is one frame for each.
  have hincreasing := ServerMain.broadcast_increasing lib ecfg source (turns es)
  exact List.inj_on_of_nodup_map (hincreasing.imp fun hlt => hlt.ne) hef hef' hid

end System

/-- The receiver's own turns: everything it is sent comes over the network. -/
def Connected (es : List CameraEvent) : Prop :=
  ∀ k, .receiver k ∈ es → ∃ now, k = .pop now

theorem effects_of_broadcasts {cfg : ServerConfig} {ecfg : EncoderConfig} {source : CaptureSource}
    {es : List CameraEvent} (hconn : Connected es) (hmtu : 25 ≤ cfg.udpMtu.toNat)
    (hfits : ∀ ef ∈ (serverEffects lib ecfg source es).filterMap ServerMain.broadcast?, Fits cfg ef)
    (hfid : source.fid = 0)
    (hcount : ((serverEffects lib ecfg source es).filterMap ServerMain.captured?).length < 2 ^ 32) :
    let fed := Network.fed (transport lib) (.start ecfg source) es
    let F := (serverEffects lib ecfg source es).filterMap ServerMain.broadcast?
    (∀ p ∈ (Runs.after udpLink.step (UdpLink.start cfg) fed).sent, UdpLink.PacketOf cfg F p) ∧
      ∀ e ∈ Runs.trace udpLink.step (UdpLink.start cfg) fed, UdpLink.EffectOf cfg F e := by
  intro fed F
  have hF : ∀ ef ∈ F, Sendable cfg ef := fun ef hef =>
    sendable_of_fits lib hmtu hef (hfits ef hef)
  have hown : ∀ k, Network.Event.receiver k ∈ fed → ∃ now, k = .pop now := fun k hk =>
    hconn k (Network.mem_fed_receiver hk)
  have hrun := (UdpLink.contract hF (broadcast_distinct lib hfid hcount)).run
    (s := UdpLink.start cfg) ⟨rfl, by simp [UdpLink.start, UdpHost.start]⟩ (by simp [UdpLink.start])
    UdpLink.holds_fresh ?_ hown
  · exact ⟨hrun.1.2.1, hrun.2⟩
  · intro i hi f hf
    rw [show F = UdpLink.frames fed from (frames_fed lib ecfg source es).symm]
    exact List.mem_filterMap.2 ⟨.sender i, hi, by rw [hf]⟩

/-- What is handed to the decoder is made of a captured frame. -/
theorem captured_of_output {cfg : ServerConfig} {ecfg : EncoderConfig} {source : CaptureSource}
    {es : List CameraEvent} (hconn : Connected es) (hmtu : 25 ≤ cfg.udpMtu.toNat)
    (hfits : ∀ ef ∈ (serverEffects lib ecfg source es).filterMap ServerMain.broadcast?, Fits cfg ef)
    (hfid : source.fid = 0)
    (hcount : ((serverEffects lib ecfg source es).filterMap ServerMain.captured?).length < 2 ^ 32)
    {out : EncodedFrame}
    (hout : out ∈ UdpLink.outputs (Runs.trace (link lib).step (start cfg ecfg source) es)) :
    ∃ f ∈ (serverEffects lib ecfg source es).filterMap ServerMain.captured?,
      ∃ ef ∈ (serverEffects lib ecfg source es).filterMap ServerMain.broadcast?,
        ServerMain.MadeOf f ef ∧ out.frameId = f.frameId ∧
          toUInt32 out.captureUs = toUInt32 f.captureUs ∧ out.keyframe = ef.keyframe ∧
          DataOf cfg ef out.data := by
  rw [trace_link] at hout
  obtain ⟨e, he, hsome⟩ := List.mem_filterMap.1 hout
  have heffect := (effects_of_broadcasts lib hconn hmtu hfits hfid hcount).2 e he
  cases e with
  | out f =>
    obtain rfl := Option.some.inj hsome
    obtain ⟨ef, hef, hof⟩ := heffect
    obtain ⟨f, hf, hmade⟩ := ServerMain.madeOf_of_broadcast lib hef
    refine ⟨f, hf, ef, hef, hmade, ?_, ?_, hof.keyframe, hof.data⟩
    · rw [hof.frameId, broadcast_numbers lib hfid hcount hef, hmade.frameId]
    · rw [hof.captureUs, hmade.captureUs]
  | _ => cases hsome

/-- **The decoder gets what the camera saw.** Over every run of the server's threads, its transport,
the network and the receiver, in any order, as long as encoded frames fit and fewer than 2³² are
captured: each frame handed to the decoder has the number of a captured I420 frame and the low bits
of its time, and the encoder's data for it, with fewer zeros behind it than a datagram holds. -/
theorem decodes_what_was_captured (cfg : ServerConfig) (ecfg : EncoderConfig)
    (source : CaptureSource) (es : List CameraEvent) (hconn : Connected es)
    (hmtu : 25 ≤ cfg.udpMtu.toNat)
    (hfits : ∀ ef ∈ (serverEffects lib ecfg source es).filterMap ServerMain.broadcast?, Fits cfg ef)
    (hfid : source.fid = 0)
    (hcount : ((serverEffects lib ecfg source es).filterMap ServerMain.captured?).length < 2 ^ 32) :
    ∀ out ∈ UdpLink.outputs (Runs.trace (link lib).step (start cfg ecfg source) es),
      ∃ f ∈ (serverEffects lib ecfg source es).filterMap ServerMain.captured?,
        ∃ ef ∈ (serverEffects lib ecfg source es).filterMap ServerMain.broadcast?,
          ServerMain.MadeOf f ef ∧ out.frameId = f.frameId ∧
            toUInt32 out.captureUs = toUInt32 f.captureUs ∧ out.keyframe = ef.keyframe ∧
            DataOf cfg ef out.data :=
  fun _ hout => captured_of_output lib hconn hmtu hfits hfid hcount hout

/-- A client registers, a frame is captured and sent in two fragments with their parity, and the
second fragment is lost. -/
def shotRun : List CameraEvent :=
  [.sender (.control (ControlPort.pingFrom 1 5)), .sender (.turn (.encode 0)),
    .sender (.turn (.capture ⟨100, 7, [1, 2, 3, 4, 5, 6]⟩)), .sender (.turn .enqueue),
    .sender (.turn (.encode 110)), .sender (.turn (.encode 120)), .deliver 1 1000, .deliver 3 1500,
    .receiver (.pop 1000000)]

theorem connected_shotRun : Connected shotRun := by
  intro k hk
  simp only [shotRun, List.mem_cons, reduceCtorEq, List.not_mem_nil, or_false, false_or,
    Network.Event.receiver.injEq] at hk
  exact ⟨_, hk⟩

theorem decodes_what_was_captured_shot :
    (UdpLink.outputs (Runs.trace (link ServerMain.sampler).step
      (start ⟨26, 8⟩ {} ⟨2, 2, .i420, 0⟩) shotRun)).map (fun out => (out.frameId, out.data)) =
        [(1, [1, 2, 3, 0])] ∧
      ∀ out ∈ UdpLink.outputs (Runs.trace (link ServerMain.sampler).step
        (start ⟨26, 8⟩ {} ⟨2, 2, .i420, 0⟩) shotRun), ∃ ef, DataOf ⟨26, 8⟩ ef out.data := by
  refine ⟨by decide +kernel, fun out hout => ?_⟩
  obtain ⟨-, -, ef, -, -, -, -, -, hdata⟩ := decodes_what_was_captured ServerMain.sampler ⟨26, 8⟩ {}
    ⟨2, 2, .i420, 0⟩ shotRun connected_shotRun (by decide) (by decide +kernel) rfl
    (by decide +kernel) out hout
  exact ⟨ef, hdata⟩

/-- A turn of the receiver's output thread does not go back. -/
def PopsForward (s : Network.State (ServerMain σ × UdpHost) Bytes UdpReceiver) : CameraEvent → Prop
  | .receiver k => UdpReceiver.PopsForward s.receiver k
  | _ => True

instance (s : Network.State (ServerMain σ × UdpHost) Bytes UdpReceiver) :
    DecidablePred (PopsForward s)
  | .receiver k => inferInstanceAs (Decidable (UdpReceiver.PopsForward s.receiver k))
  | .sender _ | .deliver _ _ => inferInstanceAs (Decidable True)

theorem along_popsForward_iff (cfg : ServerConfig) (ecfg : EncoderConfig) (source : CaptureSource)
    (es : List CameraEvent) :
    Runs.Along (link lib).step PopsForward (start cfg ecfg source) es ↔
      Runs.Along UdpReceiver.step UdpReceiver.PopsForward {}
        (Runs.collect (link lib).step (link lib).heard (start cfg ecfg source) es) := by
  have hheard := Network.along_heard_iff (link lib) (P := UdpReceiver.PopsForward)
    (start cfg ecfg source) es
  refine Iff.trans (Runs.along_congr (I := fun _ => True) (fun _ _ _ => trivial)
    (fun s e _ => ?_) trivial es) hheard.symm
  cases e with
  | sender i => simp [PopsForward, Network.Wiring.heard]
  | deliver n t =>
    cases hn : s.sent[n]? <;>
      simp [PopsForward, Network.Wiring.heard, hn, link, Network.Wiring.behind, udpLink,
        UdpReceiver.PopsForward]
  | receiver k => simp [PopsForward, Network.Wiring.heard]

theorem outNumbers_link {cfg : ServerConfig} {ecfg : EncoderConfig} {source : CaptureSource}
    {es : List CameraEvent} (hconn : Connected es) (hmtu : 25 ≤ cfg.udpMtu.toNat)
    (hfits : ∀ ef ∈ (serverEffects lib ecfg source es).filterMap ServerMain.broadcast?, Fits cfg ef)
    (hfid : source.fid = 0)
    (hcount : ((serverEffects lib ecfg source es).filterMap ServerMain.captured?).length < 2 ^ 31)
    (hskip : Runs.Along (link lib).step PopsForward (start cfg ecfg source) es) :
    (UdpReceiver.outNumbers (Runs.trace (link lib).step (start cfg ecfg source) es)).Pairwise
      (· < ·) := by
  have hcount' : ((serverEffects lib ecfg source es).filterMap ServerMain.captured?).length <
      2 ^ 32 := by omega
  have htrace := (Network.receiver_run (link lib) (start cfg ecfg source) es).2
  have hpackets := (effects_of_broadcasts lib hconn hmtu hfits hfid hcount').1
  rw [htrace]
  refine UdpReceiver.outNumbers_increasing (fun i hi => ?_) ((along_popsForward_iff lib ..).1 hskip)
  rcases Network.sent_of_mem_heard _ hi with ⟨p, hp, t, rfl⟩ | hown
  · intro hm
    -- The number of a media packet is the one its frame was captured under.
    rw [sent_link] at hp
    obtain ⟨ef, hef, hd⟩ := hpackets p hp hm
    obtain ⟨f, hf, hmade⟩ := ServerMain.madeOf_of_broadcast lib hef
    have hle := (captured_number lib hfid hf).2
    have hid := broadcast_numbers lib hfid hcount' hef
    have hsame := hmade.frameId
    rw [groupId_of_mem_datagrams hd, JitterBuffer.ahead, UInt32.sub_zero]
    omega
  · obtain ⟨now, rfl⟩ := hconn i hown
    trivial

/-- **The decoder gets frames in the order of capture, each at most once.** In the same runs, with
fewer than 2³¹ frames captured, as long as no turn of the jitter buffer's thread skips back: the
numbers handed to the decoder increase. -/
theorem decodes_in_order (cfg : ServerConfig) (ecfg : EncoderConfig) (source : CaptureSource)
    (es : List CameraEvent) (hconn : Connected es) (hmtu : 25 ≤ cfg.udpMtu.toNat)
    (hfits : ∀ ef ∈ (serverEffects lib ecfg source es).filterMap ServerMain.broadcast?, Fits cfg ef)
    (hfid : source.fid = 0)
    (hcount : ((serverEffects lib ecfg source es).filterMap ServerMain.captured?).length < 2 ^ 31)
    (hskip : Runs.Along (link lib).step PopsForward (start cfg ecfg source) es) :
    (UdpReceiver.outNumbers (Runs.trace (link lib).step (start cfg ecfg source) es)).Pairwise
      (· < ·) :=
  outNumbers_link lib hconn hmtu hfits hfid hcount hskip

/-- Three frames are captured and sent. Nothing of the second one arrives, and after a while the
jitter buffer skips it. -/
def skipRun : List CameraEvent :=
  [.sender (.control (ControlPort.pingFrom 1 5)), .sender (.turn (.encode 0)),
    .sender (.turn (.capture ⟨100, 7, [1, 2, 3, 4, 5, 6]⟩)), .sender (.turn .enqueue),
    .sender (.turn (.encode 110)), .sender (.turn (.encode 120)), .sender (.turn (.encode 130)),
    .sender (.turn (.capture ⟨200, 8, [6, 5, 4, 3, 2, 1]⟩)), .sender (.turn .enqueue),
    .sender (.turn (.encode 210)), .sender (.turn (.encode 220)), .sender (.turn (.encode 230)),
    .sender (.turn (.capture ⟨300, 9, [7, 8, 9, 1, 2, 3]⟩)), .sender (.turn .enqueue),
    .sender (.turn (.encode 310)), .sender (.turn (.encode 320)), .deliver 1 1000, .deliver 2 1500,
    .receiver (.pop 1000000), .deliver 7 1000100, .deliver 8 1000200, .receiver (.pop 1000300),
    .receiver (.pop 2000000)]

theorem connected_skipRun : Connected skipRun := by
  intro k hk
  simp only [skipRun, List.mem_cons, reduceCtorEq, List.not_mem_nil, or_false, false_or,
    Network.Event.receiver.injEq] at hk
  rcases hk with hk | hk | hk <;> exact ⟨_, hk⟩

theorem decodes_in_order_skip :
    let os := Runs.trace (link ServerMain.sampler).step (start ⟨26, 8⟩ {} ⟨2, 2, .i420, 0⟩) skipRun
    UdpReceiver.outNumbers os = [1, 3] ∧ (UdpReceiver.outNumbers os).Pairwise (· < ·) :=
  ⟨by decide +kernel,
    decodes_in_order ServerMain.sampler ⟨26, 8⟩ {} ⟨2, 2, .i420, 0⟩ skipRun connected_skipRun
      (by decide) (by decide +kernel) rfl (by decide +kernel) (by decide +kernel)⟩

end CameraLink

end Rtstream
