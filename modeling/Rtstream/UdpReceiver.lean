import Rtstream.Fec
import Rtstream.JitterBuffer
import Rtstream.Timestamps

/-!
# `udp_receiver.h`: putting frames together again

Datagrams are collected by group, one group for each frame. A group that holds all its fragments
is finished: its fragments go into the jitter buffer as one unit and its entry is erased. A
group that lacks one fragment is recovered from the parity, if that has arrived; one that lacks
more asks for them, and is given up after 250 ms.

`UdpReceiver.step` is the receiver as a machine that is fed datagrams and pops, each with the
clock reading at that moment. Its effects are what the rest of the program sees.
-/

namespace Rtstream

open Std (TreeMap)
open RaggedXor (maxLen)

structure UdpAssembled where
  frameId : UInt32 := 0
  captureUs : Int := 0
  keyframe : Bool := false
  annexb : Bytes := []
  deriving DecidableEq, Repr

/-- What is known of a frame that is not finished. An empty fragment is a missing one. -/
structure Group where
  /-- The number of data fragments, the parity not counted. -/
  fragmentCnt : UInt16 := 0
  frameId : UInt32 := 0
  captureUs : Int := 0
  keyframe : Bool := false
  firstRecvUs : Int := 0
  lastNackUs : Int := 0
  fecSeen : Bool := false
  frags : List Bytes := []
  parity : Bytes := []
  deriving DecidableEq, Repr

structure UdpReceiver where
  groups : TreeMap UInt32 Group := ∅
  jb : JitterBuffer UdpAssembled := .create 256 true (10 * 1000)
  curRtt : ℚ := 0
  lastCaptureUs : Int := 0

/-- What a step makes the rest of the program see. -/
inductive UdpEffect
  /-- `finish`: the frame is pushed into the jitter buffer. -/
  | finish (a : UdpAssembled) (accepted : Bool)
  /-- `Metrics::fec_recovered++`. -/
  | fecRecovered
  /-- `send_nack`: the datagram sent to the server. -/
  | nack (pkt : Bytes)
  /-- `Metrics::net_lost += n`, when a group is given up. -/
  | lost (n : ℕ)
  /-- `Metrics::update_remote_from_json`. -/
  | remoteJson (json : Bytes)
  /-- `out.push`: a frame for the decoder. -/
  | out (f : EncodedFrame)
  | jb (e : JbEvent)
  deriving DecidableEq, Repr

namespace UdpReceiver

/-! ## Groups -/

def complete (g : Group) : Bool := g.frags.all fun f => !f.isEmpty

def missingCount (g : Group) : ℕ := g.frags.countP fun f => f.isEmpty

/-- The number of data fragments, from the count in the header, which includes the parity. -/
def dataCount (wire : UInt16) : UInt16 := wire - (if wire > 0 then 1 else 0)

/-- What a group learns from its first datagram. -/
def openGroup (g : Group) (h : UdpHeader) (capture now : Int) : Group :=
  { g with
    firstRecvUs := now
    frameId := h.groupId
    captureUs := capture
    keyframe := h.keyframe
    fragmentCnt := dataCount h.fragmentCnt
    frags := List.replicate (dataCount h.fragmentCnt).toNat [] }

/-- The parity of a group has arrived. -/
def setParity (g : Group) (payload : Bytes) : Group := { g with fecSeen := true, parity := payload }

/-- Fragment `seq` of a group has arrived; the first arrival counts. -/
def fillFragment (g : Group) (seq : UInt16) (payload : Bytes) : Group :=
  if (g.frags.getD seq.toNat []).isEmpty then { g with frags := g.frags.set seq.toNat payload }
  else g

/-! ## Finishing a group -/

/-- The unit that a finished group becomes. -/
def assembled (g : Group) : UdpAssembled :=
  { frameId := g.frameId, captureUs := g.captureUs, keyframe := g.keyframe,
    annexb := g.frags.flatten }

/-- `finish`: erase the group, push its frame. -/
def finish (rx : UdpReceiver) (g : Group) (now : Int) : UdpReceiver × List UdpEffect :=
  let a := assembled g
  let r := rx.jb.push g.frameId g.captureUs (some a) now
  ({ rx with groups := rx.groups.erase g.frameId, jb := r.1 },
    .finish a r.2.1 :: r.2.2.map .jb)

/-- The records of `send_nack`: one for every missing fragment. -/
def nackRecords (g : Group) : Bytes :=
  ((List.range g.fragmentCnt.toNat).map fun i =>
    if (g.frags.getD i []).isEmpty then
      BigEndian.store 4 g.frameId.toNat ++ BigEndian.store 2 i
    else []).flatten

/-- `send_nack`: nothing is sent when nothing is missing. -/
def sendNack (g : Group) : List UdpEffect :=
  let recs := nackRecords g
  if recs.isEmpty then []
  else
    let h : UdpHeader :=
      { payloadType := PayloadType.nack.code, payloadLen := UInt16.ofNat recs.length }
    [.nack (h.write ++ recs)]

/-- The recovery in `try_finalize`: the group with its one missing fragment filled in. -/
def recoverGroup (g : Group) : Option Group :=
  if g.fecSeen then
    let expect := max (maxLen g.frags) g.parity.length
    let r := fecRecover (g.frags ++ [g.parity]) expect
    if r.1 then some { g with frags := r.2.take g.fragmentCnt.toNat } else none
  else none

/-- The end of `try_finalize`: ask for the missing fragments, and give up an old group. -/
def requestMissing (rx : UdpReceiver) (g : Group) (now : Int) : UdpReceiver × List UdpEffect :=
  let ask := now - g.lastNackUs ≥ 10 * 1000
  let g := if ask then { g with lastNackUs := now } else g
  let nacks := if ask then sendNack g else []
  if now - g.firstRecvUs > 250 * 1000 then
    ({ rx with groups := rx.groups.erase g.frameId }, nacks ++ [.lost (missingCount g)])
  else ({ rx with groups := rx.groups.insert g.frameId g }, nacks)

/-- `try_finalize`: finish the group, recover it, or ask for what is missing. -/
def tryFinalize (rx : UdpReceiver) (g : Group) (now : Int) : UdpReceiver × List UdpEffect :=
  if complete g then rx.finish g now
  else match recoverGroup g with
    | some g =>
        let r := rx.finish g now
        (r.1, .fecRecovered :: r.2)
    | none => rx.requestMissing g now

/-! ## Receiving -/

/-- `auto& g = groups_[h.group_id]`, filled in when it has no fragments yet. -/
def groupOf (rx : UdpReceiver) (h : UdpHeader) (capture now : Int) : Group :=
  let g := rx.groups[h.groupId]?.getD {}
  if g.frags.isEmpty then openGroup g h capture now else g

/-- `on_media`: a data or parity datagram. -/
def onMedia (rx : UdpReceiver) (h : UdpHeader) (payload : Bytes) (now : Int) :
    UdpReceiver × List UdpEffect :=
  let capture := extendLow32 rx.lastCaptureUs now h.captureUsLo
  let g := rx.groupOf h capture now
  let rx := { rx with lastCaptureUs := capture }
  if h.fragmentSeq = UdpHeader.kFecSeq then rx.tryFinalize (setParity g payload) now
  else if h.fragmentSeq < g.fragmentCnt then
    rx.tryFinalize (fillFragment g h.fragmentSeq payload) now
  -- Out of range: the entry made for the group stays.
  else ({ rx with groups := rx.groups.insert h.groupId g }, [])

/-- `update_rtt`. -/
def updateRtt (rx : UdpReceiver) (ms : ℚ) : UdpReceiver :=
  let r := if rx.curRtt = 0 then ms else rx.curRtt * (7 / 8) + ms * (1 / 8)
  { rx with curRtt := r, jb := rx.jb.setRttMs r }

/-- One turn of `recv_loop`. -/
def recv (rx : UdpReceiver) (buf : Bytes) (now : Int) : UdpReceiver × List UdpEffect :=
  if buf.length < UdpHeader.kSize then (rx, [])
  else if !UdpHeader.magicOk buf then (rx, [])
  else
    let h := UdpHeader.read buf
    let payload := buf.drop UdpHeader.kSize
    if h.payloadType = PayloadType.statsJson.code then (rx, [.remoteJson (h.limit payload)])
    else if h.payloadType = PayloadType.statsPong.code then
      if 8 ≤ payload.length then (rx.updateRtt ((now - hostInt64 payload : Int) / 1000), [])
      else (rx, [])
    else rx.onMedia h payload now

/-- The frame that `jb_loop` makes of a unit. -/
def frameOf (a : UdpAssembled) (now : Int) : EncodedFrame :=
  { captureUs := a.captureUs, wallUs := 0, encodeDoneUs := now, frameId := a.frameId.toNat,
    keyframe := a.keyframe, data := a.annexb }

/-- One turn of `jb_loop`. -/
def popUnit (rx : UdpReceiver) (now : Int) : UdpReceiver × List UdpEffect :=
  let r := rx.jb.pop now
  ({ rx with jb := r.1 },
    (r.2.1.bind (·.data)).toList.map (fun a => .out (frameOf a now)) ++ r.2.2.map .jb)

end UdpReceiver

/-- What the receiver's threads do next. -/
inductive UdpInput
  | datagram (buf : Bytes) (now : Int)
  | pop (now : Int)
  deriving DecidableEq, Repr

namespace UdpReceiver

/-- The receiver as a machine. -/
def step (rx : UdpReceiver) : UdpInput → UdpReceiver × List UdpEffect
  | .datagram buf now => rx.recv buf now
  | .pop now => rx.popUnit now

end UdpReceiver

end Rtstream
