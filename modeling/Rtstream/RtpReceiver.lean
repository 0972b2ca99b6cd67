import Rtstream.JitterBuffer
import Rtstream.RtpAssembler
import Rtstream.Timestamps

/-!
# `rtp_receiver.h`, first half: from datagrams to packets

The receiving thread sorts datagrams by their first byte: RTP packets go into the jitter buffer
under their 16-bit number, and parities are stored for the assembler. The assembling thread pops
packets and hands them to the assembler.

`RtpReceiver.step` is the receiver as a machine that is fed datagrams and pops.
-/

namespace Rtstream

structure RtpReceiver where
  jb : JitterBuffer RtpPkt := .create 1024 true (10 * 1000)
  asm : Assembler := {}
  curRtt : ℚ := 0
  lastTs90Full : Int := 0

/-- What is observed of a step. -/
inductive RtpOutput
  /-- `jb_.push`, with its result. -/
  | pushed (p : RtpPkt) (accepted : Bool)
  /-- A unit that `jb_.pop` returned. -/
  | popped (p : RtpPkt)
  | asm (e : RtpEffect)
  | jb (e : JbEvent)
  /-- `Metrics::update_remote_from_json`. -/
  | remoteJson (json : Bytes)

/-- What the receiver's threads do next. -/
inductive RtpInput
  | datagram (buf : Bytes) (now : Int)
  | pop (now : Int)
  deriving DecidableEq, Repr

namespace RtpReceiver

/-- `parse_rtp`: no CSRC list and no extension. -/
def parseRtp (d : Bytes) : Option RtpPkt :=
  if d.length < 12 ∨ d.getD 0 0 ≠ 0x80 then none
  else if d.getD 0 0 &&& 0x0F ≠ 0 ∨ d.getD 0 0 &&& 0x10 ≠ 0 then none
  else some
    { marker := d.getD 1 0 &&& 0x80 != 0
      seq := UInt16.ofNat (UdpHeader.field d 2 2)
      ts := UInt32.ofNat (UdpHeader.field d 4 4)
      raw := d }

/-- `extend_ts90`: the reference for the first packet is the local clock in 90 kHz ticks. -/
def extendTs90 (rx : RtpReceiver) (ts90 : UInt32) (now : Int) : Int :=
  extendLow32 rx.lastTs90Full ((now * 90).tdiv 1000) ts90

/-- An RTP packet goes into the jitter buffer. -/
def pushPacket (rx : RtpReceiver) (p : RtpPkt) (now : Int) : RtpReceiver × List RtpOutput :=
  let full := rx.extendTs90 p.ts now
  let p := { p with captureMs := full.tdiv 90 }
  let r := rx.jb.push p.seq.toUInt32 (p.captureMs * 1000) (some p) now
  ({ rx with jb := r.1, lastTs90Full := full }, .pushed p r.2.1 :: r.2.2.map .jb)

/-- A packet of the private protocol. -/
def recvControl (rx : RtpReceiver) (buf : Bytes) (now : Int) : RtpReceiver × List RtpOutput :=
  let h := UdpHeader.read buf
  let payload := h.limit (buf.drop UdpHeader.kSize)
  if h.payloadType = PayloadType.statsPong.code then
    if 8 ≤ payload.length then
      let rtt : ℚ := (now - hostInt64 payload : Int) / 1000
      let r := if rx.curRtt = 0 then rtt else rx.curRtt * (7 / 8) + rtt * (1 / 8)
      ({ rx with curRtt := r, jb := rx.jb.setRttMs r }, [])
    else (rx, [])
  else if h.payloadType = PayloadType.statsJson.code then (rx, [.remoteJson payload])
  else if h.payloadType = PayloadType.fec.code then
    ({ rx with asm := rx.asm.storeParity h.captureUsLo payload }, [])
  else (rx, [])

/-- One turn of `recv_loop`. -/
def recv (rx : RtpReceiver) (buf : Bytes) (now : Int) : RtpReceiver × List RtpOutput :=
  if buf.length < 12 then (rx, [])
  else if buf.getD 0 0 = 0x80 then
    match parseRtp buf with
    | none => (rx, [])
    | some p => rx.pushPacket p now
  else if UdpHeader.magicOk buf then
    if buf.length < UdpHeader.kSize then (rx, []) else rx.recvControl buf now
  else (rx, [])

/-- One turn of `assemble_loop`. -/
def popUnit (rx : RtpReceiver) (now : Int) : RtpReceiver × List RtpOutput :=
  let r := rx.jb.pop now
  let rx := { rx with jb := r.1 }
  match r.2.1.bind (·.data) with
  | none => (rx, r.2.2.map .jb)
  | some p =>
    let a := rx.asm.assemble p now
    ({ rx with asm := a.1 }, r.2.2.map .jb ++ .popped p :: a.2.map .asm)

/-- The receiver as a machine. -/
def step (rx : RtpReceiver) : RtpInput → RtpReceiver × List RtpOutput
  | .datagram buf now => rx.recv buf now
  | .pop now => rx.popUnit now

end RtpReceiver

end Rtstream
