import Rtstream.Fec
import Rtstream.NackManager

/-!
# `rtp_server.h`: cutting a frame into RTP packets

`send_frame` looks for the NALUs of a frame, puts each into one packet (Single NALU) or cuts it
over several (FU-A), numbers the packets with a 16-bit counter, sets the marker of the last one,
and sends them with the XOR parity of the whole packets behind them.

Sizes are `size_t`, so the capacities wrap for an MTU below the headers' size. When no room is
left for a fragment the FU-A loop never ends, which is the one case without a result.
-/

namespace Rtstream

open RaggedXor (xorInto)

/-- The RTP link's server: the part of its state that `send_frame` works on. -/
structure RtpServer where
  cfg : ServerConfig
  nack : NackManager
  seq : UInt16 := 0
  ssrc : UInt32 := 0
  deriving DecidableEq, Repr

namespace RtpServer

def kRtpHeader : UInt64 := 12
def kPayloadType : UInt8 := 96

/-- `start`, at local time `now`. -/
def start (cfg : ServerConfig) (now : Int) : RtpServer :=
  { cfg := cfg, nack := { cache := cfg.nackCache }, ssrc := toUInt32 now ||| 1 }

/-! ## Finding NALUs -/

/-- The length of the start code at the front of `d`, if there is one. -/
def startCode (d : Bytes) : Option ℕ :=
  if d.take 3 = [0, 0, 1] then some 3
  else if d.take 4 = [0, 0, 0, 1] then some 4
  else none

/-- The first loop of `next_nalu`: where the next start code is, and how long. `i` is the
position of `d` in the frame. -/
def findStart : Bytes → ℕ → Option (ℕ × ℕ)
  | [], _ => none
  | b :: d, i =>
    match startCode (b :: d) with
    | some n => some (i, n)
    | none => findStart d (i + 1)

/-- The second loop of `next_nalu`: where the NALU ends, at a start code or with the frame. -/
def findEnd : Bytes → ℕ → ℕ
  | [], j => j
  | b :: d, j => if (startCode (b :: d)).isSome then j else findEnd d (j + 1)

/-- `next_nalu`: where the next NALU starts, and its length. -/
def nextNalu (d : Bytes) (pos : ℕ) : Option (ℕ × ℕ) :=
  match findStart (d.drop pos) pos with
  | none => none
  | some (scStart, scLen) =>
    let nalStart := scStart + scLen
    let nalEnd := findEnd (d.drop nalStart) nalStart
    if nalEnd ≤ nalStart then none else some (nalStart, nalEnd - nalStart)

/-- The loop over the NALUs of a frame. Each turn goes past a start code, so the frame's length
is enough fuel. -/
def nalusFrom (d : Bytes) : ℕ → ℕ → List Bytes
  | 0, _ => []
  | fuel + 1, pos =>
    if pos < d.length then
      match nextNalu d pos with
      | none => []
      | some (nalStart, len) => Slices.slice d nalStart len :: nalusFrom d fuel (nalStart + len)
    else []

def nalus (d : Bytes) : List Bytes := nalusFrom d d.length 0

/-! ## Packets -/

/-- `write_rtp_header`. -/
def rtpHeader (marker : Bool) (seq : UInt16) (timestamp ssrc : UInt32) : Bytes :=
  [0x80, (if marker then 0x80 else 0x00) ||| kPayloadType] ++ BigEndian.store 2 seq.toNat ++
    BigEndian.store 4 timestamp.toNat ++ BigEndian.store 4 ssrc.toNat

/-- The FU-A loop: the payloads of the packets that carry `rest`, what is left of a NALU with
first byte `hdr`. `first` says that nothing was cut off yet. Without room for a fragment the
loop never ends. -/
def fuPayloads (hdr : UInt8) (maxPayload : ℕ) : ℕ → Bool → Bytes → Option (List Bytes)
  | _, _, [] => some []
  | 0, _, _ :: _ => none
  | fuel + 1, first, rest =>
    let chunk := min maxPayload rest.length
    let last := chunk == rest.length
    let payload := (hdr &&& 0xE0 ||| 28) ::
      ((if first then 0x80 else 0) ||| (if last then 0x40 else 0) ||| (hdr &&& 0x1F)) ::
      rest.take chunk
    (fuPayloads hdr maxPayload fuel false (rest.drop chunk)).map (payload :: ·)

theorem fuPayloads_nil (hdr : UInt8) (maxPayload fuel : ℕ) (first : Bool) :
    fuPayloads hdr maxPayload fuel first [] = some [] := by
  cases fuel <;> rfl

/-- A turn of the loop cuts one fragment off. -/
theorem fuPayloads_succ (hdr : UInt8) (maxPayload fuel : ℕ) (first : Bool) {rest : Bytes}
    (h : rest ≠ []) :
    fuPayloads hdr maxPayload (fuel + 1) first rest =
      (fuPayloads hdr maxPayload fuel false (rest.drop (min maxPayload rest.length))).map
        (((hdr &&& 0xE0 ||| 28) ::
          ((if first then 0x80 else 0) |||
            (if min maxPayload rest.length == rest.length then 0x40 else 0) ||| (hdr &&& 0x1F)) ::
          rest.take (min maxPayload rest.length)) :: ·) := by
  obtain ⟨b, bs, rfl⟩ := List.exists_cons_of_ne_nil h
  rfl

/-- The payloads of the packets of one NALU. -/
def nalPayloads (cfg : ServerConfig) (nal : Bytes) : Option (List Bytes) :=
  if UInt64.ofNat nal.length ≤ cfg.udpMtu - kRtpHeader then some [nal]
  else
    let maxPayload := cfg.udpMtu - kRtpHeader - 2
    fuPayloads (nal.headD 0) maxPayload.toNat nal.length true nal.tail

/-- The payloads of all NALUs, in order. -/
def payloads (cfg : ServerConfig) : List Bytes → Option (List Bytes)
  | [] => some []
  | nal :: nals => do
    let ps ← nalPayloads cfg nal
    let qs ← payloads cfg nals
    pure (ps ++ qs)

/-- The packets that carry `ps`, numbered from `s.seq` on. -/
def packetize (s : RtpServer) (timestamp : UInt32) (ps : List Bytes) : List Bytes :=
  ps.mapIdx fun i p => rtpHeader false (s.seq + UInt16.ofNat i) timestamp s.ssrc ++ p

/-- `packets.back()[1] |= 0x80`. -/
def markLast : List Bytes → List Bytes
  | [] => []
  | [p] => [p.modify 1 (· ||| 0x80)]
  | p :: ps => p :: markLast ps

/-- `read_seq`: the number in a packet's header. -/
def readSeq (p : Bytes) : UInt16 := UInt16.ofNat (UdpHeader.field p 2 2)

/-- The 90 kHz timestamp of a frame. -/
def timestamp (f : EncodedFrame) : UInt32 := toUInt32 (f.captureUs.tdiv 1000 * 90)

/-- The RTP packets of a frame. -/
def rtpPackets (s : RtpServer) (f : EncodedFrame) : Option (List Bytes) :=
  (payloads s.cfg (nalus f.data)).map fun ps => markLast (packetize s (timestamp f) ps)

/-- The XOR of the packets. Their lengths are compared as 32-bit numbers. -/
def parity (packets : List Bytes) : Bytes :=
  let parityLen := packets.foldl (fun m p => max m (p.length % 2 ^ 32)) 0
  packets.foldl xorInto (List.replicate parityLen 0)

/-- The datagram of the parity. Its `capture_us_lo` holds the capture time in milliseconds. -/
def fecDatagram (f : EncodedFrame) (packets : List Bytes) : Bytes :=
  let h : UdpHeader :=
    { payloadType := PayloadType.fec.code
      groupId := toUInt32 f.frameId
      fragmentSeq := UdpHeader.kFecSeq
      fragmentCnt := UInt16.ofNat packets.length
      frameId := toUInt32 f.frameId
      captureUsLo := toUInt32 (f.captureUs.tdiv 1000)
      payloadLen := UInt16.ofNat (parity packets).length }
  (h.setKeyframe f.keyframe).write ++ parity packets

/-- `send_frame`: the datagrams handed to the simulator, in order. There is no result when the
FU-A loop does not end. -/
def sendFrame (s : RtpServer) (f : EncodedFrame) : Option (RtpServer × List Bytes) := do
  let packets ← rtpPackets s f
  if packets.isEmpty then pure (s, [])
  else
    let nack := packets.foldl (fun n p => n.remember 0 (readSeq p) p) s.nack
    pure ({ s with nack := nack, seq := s.seq + UInt16.ofNat packets.length },
      packets ++ [fecDatagram f packets])

/-- Several frames, one after the other: the datagrams of each. -/
def sendFrames (s : RtpServer) : List EncodedFrame → Option (RtpServer × List (List Bytes))
  | [] => some (s, [])
  | f :: fs => do
      let (s, out) ← sendFrame s f
      let (s, outs) ← sendFrames s fs
      pure (s, out :: outs)

end RtpServer

end Rtstream
