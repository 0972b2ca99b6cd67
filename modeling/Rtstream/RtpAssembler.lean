import Rtstream.Fec
import Rtstream.Lib.OrderedMap
import Rtstream.Lib.Runs

/-!
# `rtp_receiver.h`, second half: from packets to frames

The assembling thread takes packets in the order of their numbers and collects those of one
timestamp (`cur_`). A frame whose packets are all there is emitted when its marker arrives, and
a frame with one packet missing is recovered from its parity, if that has been stored. A frame
that is not ready at its marker waits as a zombie for up to 250 ms.

`emit` turns packets back into an Annex-B stream. Its writes into the vector `ordered` are not
checked by the code; a write past the end has no defined meaning, and the model reports it
(`RtpEffect.outOfBounds`) and goes on without it.
-/

namespace Rtstream

open Std (TreeMap)
open RaggedXor (maxLen)

structure RtpPkt where
  seq : UInt16 := 0
  ts : UInt32 := 0
  marker : Bool := false
  captureMs : Int := 0
  /-- The complete packet, with its header. -/
  raw : Bytes := []
  deriving DecidableEq, Repr

/-- The packets of one frame. -/
structure FrameState where
  started : Bool := false
  markerSeen : Bool := false
  captureMs : Int := 0
  ts : UInt32 := 0
  firstSeq : UInt16 := 0
  raws : TreeMap UInt16 Bytes := ∅
  firstSeenUs : Int := 0

/-- What the assembler makes the rest of the program see. -/
inductive RtpEffect
  /-- `out.push`: a frame for the decoder, with the packets it was made from. -/
  | out (src : FrameState) (rawExtra : Option Bytes) (f : EncodedFrame)
  /-- A write past the end of `ordered`. -/
  | outOfBounds (idx size : ℕ)
  /-- `Metrics::fec_recovered++`. -/
  | fecRecovered
  /-- `Metrics::net_lost += n`. -/
  | lost (n : UInt64)

/-- The state of the assembling thread, and the parities the receiving thread stores for it. -/
structure Assembler where
  cur : FrameState := {}
  fec : TreeMap UInt32 Bytes := ∅
  zombies : List FrameState := []

namespace FrameState

/-- `span`: how many packets the numbers seen so far reach over. -/
def span (f : FrameState) : UInt32 :=
  match OrderedMap.last? f.raws with
  | some (lastSeq, _) => lastSeq.toUInt32 - f.firstSeq.toUInt32 + 1
  | none => 0

/-- Where `emit` puts a packet: `static_cast<size_t>(seq - first_seq)`. -/
def index (f : FrameState) (seq : UInt16) : ℕ := (seq.toUInt64 - f.firstSeq.toUInt64).toNat

/-! ## Emitting a frame -/

/-- The packets in order, with what was written out of range. -/
def ordered (f : FrameState) (rawExtra : Option Bytes) : List Bytes :=
  let placed := f.raws.toList.foldl (fun acc kv => acc.set (f.index kv.1) kv.2)
    (List.replicate f.span.toNat [])
  match rawExtra with
  | none => placed
  | some raw =>
    if raw.isEmpty then placed
    else
      let seq := UInt16.ofNat (UdpHeader.field raw 2 2)
      let idx := seq.toUInt32 - f.firstSeq.toUInt32
      if idx < f.span then placed.set idx.toNat raw else placed

/-- The writes of `emit` that go past the end. -/
def badWrites (f : FrameState) : List RtpEffect :=
  f.raws.toList.filterMap fun kv =>
    if f.index kv.1 < f.span.toNat then none else some (.outOfBounds (f.index kv.1) f.span.toNat)

end FrameState

/-- The Annex-B stream while it is put together. -/
structure Depacketizer where
  annexb : Bytes := []
  keyframe : Bool := false
  fuActive : Bool := false
  deriving DecidableEq, Repr

namespace Depacketizer

/-- A Single NALU packet. -/
def single (a : Depacketizer) (pl : Bytes) : Depacketizer :=
  { annexb := a.annexb ++ [0, 0, 0, 1] ++ pl
    keyframe := a.keyframe || pl.headD 0 &&& 0x1F == 5
    fuActive := false }

/-- An FU-A packet: the start bit opens a NALU, later fragments continue it, the end bit closes
it. -/
def fragment (a : Depacketizer) (pl : Bytes) : Depacketizer :=
  if pl.length < 2 then a
  else
    let fu := pl.getD 1 0
    let a := if fu &&& 0x80 != 0 then
        let nalHdr := (pl.headD 0 &&& 0xE0) ||| (fu &&& 0x1F)
        { annexb := a.annexb ++ [0, 0, 0, 1] ++ nalHdr :: pl.drop 2
          keyframe := a.keyframe || nalHdr &&& 0x1F == 5
          fuActive := true }
      else if a.fuActive then { a with annexb := a.annexb ++ pl.drop 2 }
      else a
    if fu &&& 0x40 != 0 then { a with fuActive := false } else a

/-- What a packet carries behind its header. -/
def payload (a : Depacketizer) (pl : Bytes) : Depacketizer :=
  if pl.headD 0 &&& 0x1F = 28 then a.fragment pl else a.single pl

/-- One packet, with its header. -/
def packet (a : Depacketizer) (raw : Bytes) : Depacketizer :=
  if raw.length < 13 then a else a.payload (raw.drop 12)

/-- The packets of a frame. -/
def run (raws : List Bytes) : Depacketizer := raws.foldl packet {}

end Depacketizer

namespace FrameState

/-- The frame for the decoder. -/
def encoded (f : FrameState) (a : Depacketizer) (now : Int) : EncodedFrame :=
  { captureUs := f.captureMs * 1000, frameId := f.captureMs, keyframe := a.keyframe,
    data := a.annexb, encodeDoneUs := now }

/-- `emit`: put the packets in order and depacketize them; an empty stream is not output. -/
def emit (f : FrameState) (rawExtra : Option Bytes) (now : Int) : List RtpEffect :=
  let a := Depacketizer.run (f.ordered rawExtra)
  f.badWrites ++ if a.annexb.isEmpty then [] else [.out f rawExtra (f.encoded a now)]

/-! ## Recovering a packet -/

/-- The packets by position, with empty strings for the missing ones. -/
def known (f : FrameState) : List Bytes :=
  (List.range f.span.toNat).map fun s => f.raws[f.firstSeq + UInt16.ofNat s]?.getD []

/-- The position of the last missing packet. -/
def missingIdx (f : FrameState) : Option ℕ :=
  (List.range f.span.toNat).reverse.find? fun s => !f.raws.contains (f.firstSeq + UInt16.ofNat s)

/-- The missing packet, XORed from the others and the parity. -/
def rebuild (f : FrameState) (parity : Bytes) : Option Bytes :=
  match f.missingIdx with
  | none => none
  | some missing =>
    let known := f.known ++ [parity]
    let r := fecRecover known (max parity.length (maxLen known))
    if r.1 then some (r.2.getD missing []) else none

/-- The recovery that `finalize_frame` and `expire_zombies` try: one packet is missing and the
parity of the frame is stored. -/
def recover (f : FrameState) (fec : TreeMap UInt32 Bytes) : Option Bytes :=
  match fec[toUInt32 f.captureMs]? with
  | none => none
  | some parity =>
    if f.raws.size = (f.span - 1).toNat ∧ f.markerSeen = true then f.rebuild parity else none

/-- The packets of the frame that are counted as lost, as a `size_t`. -/
def lostCount (f : FrameState) : UInt64 := UInt64.ofNat f.span.toNat - UInt64.ofNat f.raws.size

/-- All packets are there, and the marker. -/
def complete (f : FrameState) : Bool := f.raws.size == f.span.toNat && f.markerSeen

end FrameState

namespace Assembler

/-- `finalize_frame(cur_, explicit_marker)`. A frame that is emitted stays in `cur_`. -/
def finalizeFrame (m : Assembler) (explicitMarker : Bool) (now : Int) :
    Assembler × List RtpEffect :=
  let f := m.cur
  if !f.started || f.raws.isEmpty then (m, [])
  else if f.complete then (m, f.emit none now)
  else match f.recover m.fec with
    | some raw =>
        ({ m with fec := m.fec.erase (toUInt32 f.captureMs) },
          f.emit (some raw) now ++ [.fecRecovered])
    | none =>
        if explicitMarker && now - f.firstSeenUs < 250 * 1000 then
          ({ m with cur := {}, zombies := m.zombies ++ [f] }, [])
        else ({ m with cur := {} }, [.lost f.lostCount])

/-- The loop of `expire_zombies`. -/
def expireLoop (now : Int) : TreeMap UInt32 Bytes → List FrameState →
    TreeMap UInt32 Bytes × List FrameState × List RtpEffect
  | fec, [] => (fec, [], [])
  | fec, z :: zs =>
    match z.recover fec with
    | some raw =>
        let r := expireLoop now (fec.erase (toUInt32 z.captureMs)) zs
        (r.1, r.2.1, z.emit (some raw) now ++ .fecRecovered :: r.2.2)
    | none =>
        let r := expireLoop now fec zs
        if now - z.firstSeenUs > 250 * 1000 then (r.1, r.2.1, .lost z.lostCount :: r.2.2)
        else (r.1, z :: r.2.1, r.2.2)

/-- `expire_zombies`. -/
def expireZombies (m : Assembler) (now : Int) : Assembler × List RtpEffect :=
  let r := expireLoop now m.fec m.zombies
  ({ m with fec := r.1, zombies := r.2.1 }, r.2.2)

/-- `f = FrameState{}`, and what it learns from the first packet. -/
def openFrame (p : RtpPkt) (now : Int) : FrameState :=
  { started := true, ts := p.ts, captureMs := p.captureMs, firstSeq := p.seq, firstSeenUs := now }

/-- The packet is added to the frame; the first arrival of a number counts. -/
def addPacket (f : FrameState) (p : RtpPkt) : FrameState :=
  { f with markerSeen := f.markerSeen || p.marker, raws := f.raws.insertIfNew p.seq p.raw }

/-- The frame before ends when a packet with another timestamp comes. -/
def switchFrame (m : Assembler) (p : RtpPkt) (now : Int) : Assembler × List RtpEffect :=
  if !m.cur.started || p.ts != m.cur.ts then
    let r := m.finalizeFrame false now
    ({ r.1 with cur := openFrame p now }, r.2)
  else (m, [])

/-- One turn of `assemble_loop`, with the packet that was popped. -/
def assemble (m : Assembler) (p : RtpPkt) (now : Int) : Assembler × List RtpEffect :=
  let (m, es₁) := m.switchFrame p now
  let m := { m with cur := addPacket m.cur p }
  let (m, es₂) := if p.marker then m.finalizeFrame true now else (m, [])
  let (m, es₃) := m.expireZombies now
  (m, es₁ ++ es₂ ++ es₃)

/-- The receiving thread stores a parity; of more than 64 the first one is dropped. -/
def storeParity (m : Assembler) (key : UInt32) (parity : Bytes) : Assembler :=
  let fec := m.fec.insert key parity
  if fec.size > 64 then
    match OrderedMap.first? fec with
    | some (k, _) => { m with fec := fec.erase k }
    | none => { m with fec := fec }
  else { m with fec := fec }

end Assembler

/-- What reaches the assembler. -/
inductive AsmInput
  | unit (p : RtpPkt) (now : Int)
  | parity (key : UInt32) (bytes : Bytes)
  deriving DecidableEq, Repr

namespace Assembler

/-- The assembler as a machine. -/
def step (m : Assembler) : AsmInput → Assembler × List RtpEffect
  | .unit p now => m.assemble p now
  | .parity key bytes => (m.storeParity key bytes, [])

end Assembler

end Rtstream
