import Rtstream.TcpClient

/-!
# The TCP stream arrives

A server writes frames and statistics one after the other. The client pushes the frames, in
order and as they were but for the times that do not travel, and hands the statistics on.

`send_encodes` is the length prefix: the client reads off the packet the server wrote.
`handlePacket_frame` and `handlePacket_stats` are the two headers.
-/

namespace Rtstream

/-- What the server puts on the stream. -/
inductive TcpItem
  | frame (f : EncodedFrame)
  | stats (now : Int) (payload : Bytes)
  deriving DecidableEq, Repr

namespace TcpItem

/-- The packet behind the length. -/
def packet : TcpItem → Bytes
  | .frame f => TcpWire.writeHeader f ++ f.data
  | .stats now payload => TcpWire.writeControlHeader 0 now true ++ payload

/-- What `send_loop` or `stats_loop` writes. -/
def write : TcpItem → Bytes
  | .frame f => TcpServer.sendFrame f
  | .stats now payload => TcpServer.sendStats now payload

theorem write_eq (x : TcpItem) : x.write = TcpServer.send x.packet := by
  cases x <;> rfl

/-- Frames and statistics that fit: the numbers are of the widths the wire has, and the packet is
no longer than the client takes. -/
def Fits : TcpItem → Prop
  | .frame f => 0 ≤ f.frameId ∧ f.frameId < 2 ^ 32 ∧ -2 ^ 63 ≤ f.captureUs ∧ f.captureUs < 2 ^ 63 ∧
      f.data.length ≤ TcpClient.maxLength - TcpWire.kHeaderSize
  | .stats _ payload => payload.length ≤ TcpClient.maxLength - TcpWire.kHeaderSize

def frame? : TcpItem → Option EncodedFrame
  | .frame f => some f
  | .stats _ _ => none

def stats? : TcpItem → Option Bytes
  | .frame _ => none
  | .stats _ payload => some payload

end TcpItem

/-- What of a frame travels. -/
def EncodedFrame.content (f : EncodedFrame) : Bool × Int × Int × Bytes :=
  (f.keyframe, f.frameId, f.captureUs, f.data)

namespace TcpClient

/-- The frames handed to `out.push`. -/
def pushed (out : List TcpEffect) : List EncodedFrame :=
  out.filterMap fun e => match e with
    | .push f => some f
    | _ => none

/-- The payloads handed to `update_remote_from_json`. -/
def remotes (out : List TcpEffect) : List Bytes :=
  out.filterMap fun e => match e with
    | .updateRemote json => some json
    | _ => none

/-! ## The length -/

@[simp] theorem length_writeHeader (f : EncodedFrame) :
    (TcpWire.writeHeader f).length = TcpWire.kHeaderSize := by
  simp [TcpWire.writeHeader, TcpWire.kMagic, TcpWire.kHeaderSize]

@[simp] theorem length_writeControlHeader (id : UInt32) (now : Int) (stats : Bool) :
    (TcpWire.writeControlHeader id now stats).length = TcpWire.kHeaderSize := by
  simp [TcpWire.writeControlHeader, TcpWire.kMagic, TcpWire.kHeaderSize]

theorem isBadLength_packet {x : TcpItem} (h : x.Fits) : isBadLength x.packet.length = false := by
  have hlen : TcpWire.kHeaderSize ≤ x.packet.length ∧ x.packet.length ≤ maxLength := by
    cases x with
    | frame f =>
      have hdata := h.2.2.2.2
      simp only [TcpItem.packet, List.length_append, length_writeHeader]
      simp only [maxLength, TcpWire.kHeaderSize] at *
      omega
    | stats now payload =>
      have hdata : payload.length ≤ maxLength - TcpWire.kHeaderSize := h
      simp only [TcpItem.packet, List.length_append, length_writeControlHeader]
      simp only [maxLength, TcpWire.kHeaderSize] at *
      omega
  simpa [isBadLength] using hlen

/-- **A packet is read off as it was written**, whatever follows it. -/
theorem write_encodes {x : TcpItem} (h : x.Fits) : reader.Encodes (.packet x.packet) x.write := by
  intro more
  have hgood := isBadLength_packet h
  have hlen : (x.write ++ more).length = 4 + x.packet.length + more.length := by
    simp [TcpItem.write_eq, TcpServer.send, Nat.add_assoc]
  have hsplit : x.write ++ more =
      BigEndian.store 4 x.packet.length ++ (x.packet ++ more) := by
    simp [TcpItem.write_eq, TcpServer.send]
  have hfour : (BigEndian.store 4 x.packet.length).length = 4 := BigEndian.length_store _ _
  have htotal : BigEndian.load ((x.write ++ more).take 4) = x.packet.length := by
    have hlt : x.packet.length < 256 ^ 4 := by
      have hmax : x.packet.length ≤ maxLength := by
        simp only [isBadLength, decide_eq_false_iff_not, not_or, not_lt] at hgood
        exact hgood.2
      exact hmax.trans_lt (by decide)
    rw [hsplit, List.take_left' hfour, BigEndian.load_store, Nat.mod_eq_of_lt hlt]
  show nextPacket (x.write ++ more) = some (.packet x.packet, more)
  rw [nextPacket_of_good (by omega) htotal hgood, if_neg (by omega), Slices.slice, ← List.drop_drop,
    hsplit, List.drop_left' hfour, List.take_left, List.drop_left]

/-! ## The headers -/

variable {clock : ℕ → Int} {s : TcpSession}

theorem toInt_toUInt64 {x : Int} (hlo : -2 ^ 63 ≤ x) (hhi : x < 2 ^ 63) :
    (BitVec.ofNat 64 (TcpWire.toUInt64 x)).toInt = x := by
  rw [BitVec.toInt_eq_toNat_cond, BitVec.toNat_ofNat, TcpWire.toUInt64]
  split_ifs <;> omega

theorem load_toUInt64 (x : Int) :
    BigEndian.load (BigEndian.store 8 (TcpWire.toUInt64 x)) = TcpWire.toUInt64 x := by
  have hlt : TcpWire.toUInt64 x < 256 ^ 8 := by
    rw [TcpWire.toUInt64]
    omega
  rw [BigEndian.load_store, Nat.mod_eq_of_lt hlt]

theorem toNat_toUInt32 {x : Int} (hlo : 0 ≤ x) (hhi : x < 2 ^ 32) :
    ((toUInt32 x).toNat : Int) = x := by
  have hlt : (x % 2 ^ 32).toNat < 2 ^ 32 := by omega
  rw [toUInt32, UInt32.toNat_ofNat_of_lt' hlt]
  omega

theorem handlePacket_frame {f : EncodedFrame} (h : (TcpItem.frame f).Fits) :
    handlePacket clock s (TcpItem.frame f).packet =
      ({ s with clockReads := s.clockReads + 1 },
        [.received ((TcpItem.frame f).packet.length + 4),
          .push { f with wallUs := 0, encodeDoneUs := clock s.clockReads }]) := by
  obtain ⟨hid, hid', hlo, hhi, -⟩ := h
  have hmagic : TcpWire.magicOk (TcpItem.frame f).packet = true := by
    simp [TcpWire.magicOk, TcpItem.packet, TcpWire.writeHeader, TcpWire.kMagic]
  have hflags : (TcpItem.frame f).packet.getD 4 0 = if f.keyframe then 1 else 0 := by
    simp [TcpItem.packet, TcpWire.writeHeader, TcpWire.kMagic]
  have hstats : ((if f.keyframe then 1 else 0 : UInt8) &&& 0x2 != 0) = false := by
    cases f.keyframe <;> rfl
  have hkey : ((if f.keyframe then 1 else 0 : UInt8) &&& 1 != 0) = f.keyframe := by
    cases f.keyframe <;> rfl
  have hidField : Slices.slice (TcpItem.frame f).packet 8 4 =
      BigEndian.store 4 (toUInt32 f.frameId).toNat := by
    simp [Slices.slice, TcpItem.packet, TcpWire.writeHeader, TcpWire.kMagic, List.drop_append]
  have htime : Slices.slice (TcpItem.frame f).packet 12 8 =
      BigEndian.store 8 (TcpWire.toUInt64 f.captureUs) := by
    simp [Slices.slice, TcpItem.packet, TcpWire.writeHeader, TcpWire.kMagic]
  have hdata : (TcpItem.frame f).packet.drop TcpWire.kHeaderSize = f.data :=
    List.drop_left' (length_writeHeader f)
  have hframe : readFrame (clock s.clockReads) (TcpItem.frame f).packet =
      { f with wallUs := 0, encodeDoneUs := clock s.clockReads } := by
    simp only [readFrame, hflags, hkey, hidField, htime, hdata, BigEndian.uint32_load_store,
      toNat_toUInt32 hid hid', load_toUInt64, toInt_toUInt64 hlo hhi]
  rw [handlePacket, hmagic, hflags, hstats, hframe]
  rfl

theorem handlePacket_stats (now : Int) (payload : Bytes) :
    handlePacket clock s (TcpItem.stats now payload).packet =
      (s, [.received ((TcpItem.stats now payload).packet.length + 4), .updateRemote payload]) := by
  have hmagic : TcpWire.magicOk (TcpItem.stats now payload).packet = true := by
    simp [TcpWire.magicOk, TcpItem.packet, TcpWire.writeControlHeader, TcpWire.kMagic]
  have hflags : (TcpItem.stats now payload).packet.getD 4 0 = 0x2 := by
    simp [TcpItem.packet, TcpWire.writeControlHeader, TcpWire.kMagic]
  have hdata : (TcpItem.stats now payload).packet.drop TcpWire.kHeaderSize = payload :=
    List.drop_left' (length_writeControlHeader 0 now true)
  rw [handlePacket, hmagic, hflags, hdata]
  rfl

/-! ## The stream -/

theorem run_packet (hs : s.running = true) (buf : Bytes) (reads : List TcpRead) :
    ((handler clock).run s (.packet buf :: reads)).2 =
      (handlePacket clock s buf).2 ++ ((handler clock).run (handlePacket clock s buf).1 reads).2 :=
  congrArg Prod.snd (if_pos hs)

/-- **Item after item**, the frames are pushed and the statistics handed on. -/
theorem run_packets (hs : s.running = true) {items : List TcpItem} (hitems : ∀ x ∈ items, x.Fits) :
    (pushed ((handler clock).run s (items.map fun x => .packet x.packet)).2).map
        EncodedFrame.content = (items.filterMap TcpItem.frame?).map EncodedFrame.content ∧
      remotes ((handler clock).run s (items.map fun x => .packet x.packet)).2 =
        items.filterMap TcpItem.stats? := by
  induction items generalizing s with
  | nil => exact ⟨rfl, rfl⟩
  | cons x items ih =>
    obtain ⟨hx, hrest⟩ := List.forall_mem_cons.mp hitems
    rw [List.map_cons, run_packet hs]
    cases x with
    | frame f =>
      rw [handlePacket_frame hx]
      obtain ⟨hpushed, hremotes⟩ := @ih { s with clockReads := s.clockReads + 1 } hs hrest
      exact ⟨congrArg (f.content :: ·) hpushed, hremotes⟩
    | stats now payload =>
      rw [handlePacket_stats]
      obtain ⟨hpushed, hremotes⟩ := ih hs hrest
      exact ⟨hpushed, congrArg (payload :: ·) hremotes⟩

/-- **The TCP stream arrives.** Whatever frames and statistics the server writes, and however the
stream is cut into what `recv` returns, the client pushes exactly these frames, in order and with
the contents they were sent with, and hands on each statistics payload. -/
theorem tcp_round_trip {items : List TcpItem} {segs : List Bytes} (hitems : ∀ x ∈ items, x.Fits)
    (hcut : segs.flatten = items.flatMap TcpItem.write) (hsegs : ∀ seg ∈ segs, seg ≠ []) :
    (pushed (run clock segs)).map EncodedFrame.content =
        (items.filterMap TcpItem.frame?).map EncodedFrame.content ∧
      remotes (run clock segs) = items.filterMap TcpItem.stats? := by
  have hencoded : List.Forall₂ reader.Encodes (items.map fun x => .packet x.packet)
      (items.map TcpItem.write) := by
    simp only [List.forall₂_map_left_iff, List.forall₂_map_right_iff, List.forall₂_same]
    exact fun x hx => write_encodes (hitems x hx)
  have hempty : reader.items [] = ([], []) := Framing.Reader.items_of_none rfl
  have hread := Framing.Reader.items_encoded [] hencoded
  rw [List.append_nil, hempty, List.append_nil] at hread
  rw [run, loop_eq clock hsegs (Nat.lt_succ_self _), hcut, List.flatMap, hread]
  exact run_packets rfl hitems

/-- A keyframe from before the clock's zero, and statistics behind it, cut inside both lengths. -/
theorem tcp_round_trip_two :
    (pushed (run (fun _ => 0)
        [[0, 0], [0, 22, 0x52, 0x54, 0x56, 0x31, 1, 0, 0, 0, 0, 0, 0, 7],
          [255, 255, 255, 255, 255, 255, 255, 251, 1, 2, 0], [0, 0, 22, 0x52, 0x54, 0x56, 0x31, 2,
          0, 0, 0, 0, 0, 0, 0, 0, 0, 0, 0, 0, 0, 0, 9, 0x7b, 0x7d]])).map EncodedFrame.content =
      [(true, 7, -5, [1, 2])] := by
  let f : EncodedFrame := { captureUs := -5, frameId := 7, keyframe := true, data := [1, 2] }
  have hitems : ∀ x ∈ [TcpItem.frame f, .stats 9 [0x7b, 0x7d]], x.Fits := by
    simp [TcpItem.Fits, f, maxLength, TcpWire.kHeaderSize]
  exact (tcp_round_trip hitems (by decide) (by decide)).1

end TcpClient

end Rtstream
