import Rtstream.MediaTypes
import Rtstream.Lib.Framing
import Mathlib.Tactic.Common

/-!
# The TCP link

The server writes a length in four bytes, a header of twenty and a payload, for each frame it
sends and once a second for its statistics. The client reads the length, then as many bytes, and
`recv` may return less than it was asked for.

`TcpClient.loop_eq`: the loop does what the packets of the whole stream call for, however the
stream is cut. The parser `TcpClient.reader` of that stream says what a packet is.
-/

namespace Rtstream

/-! ## What the server writes -/

namespace TcpWire

def kHeaderSize : ℕ := 20

/-- `RTV1`. -/
def kMagic : Bytes := [0x52, 0x54, 0x56, 0x31]

/-- `static_cast<uint64_t>` of a signed 64-bit number. -/
def toUInt64 (x : Int) : ℕ := (x % 2 ^ 64).toNat

/-- The header of a frame. -/
def writeHeader (f : EncodedFrame) : Bytes :=
  kMagic ++ [if f.keyframe then 1 else 0, 0, 0, 0] ++
  BigEndian.store 4 (toUInt32 f.frameId).toNat ++
    BigEndian.store 8 (toUInt64 f.captureUs)

/-- The header of a control packet. -/
def writeControlHeader (frameId : UInt32) (captureUs : Int) (stats : Bool) : Bytes :=
  kMagic ++ [if stats then 0x2 else 0, 0, 0, 0] ++ BigEndian.store 4 frameId.toNat ++
    BigEndian.store 8 (toUInt64 captureUs)

def magicOk (buf : Bytes) : Bool := buf.take 4 = kMagic

end TcpWire

namespace TcpServer

/-- The length in four bytes, then the packet. -/
def send (pkt : Bytes) : Bytes := BigEndian.store 4 pkt.length ++ pkt

/-- What `send_loop` writes for a frame. -/
def sendFrame (f : EncodedFrame) : Bytes := send (TcpWire.writeHeader f ++ f.data)

/-- What `stats_loop` writes at time `now`. -/
def sendStats (now : Int) (payload : Bytes) : Bytes :=
  send (TcpWire.writeControlHeader 0 now true ++ payload)

end TcpServer

/-! ## What the client does with it -/

/-- What the client's thread does. -/
inductive TcpEffect
  /-- `net_packets_recv` and `net_bytes_recv` are counted up. -/
  | received (bytes : ℕ)
  | updateRemote (json : Bytes)
  | push (f : EncodedFrame)
  deriving DecidableEq, Repr

/-- What the loop keeps: whether it goes on, and how often it has read the clock. -/
structure TcpSession where
  running : Bool := true
  clockReads : ℕ := 0
  deriving DecidableEq, Repr

/-- What the loop reads off the stream. -/
inductive TcpRead
  | badLength (total : ℕ)
  | packet (buf : Bytes)
  deriving DecidableEq, Repr

namespace TcpClient

/-- `read_all`, given what `recv` would return if it was asked for enough: the first `len` bytes,
and what is left to be received. An empty piece is a closed connection. -/
def readAll : ℕ → List Bytes → Option (Bytes × List Bytes)
  | 0, segs => some ([], segs)
  | _ + 1, [] => none
  | len + 1, seg :: segs =>
    if seg = [] then none
    else if seg.length ≤ len then
      match readAll (len + 1 - seg.length) segs with
      | none => none
      | some (got, rest) => some (seg ++ got, rest)
    else if seg.length = len + 1 then some (seg, segs)
    else some (seg.take (len + 1), seg.drop (len + 1) :: segs)

def maxLength : ℕ := 16 * 1024 * 1024

def isBadLength (total : ℕ) : Bool := total < TcpWire.kHeaderSize ∨ maxLength < total

/-- The frame in a packet, received at time `now`. -/
def readFrame (now : Int) (buf : Bytes) : EncodedFrame where
  keyframe := buf.getD 4 0 &&& 1 != 0
  frameId := (UInt32.ofNat (BigEndian.load (Slices.slice buf 8 4))).toNat
  captureUs := (BitVec.ofNat 64 (BigEndian.load (Slices.slice buf 12 8))).toInt
  wallUs := 0
  data := buf.drop TcpWire.kHeaderSize
  encodeDoneUs := now

/-- What is done for a packet. `clock` is what the calls of `now_us` return; `out` is not closed
before the loop is stopped, so the push succeeds. -/
def handlePacket (clock : ℕ → Int) (s : TcpSession) (buf : Bytes) : TcpSession × List TcpEffect :=
  if ! TcpWire.magicOk buf then (s, [])
  else if buf.getD 4 0 &&& 0x2 != 0 then
    (s, [.received (buf.length + 4), .updateRemote (buf.drop TcpWire.kHeaderSize)])
  else
    ({ s with clockReads := s.clockReads + 1 },
      [.received (buf.length + 4), .push (readFrame (clock s.clockReads) buf)])

/-- `loop`, at most `fuel` times around. -/
def loop (clock : ℕ → Int) : ℕ → TcpSession → List Bytes → List TcpEffect
  | 0, _, _ => []
  | fuel + 1, s, segs =>
    if s.running then
      match readAll 4 segs with
      | none => []
      | some (lenbuf, segs) =>
        let total := BigEndian.load lenbuf
        if isBadLength total then []
        else
          match readAll total segs with
          | none => []
          | some (buf, segs) =>
            let r := handlePacket clock s buf
            r.2 ++ loop clock fuel r.1 segs
    else []

/-- A connection on which `segs` arrives. Each round takes four bytes at least, so there is fuel
for all of them. -/
def run (clock : ℕ → Int) (segs : List Bytes) : List TcpEffect :=
  loop clock (segs.flatten.length + 1) {} segs

/-! ## The pieces do not matter -/

/-- **Reading `len` bytes.** It gives the first `len` bytes of what is to come, and takes them. -/
theorem readAll_of_le {len : ℕ} {segs : List Bytes} (hlen : len ≤ segs.flatten.length)
    (hne : ∀ seg ∈ segs, seg ≠ []) :
    ∃ rest, readAll len segs = some (segs.flatten.take len, rest) ∧
      rest.flatten = segs.flatten.drop len ∧ ∀ seg ∈ rest, seg ≠ [] := by
  induction segs generalizing len with
  | nil =>
    obtain rfl : len = 0 := by simpa using hlen
    exact ⟨[], rfl, rfl, hne⟩
  | cons seg segs ih =>
    cases len with
    | zero => exact ⟨seg :: segs, rfl, rfl, hne⟩
    | succ len =>
      obtain ⟨hseg, hsegs⟩ := List.forall_mem_cons.mp hne
      rw [List.flatten_cons, List.length_append] at hlen
      rw [readAll, if_neg hseg, List.flatten_cons]
      rcases Nat.lt_trichotomy seg.length (len + 1) with hlt | heq | hgt
      · obtain ⟨rest, hread, hflat, hrest⟩ := @ih (len + 1 - seg.length) (by omega) hsegs
        rw [if_pos (by omega), hread]
        refine ⟨rest, ?_, ?_, hrest⟩
        · rw [List.take_append, List.take_of_length_le hlt.le]
        · rw [hflat, List.drop_append, List.drop_of_length_le hlt.le, List.nil_append]
      · rw [if_neg (by omega), if_pos heq]
        exact ⟨segs, by rw [← heq, List.take_left], by rw [← heq, List.drop_left], hsegs⟩
      · rw [if_neg (by omega), if_neg (by omega)]
        refine ⟨seg.drop (len + 1) :: segs, ?_, ?_, ?_⟩
        · rw [List.take_append_of_le_length hgt.le]
        · rw [List.drop_append_of_le_length hgt.le, List.flatten_cons]
        · refine List.forall_mem_cons.mpr ⟨?_, hsegs⟩
          rw [ne_eq, List.drop_eq_nil_iff]
          omega

theorem readAll_of_lt {len : ℕ} {segs : List Bytes} (hlen : segs.flatten.length < len) :
    readAll len segs = none := by
  induction segs generalizing len with
  | nil =>
    cases len with
    | zero => exact absurd hlen (Nat.not_lt_zero _)
    | succ len => rfl
  | cons seg segs ih =>
    cases len with
    | zero => exact absurd hlen (Nat.not_lt_zero _)
    | succ len =>
      rw [List.flatten_cons, List.length_append] at hlen
      rw [readAll]
      split_ifs with hseg hle heq
      · rfl
      · rw [ih (by omega)]
      all_goals omega

/-- A packet off the front of the stream: its length in four bytes, then as many. -/
def nextPacket (buf : Bytes) : Option (TcpRead × Bytes) :=
  if buf.length < 4 then none
  else
    let total := BigEndian.load (buf.take 4)
    if isBadLength total then some (.badLength total, buf.drop 4)
    else if buf.length < 4 + total then none
    else some (.packet (Slices.slice buf 4 total), buf.drop (4 + total))

theorem nextPacket_of_bad {buf : Bytes} {total : ℕ} (hfour : ¬ buf.length < 4)
    (htotal : BigEndian.load (buf.take 4) = total) (hbad : isBadLength total = true) :
    nextPacket buf = some (.badLength total, buf.drop 4) := by
  rw [nextPacket, if_neg hfour, htotal]
  exact if_pos hbad

theorem nextPacket_of_good {buf : Bytes} {total : ℕ} (hfour : ¬ buf.length < 4)
    (htotal : BigEndian.load (buf.take 4) = total) (hgood : isBadLength total = false) :
    nextPacket buf =
      if buf.length < 4 + total then none
      else some (.packet (Slices.slice buf 4 total), buf.drop (4 + total)) := by
  rw [nextPacket, if_neg hfour, htotal]
  exact if_neg (by rw [hgood]; exact Bool.false_ne_true)

theorem nextPacket_spec {buf rest : Bytes} {x : TcpRead} (h : nextPacket buf = some (x, rest)) :
    rest.length < buf.length ∧ ∀ more, nextPacket (buf ++ more) = some (x, rest ++ more) := by
  by_cases hfour : buf.length < 4
  · rw [nextPacket, if_pos hfour] at h
    cases h
  · have hfour' : ∀ more, ¬ (buf ++ more).length < 4 := fun more => by
      rw [List.length_append]
      omega
    generalize htotal : BigEndian.load (buf.take 4) = total at *
    have htotal' : ∀ more, BigEndian.load ((buf ++ more).take 4) = total := fun more => by
      rw [List.take_append_of_le_length (not_lt.mp hfour), htotal]
    cases hbad : isBadLength total with
    | true =>
      rw [nextPacket_of_bad hfour htotal hbad] at h
      obtain ⟨rfl, rfl⟩ := Prod.mk.inj (Option.some.inj h)
      refine ⟨by rw [List.length_drop]; omega, fun more => ?_⟩
      rw [nextPacket_of_bad (hfour' more) (htotal' more) hbad,
        List.drop_append_of_le_length (not_lt.mp hfour)]
    | false =>
      rw [nextPacket_of_good hfour htotal hbad] at h
      split_ifs at h with hshort
      obtain ⟨rfl, rfl⟩ := Prod.mk.inj (Option.some.inj h)
      refine ⟨by rw [List.length_drop]; omega, fun more => ?_⟩
      rw [nextPacket_of_good (hfour' more) (htotal' more) hbad,
        if_neg (by rw [List.length_append]; omega), Slices.slice, Slices.slice,
        List.drop_append_of_le_length (by omega), List.drop_append_of_le_length (by omega),
        List.take_append_of_le_length (by rw [List.length_drop]; omega)]

/-- The packets of the stream. -/
def reader : Framing.Reader UInt8 TcpRead where
  next := nextPacket
  next_length h := (nextPacket_spec h).1
  next_append more h := (nextPacket_spec h).2 more

/-- What is done for each. -/
def handler (clock : ℕ → Int) : Framing.Handler TcpRead TcpSession TcpEffect where
  live s := s.running
  handle s
    | .badLength _ => ({ s with running := false }, [])
    | .packet buf => handlePacket clock s buf

theorem run_of_badLength (clock : ℕ → Int) {s : TcpSession} {w rest : Bytes} {total : ℕ}
    (hs : s.running = true) (hnext : reader.next w = some (.badLength total, rest)) :
    ((handler clock).run s (reader.items w).1).2 = [] := by
  have hlive : (handler clock).live s = true := hs
  have hdead : (handler clock).live { s with running := false } = false := rfl
  rw [Framing.Reader.items_of_some hnext, Framing.Handler.run_cons hlive]
  show [] ++ ((handler clock).run { s with running := false } _).2 = []
  rw [Framing.Handler.run_dead hdead]
  rfl

/-- **The loop handles the packets of the whole stream**, however it is cut. -/
theorem loop_eq (clock : ℕ → Int) {fuel : ℕ} {s : TcpSession} {segs : List Bytes}
    (hne : ∀ seg ∈ segs, seg ≠ []) (hfuel : segs.flatten.length < fuel) :
    loop clock fuel s segs = ((handler clock).run s (reader.items segs.flatten).1).2 := by
  induction fuel generalizing s segs with
  | zero => omega
  | succ fuel ih =>
    cases hs : s.running with
    | false =>
      have hdead : (handler clock).live s = false := hs
      rw [Framing.Handler.run_dead hdead, loop, hs]
      rfl
    | true =>
      rw [loop, if_pos hs]
      by_cases hfour : segs.flatten.length < 4
      · have hnext : reader.next segs.flatten = none := if_pos hfour
        rw [readAll_of_lt hfour, Framing.Reader.items_of_none hnext]
        rfl
      · obtain ⟨rest, hread, hflat, hrest⟩ := readAll_of_le (not_lt.mp hfour) hne
        have hlen : rest.flatten.length + 4 = segs.flatten.length := by
          rw [hflat, List.length_drop]
          omega
        generalize htotal : BigEndian.load (segs.flatten.take 4) = total
        have hlive : (handler clock).live s = true := hs
        rw [hread]
        dsimp only
        rw [htotal]
        cases hbad : isBadLength total with
        | true =>
          exact (run_of_badLength clock hs (nextPacket_of_bad hfour htotal hbad)).symm
        | false =>
          have hnext : reader.next segs.flatten = _ := nextPacket_of_good hfour htotal hbad
          rw [if_neg Bool.false_ne_true]
          by_cases hshort : segs.flatten.length < 4 + total
          · rw [if_pos hshort] at hnext
            rw [readAll_of_lt (by omega), Framing.Reader.items_of_none hnext]
            rfl
          · rw [if_neg hshort] at hnext
            obtain ⟨rest', hread', hflat', hrest'⟩ :=
              readAll_of_le (by omega : total ≤ rest.flatten.length) hrest
            rw [hflat, List.drop_drop] at hflat'
            rw [hread', Framing.Reader.items_of_some hnext, Framing.Handler.run_cons hlive,
              ← hflat']
            dsimp only
            rw [ih hrest' (by rw [hflat', List.length_drop]; omega), hflat]
            rfl

end TcpClient

end Rtstream
