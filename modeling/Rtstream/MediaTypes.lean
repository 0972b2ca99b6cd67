import Rtstream.Lib.BigEndian
import Rtstream.Lib.Slices

/-!
# `media_types.h`: frames and the UDP wire header

The data types every other module uses, and the 24-byte header of the private UDP protocol
(also used for the control and FEC packets of the RTP link). Multi-byte fields travel in network
order, so `htons`/`htonl` and a `memcpy` are `BigEndian.store`, and the way back is
`BigEndian.load`.

`UdpHeader.read_write`: a receiver reads back the header a sender wrote, whatever payload
follows it.
-/

namespace Rtstream

/-- The contents of a `std::vector<uint8_t>`. -/
abbrev Bytes := List UInt8

/-- `static_cast<uint32_t>` of a signed 64-bit number. -/
def toUInt32 (x : Int) : UInt32 := UInt32.ofNat (x % 2 ^ 32).toNat

theorem toNat_toUInt32 (x : Int) : ((toUInt32 x).toNat : Int) = x % 2 ^ 32 := by
  rw [toUInt32, UInt32.toNat_ofNat']
  omega

/-- A `memcpy` of eight bytes into an `int64_t`, on a little-endian machine. -/
def hostInt64 (buf : Bytes) : Int :=
  (BitVec.ofNat 64 (BigEndian.load (buf.take 8).reverse)).toInt

/-- One encoded H.264 frame in Annex-B form. The width and height, which nothing on the
transport path reads, are left out. -/
structure EncodedFrame where
  captureUs : Int := 0
  wallUs : Int := 0
  encodeDoneUs : Int := 0
  frameId : Int := 0
  keyframe : Bool := false
  data : Bytes := []
  deriving DecidableEq, Repr

/-- What a packet of the private protocol carries. -/
inductive PayloadType
  | data
  | fec
  | nack
  | statsPing
  | statsPong
  | statsJson
  deriving DecidableEq, Repr

/-- The value of the enumerator, as it is written into the header. -/
def PayloadType.code : PayloadType → UInt8
  | .data => 0
  | .fec => 1
  | .nack => 2
  | .statsPing => 3
  | .statsPong => 4
  | .statsJson => 5

/-- The part of `ServerConfig` that decides what the servers send. -/
structure ServerConfig where
  udpMtu : UInt64 := 1200
  nackCache : ℕ := 4096
  deriving DecidableEq, Repr

/-! ## The 24-byte header -/

structure UdpHeader where
  payloadType : UInt8 := 0
  groupId : UInt32 := 0
  fragmentSeq : UInt16 := 0
  fragmentCnt : UInt16 := 0
  frameId : UInt32 := 0
  captureUsLo : UInt32 := 0
  payloadLen : UInt16 := 0
  flags : UInt8 := 0
  deriving DecidableEq, Repr

namespace UdpHeader

/-- `kSize`: the header's length on the wire. -/
def kSize : ℕ := 24

/-- `kFecSeq`: the fragment number of a parity packet. -/
def kFecSeq : UInt16 := 0xFFFF

/-- `write`: the header's bytes, magic `RT` and version first. -/
def write (h : UdpHeader) : Bytes :=
  [0x52, 0x54, 1, h.payloadType] ++ BigEndian.store 4 h.groupId.toNat ++
    BigEndian.store 2 h.fragmentSeq.toNat ++ BigEndian.store 2 h.fragmentCnt.toNat ++
    BigEndian.store 4 h.frameId.toNat ++ BigEndian.store 4 h.captureUsLo.toNat ++
    BigEndian.store 2 h.payloadLen.toNat ++ [h.flags, 0]

/-- The field of `len` bytes at `off`. -/
def field (buf : Bytes) (off len : ℕ) : ℕ := BigEndian.load (Slices.slice buf off len)

/-- `read`: the fields of a received packet. The magic is checked by the caller. -/
def read (buf : Bytes) : UdpHeader where
  payloadType := buf.getD 3 0
  groupId := UInt32.ofNat (field buf 4 4)
  fragmentSeq := UInt16.ofNat (field buf 8 2)
  fragmentCnt := UInt16.ofNat (field buf 10 2)
  frameId := UInt32.ofNat (field buf 12 4)
  captureUsLo := UInt32.ofNat (field buf 16 4)
  payloadLen := UInt16.ofNat (field buf 20 2)
  flags := buf.getD 22 0

/-- The payload of a control packet: cut to the length in the header, if that is shorter. -/
def limit (h : UdpHeader) (payload : Bytes) : Bytes :=
  if 0 < h.payloadLen.toNat ∧ h.payloadLen.toNat < payload.length then
    payload.take h.payloadLen.toNat
  else payload

def magicOk (buf : Bytes) : Bool := buf.getD 0 0 == 0x52 && buf.getD 1 0 == 0x54

/-- `keyframe()`: bit 0 of the flags. -/
def keyframe (h : UdpHeader) : Bool := h.flags &&& 1 != 0

/-- `set_keyframe`. -/
def setKeyframe (h : UdpHeader) (on : Bool) : UdpHeader :=
  { h with flags := if on then h.flags ||| 1 else h.flags &&& ~~~1 }

@[simp] theorem length_write (h : UdpHeader) : h.write.length = kSize := by
  simp [write, kSize]

@[simp] theorem drop_write (h : UdpHeader) (payload : Bytes) :
    (h.write ++ payload).drop kSize = payload := by
  rw [← length_write h, List.drop_left]

@[simp] theorem magicOk_write (h : UdpHeader) (payload : Bytes) :
    magicOk (h.write ++ payload) = true := by
  simp [magicOk, write]

/-- **The receiver reads back the header the sender wrote.** -/
@[simp] theorem read_write (h : UdpHeader) (payload : Bytes) : read (h.write ++ payload) = h := by
  obtain ⟨pt, gid, fs, fc, fid, cap, pl, fl⟩ := h
  simp only [read, UdpHeader.mk.injEq, write]
  refine ⟨by simp, ?_, ?_, ?_, ?_, ?_, ?_, by simp [List.getElem?_append]⟩
  · simp [field, Slices.slice, List.drop_append]
  all_goals simp [field, Slices.slice, List.drop_append, List.drop_eq_nil_of_le]

@[simp] theorem keyframe_setKeyframe (h : UdpHeader) (on : Bool) :
    (h.setKeyframe on).keyframe = on := by
  simp only [keyframe, setKeyframe]
  cases on
  · rw [if_neg Bool.false_ne_true, UInt8.and_assoc, UInt8.not_and_self]
    simp
  · have hbit : (h.flags ||| 1) &&& 1 = 1 := by
      apply UInt8.toNat_inj.1
      simp [Nat.and_one_is_mod, Nat.or_mod_two_eq_one]
    rw [if_pos rfl, hbit]
    rfl

end UdpHeader

end Rtstream
