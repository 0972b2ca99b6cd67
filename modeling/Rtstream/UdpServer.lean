import Rtstream.Fec
import Rtstream.NackManager

/-!
# `udp_server.h`: cutting a frame into datagrams

`send_frame` cuts a frame into fragments of at most `udp_mtu - 24` bytes, sends each behind its
own header, and sends their XOR parity last. Sizes are `size_t`, so the capacity
`udp_mtu - kSize` wraps for an MTU below the header's size; at the header's size the fragment
count divides by zero, which is the one case without a result.
-/

namespace Rtstream

/-- The UDP link's server: the part of its state that `send_frame` works on. -/
structure UdpServer where
  cfg : ServerConfig
  nack : NackManager
  deriving DecidableEq, Repr

namespace UdpServer

def start (cfg : ServerConfig) : UdpServer := ⟨cfg, { cache := cfg.nackCache }⟩

/-- `payload_size`: how much of a frame goes into one datagram. -/
def payloadSize (cfg : ServerConfig) : UInt64 := cfg.udpMtu - UInt64.ofNat UdpHeader.kSize

/-- `cnt`: the number of data fragments of a frame of `size` bytes. -/
def fragmentCount (cfg : ServerConfig) (size : ℕ) : ℕ :=
  let cnt := (UInt64.ofNat size + payloadSize cfg - 1) / payloadSize cfg
  if cnt = 0 then 1 else cnt.toNat

/-- `fragments`: fragment `i` starts at `i * payload_size`. -/
def fragments (cfg : ServerConfig) (data : Bytes) : List Bytes :=
  let n := (payloadSize cfg).toNat
  (List.range (fragmentCount cfg data.length)).map fun i => Slices.slice data (i * n) n

/-- The header of fragment `seq` of a frame of `cnt` fragments. -/
def header (f : EncodedFrame) (cnt : ℕ) (kind : PayloadType) (seq : UInt16) (len : ℕ) :
    UdpHeader :=
  { payloadType := kind.code
    groupId := toUInt32 f.frameId
    fragmentSeq := seq
    fragmentCnt := UInt16.ofNat (cnt + 1)
    frameId := toUInt32 f.frameId
    captureUsLo := toUInt32 f.captureUs
    payloadLen := UInt16.ofNat len : UdpHeader }.setKeyframe f.keyframe

/-- The datagram of one fragment. -/
def datagram (f : EncodedFrame) (cnt : ℕ) (kind : PayloadType) (seq : UInt16) (payload : Bytes) :
    Bytes := (header f cnt kind seq payload.length).write ++ payload

/-- The data datagram of fragment `i`. -/
def dataDatagram (cfg : ServerConfig) (f : EncodedFrame) (i : ℕ) : Bytes :=
  datagram f (fragmentCount cfg f.data.length) .data (UInt16.ofNat i)
    ((fragments cfg f.data).getD i [])

/-- The datagram of the parity. -/
def fecDatagram (cfg : ServerConfig) (f : EncodedFrame) : Bytes :=
  datagram f (fragmentCount cfg f.data.length) .fec UdpHeader.kFecSeq
    (fecGenerate (fragments cfg f.data))

/-- The datagrams of a frame in the order they are sent: the data fragments, then the parity. -/
def datagrams (cfg : ServerConfig) (f : EncodedFrame) : List Bytes :=
  (List.range (fragmentCount cfg f.data.length)).map (dataDatagram cfg f) ++ [fecDatagram cfg f]

/-- The `emit` lambda: remember a datagram, then hand it to the simulator. -/
def emit (f : EncodedFrame) (acc : UdpServer × List Bytes) (seq : UInt16) (pkt : Bytes) :
    UdpServer × List Bytes :=
  ({ acc.1 with nack := acc.1.nack.remember (toUInt32 f.frameId) seq pkt }, acc.2 ++ [pkt])

/-- `send_frame`: the datagrams handed to the simulator, in order. There is no result when the
fragment count divides by zero. -/
def sendFrame (s : UdpServer) (f : EncodedFrame) : Option (UdpServer × List Bytes) :=
  if payloadSize s.cfg = 0 then none
  else
    let acc := (List.range (fragmentCount s.cfg f.data.length)).foldl
      (fun acc i => emit f acc (UInt16.ofNat i) (dataDatagram s.cfg f i)) (s, [])
    some (emit f acc UdpHeader.kFecSeq (fecDatagram s.cfg f))

/-- Several frames, one after the other: the datagrams of each. -/
def sendFrames (s : UdpServer) : List EncodedFrame → Option (UdpServer × List (List Bytes))
  | [] => some (s, [])
  | f :: fs => do
      let (s, out) ← sendFrame s f
      let (s, outs) ← sendFrames s fs
      pure (s, out :: outs)

/-! ## What is sent -/

@[simp] theorem emit_snd (f : EncodedFrame) (acc : UdpServer × List Bytes) (seq : UInt16)
    (pkt : Bytes) : (emit f acc seq pkt).2 = acc.2 ++ [pkt] := rfl

@[simp] theorem emit_cfg (f : EncodedFrame) (acc : UdpServer × List Bytes) (seq : UInt16)
    (pkt : Bytes) : (emit f acc seq pkt).1.cfg = acc.1.cfg := rfl

theorem foldl_emit (f : EncodedFrame) (num : ℕ → UInt16) (pkt : ℕ → Bytes) (is : List ℕ)
    (acc : UdpServer × List Bytes) :
    (is.foldl (fun acc i => emit f acc (num i) (pkt i)) acc).2 = acc.2 ++ is.map pkt ∧
      (is.foldl (fun acc i => emit f acc (num i) (pkt i)) acc).1.cfg = acc.1.cfg := by
  induction is generalizing acc with
  | nil => simp
  | cons i is ih => simp [ih]

theorem exists_sendFrame {s : UdpServer} (h : payloadSize s.cfg ≠ 0) (f : EncodedFrame) :
    ∃ s', sendFrame s f = some (s', datagrams s.cfg f) ∧ s'.cfg = s.cfg := by
  obtain ⟨hout, hcfg⟩ := foldl_emit f UInt16.ofNat (dataDatagram s.cfg f)
    (List.range (fragmentCount s.cfg f.data.length)) (s, [])
  refine ⟨(emit f ((List.range (fragmentCount s.cfg f.data.length)).foldl
    (fun acc i => emit f acc (UInt16.ofNat i) (dataDatagram s.cfg f i)) (s, []))
    UdpHeader.kFecSeq (fecDatagram s.cfg f)).1, ?_, ?_⟩
  · simp only [sendFrame, if_neg h, Option.some.injEq]
    refine Prod.ext rfl ?_
    rw [emit_snd, hout, datagrams, List.nil_append]
  · rw [emit_cfg, hcfg]

theorem sendFrame_eq_some {s s' : UdpServer} {f : EncodedFrame} {out : List Bytes}
    (h : sendFrame s f = some (s', out)) : out = datagrams s.cfg f ∧ s'.cfg = s.cfg := by
  have hp : payloadSize s.cfg ≠ 0 := fun hp => by simp [sendFrame, hp] at h
  obtain ⟨s₁, hs, hcfg⟩ := exists_sendFrame hp f
  obtain ⟨rfl, rfl⟩ := Prod.mk.inj (Option.some.inj (h.symm.trans hs))
  exact ⟨rfl, hcfg⟩

theorem sendFrames_eq_some {s s' : UdpServer} {fs : List EncodedFrame} {outs : List (List Bytes)}
    (h : sendFrames s fs = some (s', outs)) : outs = fs.map (datagrams s.cfg) := by
  induction fs generalizing s outs with
  | nil =>
    simp only [sendFrames, Option.some.injEq, Prod.mk.injEq] at h
    exact h.2.symm
  | cons f fs ih =>
    simp only [sendFrames, Option.bind_eq_bind, Option.bind_eq_some_iff, Option.pure_def,
      Option.some.injEq, Prod.mk.injEq] at h
    obtain ⟨⟨s₁, out⟩, hf, ⟨s₂, outs'⟩, hfs, rfl, rfl⟩ := h
    obtain ⟨rfl, hcfg⟩ := sendFrame_eq_some hf
    rw [ih (s := s₁) hfs, hcfg, List.map_cons]

/-! ## Fragments -/

theorem fragmentCount_pos (cfg : ServerConfig) (size : ℕ) : 0 < fragmentCount cfg size := by
  simp only [fragmentCount]
  split
  · exact Nat.one_pos
  · next h =>
    have : _ ≠ (0 : UInt64).toNat := fun e => h (UInt64.toNat_inj.1 e)
    exact Nat.pos_of_ne_zero this

@[simp] theorem length_fragments (cfg : ServerConfig) (data : Bytes) :
    (fragments cfg data).length = fragmentCount cfg data.length := by simp [fragments]

theorem toNat_payloadSize {cfg : ServerConfig} (h : 25 ≤ cfg.udpMtu.toNat) :
    (payloadSize cfg).toNat = cfg.udpMtu.toNat - 24 := by
  have hle : UInt64.ofNat UdpHeader.kSize ≤ cfg.udpMtu := by
    rw [UInt64.le_iff_toNat_le]
    simp [UdpHeader.kSize]
    omega
  rw [payloadSize, UInt64.toNat_sub_of_le _ _ hle]
  rfl

/-- For an MTU that leaves room, the count is the size over the capacity, rounded up. -/
theorem fragmentCount_eq {cfg : ServerConfig} {size : ℕ} (h25 : 25 ≤ cfg.udpMtu.toNat)
    (hpos : 0 < size) (hsize : size < 2 ^ 63) :
    fragmentCount cfg size = (size + (cfg.udpMtu.toNat - 24) - 1) / (cfg.udpMtu.toNat - 24) := by
  have hn := toNat_payloadSize h25
  have hmtu := cfg.udpMtu.toNat_lt
  set n := cfg.udpMtu.toNat - 24
  have hs : (UInt64.ofNat size).toNat = size := by simp; omega
  have hsum : (UInt64.ofNat size + payloadSize cfg).toNat = (size + n) % 2 ^ 64 := by
    rw [UInt64.toNat_add, hn, hs]
  have hcnt : ((UInt64.ofNat size + payloadSize cfg - 1) / payloadSize cfg).toNat =
      (2 ^ 64 - 1 + (size + n) % 2 ^ 64) % 2 ^ 64 / n := by
    rw [UInt64.toNat_div, UInt64.toNat_sub, hsum, hn]
    rfl
  have hge : 1 ≤ (size + n - 1) / n := (Nat.le_div_iff_mul_le (by omega)).2 (by omega)
  have hif : fragmentCount cfg size =
      if (2 ^ 64 - 1 + (size + n) % 2 ^ 64) % 2 ^ 64 / n = 0 then 1
      else (2 ^ 64 - 1 + (size + n) % 2 ^ 64) % 2 ^ 64 / n := by
    simp only [fragmentCount, ← UInt64.toNat_inj, hcnt]
    rfl
  rw [hif]
  by_cases hfit : size + n < 2 ^ 64
  · have : (2 ^ 64 - 1 + (size + n) % 2 ^ 64) % 2 ^ 64 = size + n - 1 := by omega
    rw [this, if_neg (by omega)]
  · -- The sum wraps, so the capacity exceeds the size and there is one fragment.
    have hone : (size + n - 1) / n = 1 := by
      rw [Nat.div_eq_iff (by omega)]
      omega
    rw [hone]
    split_ifs with h0
    · rfl
    · have hle : (2 ^ 64 - 1 + (size + n) % 2 ^ 64) % 2 ^ 64 / n ≤ 1 := by
        rw [← Nat.lt_succ_iff, Nat.div_lt_iff_lt_mul (by omega)]
        omega
      omega

end UdpServer

end Rtstream
