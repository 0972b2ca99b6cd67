import Rtstream.UdpReceiverSpec
import Rtstream.UdpServer
import Mathlib.Data.List.GetD

/-!
# The fragments of a frame

What `send_frame` cuts a frame into, when the capacity is positive and the fragment numbers stay
below the parity's (`Sendable`): non-empty pieces that put together are the frame
(`flatten_fragments`), all as long as the capacity, but for the last one
(`length_eq_maxLen_iff`). And what a receiver reads in their datagrams.
-/

namespace Rtstream

open RaggedXor

namespace UdpServer

/-! ## Cutting and joining -/

/-- A frame that the server cuts into fragments with numbers of their own. -/
structure Sendable (cfg : ServerConfig) (f : EncodedFrame) : Prop where
  mtu : 25 ≤ cfg.udpMtu.toNat
  data : f.data ≠ []
  /-- A `std::vector<uint8_t>` is no longer than this. -/
  size : f.data.length < 2 ^ 63
  count : (f.data.length + (cfg.udpMtu.toNat - 24) - 1) / (cfg.udpMtu.toNat - 24) ≤ 65534

variable {cfg : ServerConfig} {f : EncodedFrame}

namespace Sendable

variable (h : Sendable cfg f)
include h

theorem fragmentCount_eq : fragmentCount cfg f.data.length =
    (f.data.length + (cfg.udpMtu.toNat - 24) - 1) / (cfg.udpMtu.toNat - 24) :=
  UdpServer.fragmentCount_eq h.mtu (List.length_pos_of_ne_nil h.data) h.size

theorem fragmentCount_le : fragmentCount cfg f.data.length ≤ 65534 := h.fragmentCount_eq ▸ h.count

theorem payloadSize_ne_zero : payloadSize cfg ≠ 0 := fun h0 => by
  have hn := toNat_payloadSize h.mtu
  have hmtu := h.mtu
  rw [h0] at hn
  simp at hn
  omega

theorem reach :
    f.data.length ≤ fragmentCount cfg f.data.length * (cfg.udpMtu.toNat - 24) ∧
      ∀ i < fragmentCount cfg f.data.length, i * (cfg.udpMtu.toNat - 24) < f.data.length := by
  have hmtu := h.mtu
  rw [h.fragmentCount_eq]
  set n := cfg.udpMtu.toNat - 24
  have hn : 0 < n := by omega
  have hlen := List.length_pos_of_ne_nil h.data
  constructor
  · have hmod := Nat.mod_lt (f.data.length + n - 1) hn
    have hdiv := Nat.div_add_mod (f.data.length + n - 1) n
    rw [Nat.mul_comm]
    omega
  · intro i hi
    have := (Nat.le_div_iff_mul_le hn).1 (Nat.succ_le_of_lt hi)
    rw [Nat.succ_mul] at this
    omega

theorem getElem_fragments {i : ℕ} (hi : i < (fragments cfg f.data).length) :
    (fragments cfg f.data)[i] =
      Slices.slice f.data (i * (cfg.udpMtu.toNat - 24)) (cfg.udpMtu.toNat - 24) := by
  simp [fragments, toNat_payloadSize h.mtu]

theorem length_getElem_fragments {i : ℕ} (hi : i < (fragments cfg f.data).length) :
    (fragments cfg f.data)[i].length =
      min (cfg.udpMtu.toNat - 24) (f.data.length - i * (cfg.udpMtu.toNat - 24)) := by
  rw [h.getElem_fragments, Slices.length_slice]

theorem fragments_ne_nil : ∀ x ∈ fragments cfg f.data, x ≠ [] := by
  intro x hx
  obtain ⟨i, hi, rfl⟩ := List.getElem_of_mem hx
  have hstart := h.reach.2 i (by simpa using hi)
  have hmtu := h.mtu
  apply List.ne_nil_of_length_pos
  rw [h.length_getElem_fragments]
  omega

theorem flatten_fragments : (fragments cfg f.data).flatten = f.data := by
  have := Slices.flatten_slices f.data (cfg.udpMtu.toNat - 24) (fragmentCount cfg f.data.length)
  rw [fragments, toNat_payloadSize h.mtu, this, List.take_of_length_le h.reach.1]

theorem maxLen_fragments_le : maxLen (fragments cfg f.data) ≤ cfg.udpMtu.toNat - 24 := by
  refine maxLen_le fun d hd => ?_
  obtain ⟨j, hj, rfl⟩ := List.getElem_of_mem hd
  rw [h.length_getElem_fragments hj]
  exact min_le_left _ _

section Lengths

variable {i : ℕ} (hi : i < (fragments cfg f.data).length)
include hi

theorem length_of_not_last (hlast : i + 1 < fragmentCount cfg f.data.length) :
    (fragments cfg f.data)[i].length = cfg.udpMtu.toNat - 24 := by
  have hstart := h.reach.2 (i + 1) hlast
  rw [Nat.succ_mul] at hstart
  rw [h.length_getElem_fragments hi]
  omega

/-- The last one is full when the capacity divides the length of the frame. -/
theorem length_last_iff (hlast : i + 1 = fragmentCount cfg f.data.length) :
    (fragments cfg f.data)[i].length = cfg.udpMtu.toNat - 24 ↔
      (cfg.udpMtu.toNat - 24) ∣ f.data.length := by
  obtain ⟨hend, hstart⟩ := h.reach
  have hi := hstart i (by omega)
  rw [← hlast, Nat.succ_mul] at hend
  rw [h.length_getElem_fragments]
  set n := cfg.udpMtu.toNat - 24
  constructor
  · intro hmin
    have hsize : f.data.length = (i + 1) * n := by
      rw [Nat.succ_mul]
      omega
    exact hsize ▸ Dvd.intro_left (i + 1) rfl
  · intro hdvd
    obtain ⟨q, hq⟩ := hdvd
    rw [Nat.mul_comm n q] at hq
    have hiq : i < q := Nat.lt_of_mul_lt_mul_right (hq ▸ hi)
    have hmul : (i + 1) * n ≤ q * n := Nat.mul_le_mul_right n hiq
    rw [Nat.succ_mul] at hmul
    omega

/-- Every fragment but the last is as long as the capacity, so only a last fragment can be
shorter than the longest one. -/
theorem length_eq_maxLen_iff :
    (fragments cfg f.data)[i].length = maxLen (fragments cfg f.data) ↔
      i + 1 < fragmentCount cfg f.data.length ∨ fragmentCount cfg f.data.length = 1 ∨
        (cfg.udpMtu.toNat - 24) ∣ f.data.length := by
  have hK : (fragments cfg f.data).length = fragmentCount cfg f.data.length := length_fragments ..
  by_cases hone : fragmentCount cfg f.data.length = 1
  · -- The only fragment is the longest.
    obtain ⟨x, hx⟩ := List.length_eq_one_iff.1 (hK.trans hone)
    refine iff_of_true ?_ (Or.inr (Or.inl hone))
    simp [hx, maxLen]
  · -- Of several the first is full, so the longest length is the capacity.
    have h0 : 0 < (fragments cfg f.data).length := by omega
    have hle := length_le_maxLen (List.getElem_mem h0)
    rw [h.length_of_not_last h0 (by omega)] at hle
    have hmax : maxLen (fragments cfg f.data) = cfg.udpMtu.toNat - 24 :=
      le_antisymm h.maxLen_fragments_le hle
    rw [hmax]
    by_cases hlast : i + 1 < fragmentCount cfg f.data.length
    · exact iff_of_true (h.length_of_not_last hi hlast) (Or.inl hlast)
    · simp only [hlast, hone, false_or]
      exact h.length_last_iff hi (by omega)

end Lengths

/-- With fragment `i` filled up to the longest length, the frame comes out as it is if the
fragment has that length. -/
theorem flatten_set_pad_iff {i : ℕ} (hi : i < (fragments cfg f.data).length) :
    ((fragments cfg f.data).set i
        (pad (maxLen (fragments cfg f.data)) (fragments cfg f.data)[i])).flatten = f.data ↔
      i + 1 < fragmentCount cfg f.data.length ∨ fragmentCount cfg f.data.length = 1 ∨
        (cfg.udpMtu.toNat - 24) ∣ f.data.length := by
  have hle := length_le_maxLen (List.getElem_mem hi)
  have hset : ∀ x : Bytes, ((fragments cfg f.data).set i x).flatten =
      ((fragments cfg f.data).take i).flatten ++ x ++
        ((fragments cfg f.data).drop (i + 1)).flatten := fun x => by
    rw [List.set_eq_take_append_cons_drop, if_pos hi]
    simp
  have hself : ((fragments cfg f.data).set i (fragments cfg f.data)[i]).flatten = f.data := by
    rw [List.set_getElem_self, h.flatten_fragments]
  rw [← h.length_eq_maxLen_iff hi]
  constructor
  · intro heq
    have hlen := congrArg List.length (heq.trans hself.symm)
    simp only [hset, List.length_append, length_pad hle] at hlen
    omega
  · intro heq
    rw [← heq, pad_self]
    exact hself

end Sendable

/-! ## The datagrams of a frame -/

@[simp] theorem read_datagram (f : EncodedFrame) (cnt : ℕ) (kind : PayloadType) (seq : UInt16)
    (payload : Bytes) :
    UdpHeader.read (datagram f cnt kind seq payload) = header f cnt kind seq payload.length := by
  simp [datagram]

@[simp] theorem drop_datagram (f : EncodedFrame) (cnt : ℕ) (kind : PayloadType) (seq : UInt16)
    (payload : Bytes) : (datagram f cnt kind seq payload).drop UdpHeader.kSize = payload := by
  simp [datagram]

@[simp] theorem header_payloadType (f : EncodedFrame) (cnt : ℕ) (kind : PayloadType)
    (seq : UInt16) (len : ℕ) : (header f cnt kind seq len).payloadType = kind.code := rfl

@[simp] theorem header_groupId (f : EncodedFrame) (cnt : ℕ) (kind : PayloadType) (seq : UInt16)
    (len : ℕ) : (header f cnt kind seq len).groupId = toUInt32 f.frameId := rfl

@[simp] theorem header_fragmentSeq (f : EncodedFrame) (cnt : ℕ) (kind : PayloadType)
    (seq : UInt16) (len : ℕ) : (header f cnt kind seq len).fragmentSeq = seq := rfl

@[simp] theorem header_fragmentCnt (f : EncodedFrame) (cnt : ℕ) (kind : PayloadType)
    (seq : UInt16) (len : ℕ) :
    (header f cnt kind seq len).fragmentCnt = UInt16.ofNat (cnt + 1) := rfl

@[simp] theorem header_keyframe (f : EncodedFrame) (cnt : ℕ) (kind : PayloadType) (seq : UInt16)
    (len : ℕ) : (header f cnt kind seq len).keyframe = f.keyframe :=
  UdpHeader.keyframe_setKeyframe _ _

/-- What the receiver makes of the count in the header, which is `cnt + 1` in 16 bits. -/
theorem toNat_dataCount (cnt : ℕ) :
    (UdpReceiver.dataCount (UInt16.ofNat (cnt + 1))).toNat =
      if (cnt + 1) % 65536 = 0 then 0 else cnt % 65536 := by
  simp only [UdpReceiver.dataCount, gt_iff_lt, UInt16.lt_iff_toNat_lt, UInt16.toNat_ofNat']
  split_ifs with h1 h2 h2
  · simp at h1
    omega
  · rw [UInt16.toNat_sub_of_le _ _ (by rw [UInt16.le_iff_toNat_le]; simp; omega)]
    simp
    omega
  · simp
    omega
  · simp at h1
    omega

theorem isMedia_datagram (f : EncodedFrame) (cnt : ℕ) {kind : PayloadType} (seq : UInt16)
    (payload : Bytes) (hk : kind = .data ∨ kind = .fec) :
    UdpReceiver.IsMedia (datagram f cnt kind seq payload) := by
  refine UdpReceiver.isMedia_write ?_ ?_ <;> rw [header_payloadType] <;>
    rcases hk with rfl | rfl <;> decide

theorem mem_datagrams {d : Bytes} : d ∈ datagrams cfg f ↔
    (∃ i < fragmentCount cfg f.data.length, d = dataDatagram cfg f i) ∨ d = fecDatagram cfg f := by
  simp [datagrams, eq_comm]

theorem dataDatagram_eq {i : ℕ} (hi : i < (fragments cfg f.data).length) :
    dataDatagram cfg f i = datagram f (fragmentCount cfg f.data.length) .data (UInt16.ofNat i)
      (fragments cfg f.data)[i] := by
  rw [dataDatagram, List.getD_eq_getElem _ _ hi]

theorem fragmentSeq_dataDatagram (i : ℕ) :
    (UdpHeader.read (dataDatagram cfg f i)).fragmentSeq = UInt16.ofNat i := by
  rw [dataDatagram, read_datagram, header_fragmentSeq]

theorem fragmentSeq_fecDatagram :
    (UdpHeader.read (fecDatagram cfg f)).fragmentSeq = UdpHeader.kFecSeq := by
  rw [fecDatagram, read_datagram, header_fragmentSeq]

theorem groupId_of_mem_datagrams {d : Bytes} (hd : d ∈ datagrams cfg f) :
    (UdpHeader.read d).groupId = toUInt32 f.frameId := by
  rcases mem_datagrams.1 hd with ⟨i, -, rfl⟩ | rfl
  · rw [dataDatagram, read_datagram, header_groupId]
  · rw [fecDatagram, read_datagram, header_groupId]

theorem fragmentCnt_of_mem_datagrams {d : Bytes} (hd : d ∈ datagrams cfg f) :
    (UdpHeader.read d).fragmentCnt = UInt16.ofNat (fragmentCount cfg f.data.length + 1) := by
  rcases mem_datagrams.1 hd with ⟨i, -, rfl⟩ | rfl
  · rw [dataDatagram, read_datagram, header_fragmentCnt]
  · rw [fecDatagram, read_datagram, header_fragmentCnt]

theorem isMedia_of_mem_datagrams {d : Bytes} (hd : d ∈ datagrams cfg f) :
    UdpReceiver.IsMedia d := by
  rcases mem_datagrams.1 hd with ⟨i, -, rfl⟩ | rfl
  · exact isMedia_datagram _ _ _ _ (.inl rfl)
  · exact isMedia_datagram _ _ _ _ (.inr rfl)

/-- The datagrams of a frame are told apart by their numbers. -/
theorem Sendable.dataDatagram_inj (h : Sendable cfg f) {i j : ℕ}
    (hi : i < fragmentCount cfg f.data.length) (hj : j < fragmentCount cfg f.data.length)
    (heq : dataDatagram cfg f i = dataDatagram cfg f j) : i = j := by
  have hK := h.fragmentCount_le
  have := congrArg (fun d => (UdpHeader.read d).fragmentSeq.toNat) heq
  simp only [fragmentSeq_dataDatagram, UInt16.toNat_ofNat'] at this
  omega

theorem Sendable.dataDatagram_ne_fec (h : Sendable cfg f) {i : ℕ}
    (hi : i < fragmentCount cfg f.data.length) : dataDatagram cfg f i ≠ fecDatagram cfg f := by
  have hK := h.fragmentCount_le
  intro heq
  have := congrArg (fun d => (UdpHeader.read d).fragmentSeq.toNat) heq
  simp only [fragmentSeq_dataDatagram, fragmentSeq_fecDatagram, UInt16.toNat_ofNat',
    UdpHeader.kFecSeq] at this
  have hff : (0xFFFF : UInt16).toNat = 65535 := rfl
  omega

/-- A frame of three bytes: one fragment when the MTU is 27, two when it is 26. -/
def abc : EncodedFrame :=
  { captureUs := 5000000, frameId := 7, keyframe := true, data := [1, 2, 3] }

end UdpServer

end Rtstream
