import Rtstream.RtpRoundTrip
import Rtstream.UdpServer

/-!
# Packets for any MTU

`udp_mtu` is what the command line says, and both packetisers subtract the sizes of their headers
from it. This file says for which values that goes well.

**Safety** (`packetisers_safe_iff`). `UdpServer::send_frame` is safe if and only if the MTU is above
the header's 24 bytes. `RtpServer::send_frame` needs 12 bytes for its own header, and 15 for every
NALU that it cuts; a NALU that fits into one packet asks for nothing more.

**Sizes** (`datagram_size_iff`). For an MTU of at least 64 every data packet keeps to it, and on the
UDP link the parity too. On the RTP link the parity is as long as the longest packet and has a
header of 24 bytes of its own, so it keeps to the MTU only if no NALU comes within 36 bytes of it.
-/

namespace Rtstream

namespace RtpServer

/-! ## The loop over NALUs ends -/

/-- More turns than there are bytes left make no difference. -/
theorem nalusFrom_eq {d : Bytes} {fuel fuel' pos : ℕ} (h : d.length ≤ pos + fuel)
    (h' : d.length ≤ pos + fuel') : nalusFrom d fuel pos = nalusFrom d fuel' pos := by
  induction fuel generalizing fuel' pos with
  | zero =>
    cases fuel' with
    | zero => rfl
    | succ fuel' => rw [nalusFrom, nalusFrom, if_neg (by omega)]
  | succ fuel ih =>
    cases fuel' with
    | zero => rw [nalusFrom, nalusFrom, if_neg (by omega)]
    | succ fuel' =>
      rw [nalusFrom, nalusFrom]
      cases hnext : nextNalu d pos with
      | none => rfl
      | some nal =>
        obtain ⟨hpos, hlen⟩ := nextNalu_advances hnext
        have hrest : nalusFrom d fuel (nal.1 + nal.2) = nalusFrom d fuel' (nal.1 + nal.2) :=
          ih (by omega) (by omega)
        simp only [hrest]

theorem length_le_of_mem_nalus {d nal : Bytes} (h : nal ∈ nalus d) : nal.length ≤ d.length := by
  have hall : ∀ fuel pos, ∀ nal ∈ nalusFrom d fuel pos, nal.length ≤ d.length := by
    intro fuel
    induction fuel with
    | zero => simp [nalusFrom]
    | succ fuel ih =>
      intro pos nal hnal
      rw [nalusFrom] at hnal
      split_ifs at hnal
      · cases hnext : nextNalu d pos with
        | none => simp [hnext] at hnal
        | some sc =>
          simp only [hnext] at hnal
          rcases List.mem_cons.1 hnal with rfl | hnal
          · rw [Slices.length_slice]
            omega
          · exact ih _ nal hnal
      · simp at hnal
  exact hall _ _ nal h

/-! ## The FU-A loop -/

/-- **Without room the loop makes no progress**, however many turns it takes. -/
theorem fuPayloads_zero (hdr : UInt8) (fuel : ℕ) (first : Bool) {rest : Bytes} (h : rest ≠ []) :
    fuPayloads hdr 0 fuel first rest = none := by
  induction fuel generalizing first with
  | zero =>
    obtain ⟨b, bs, rfl⟩ := List.exists_cons_of_ne_nil h
    rfl
  | succ fuel ih =>
    rw [fuPayloads_succ _ _ _ _ h, Nat.zero_min, List.drop_zero, ih]
    rfl

theorem isSome_fuPayloads_iff (hdr : UInt8) (maxPayload fuel : ℕ) (first : Bool) {rest : Bytes}
    (hfuel : rest.length ≤ fuel) (h : rest ≠ []) :
    (fuPayloads hdr maxPayload fuel first rest).isSome ↔ 0 < maxPayload := by
  rcases Nat.eq_zero_or_pos maxPayload with rfl | hpos
  · simp [fuPayloads_zero hdr fuel first h]
  · obtain ⟨ps, hps, -⟩ :=
      @Depacketizer.foldl_fuPayloads hdr maxPayload fuel first rest hpos hfuel h
    simp [hps, hpos]

/-- Every fragment has its two bytes and at most a full load. The first of several is full. -/
theorem length_fuPayloads {hdr : UInt8} {maxPayload fuel : ℕ} {first : Bool} {rest : Bytes}
    {ps : List Bytes} (h : fuPayloads hdr maxPayload fuel first rest = some ps) :
    (∀ p ∈ ps, p.length ≤ maxPayload + 2) ∧
      (maxPayload < rest.length → ∃ p ∈ ps, p.length = maxPayload + 2) := by
  induction fuel generalizing first rest ps with
  | zero =>
    cases rest with
    | nil => obtain rfl := Option.some.inj h; simp
    | cons b rest => cases h
  | succ fuel ih =>
    cases rest with
    | nil => obtain rfl := Option.some.inj h; simp
    | cons b rest =>
      obtain ⟨qs, hqs, rfl⟩ := Option.map_eq_some_iff.1 h
      refine ⟨List.forall_mem_cons.2 ⟨?_, (ih hqs).1⟩, fun hlt => ⟨_, List.mem_cons_self, ?_⟩⟩
      · simp only [List.length_cons, List.length_take]
        omega
      · simp only [List.length_cons, List.length_take] at hlt ⊢
        omega

/-! ## The capacities -/

variable {cfg : ServerConfig} {nal : Bytes}

theorem toNat_capacity (h : 12 ≤ cfg.udpMtu.toNat) :
    (cfg.udpMtu - kRtpHeader).toNat = cfg.udpMtu.toNat - 12 :=
  UInt64.toNat_sub_of_le _ _ (by rw [UInt64.le_iff_toNat_le]; exact h)

theorem toNat_maxPayload (h : 14 ≤ cfg.udpMtu.toNat) :
    (cfg.udpMtu - kRtpHeader - 2).toNat = cfg.udpMtu.toNat - 14 := by
  have hcap := @toNat_capacity cfg (by omega)
  rw [UInt64.toNat_sub_of_le _ _ (by rw [UInt64.le_iff_toNat_le, hcap]; simp; omega), hcap]
  simp
  omega

/-- The test for a single packet, when its subtraction does not wrap. -/
theorem fits_iff (h : 12 ≤ cfg.udpMtu.toNat) (hsize : nal.length < 2 ^ 64) :
    UInt64.ofNat nal.length ≤ cfg.udpMtu - kRtpHeader ↔ nal.length + 12 ≤ cfg.udpMtu.toNat := by
  rw [UInt64.le_iff_toNat_le, toNat_capacity h, UInt64.toNat_ofNat', Nat.mod_eq_of_lt hsize]
  omega

/-- The subtractions `a - b` done for a NALU: `udp_mtu - 12` for the test, and twice more when the
NALU is cut. -/
def nalSubtractions (cfg : ServerConfig) (nal : Bytes) : List (UInt64 × UInt64) :=
  (cfg.udpMtu, kRtpHeader) ::
    if UInt64.ofNat nal.length ≤ cfg.udpMtu - kRtpHeader then []
    else [(cfg.udpMtu, kRtpHeader), (cfg.udpMtu - kRtpHeader, 2)]

/-- The subtractions done for a frame, up to a loop that does not end. -/
def subtractions (cfg : ServerConfig) : List Bytes → List (UInt64 × UInt64)
  | [] => []
  | nal :: nals =>
    nalSubtractions cfg nal ++ if (nalPayloads cfg nal).isSome then subtractions cfg nals else []

/-- The NALU fits into one packet, or there is room to cut it. -/
def Takes (cfg : ServerConfig) (nal : Bytes) : Prop :=
  12 ≤ cfg.udpMtu.toNat ∧ (nal.length + 12 ≤ cfg.udpMtu.toNat ∨ 15 ≤ cfg.udpMtu.toNat)

/-- `send_frame` ends, and its subtractions do not wrap. -/
def Safe (s : RtpServer) (f : EncodedFrame) : Prop :=
  (s.sendFrame f).isSome ∧ ∀ p ∈ subtractions s.cfg (nalus f.data), p.2 ≤ p.1

theorem nal_safe_iff (hsize : nal.length < 2 ^ 64) (hne : nal ≠ []) :
    ((nalPayloads cfg nal).isSome ∧ ∀ p ∈ nalSubtractions cfg nal, p.2 ≤ p.1) ↔ Takes cfg nal := by
  have hpos := List.length_pos_of_ne_nil hne
  have hheader : kRtpHeader ≤ cfg.udpMtu ↔ 12 ≤ cfg.udpMtu.toNat := by
    rw [UInt64.le_iff_toNat_le]
    rfl
  by_cases h12 : 12 ≤ cfg.udpMtu.toNat
  · simp only [Takes, nalPayloads, nalSubtractions, fits_iff h12 hsize]
    split_ifs with hfits
    · simp [hheader, h12, hfits]
    · have htwo : (2 : UInt64) ≤ cfg.udpMtu - kRtpHeader ↔ 14 ≤ cfg.udpMtu.toNat := by
        rw [UInt64.le_iff_toNat_le, toNat_capacity h12]
        simp
        omega
      by_cases h14 : 14 ≤ cfg.udpMtu.toNat
      · have htail : nal.tail ≠ [] := by
          intro htail
          have hlen := congrArg List.length htail
          simp at hlen
          omega
        rw [isSome_fuPayloads_iff _ _ _ _ (by simp) htail, toNat_maxPayload h14]
        simp [hheader, h12, htwo, h14, hfits]
        omega
      · simp [hheader, h12, htwo, h14, hfits]
        omega
  · simp [Takes, nalSubtractions, hheader, h12]

theorem payloads_safe_iff {nals : List Bytes}
    (hnals : ∀ nal ∈ nals, nal ≠ [] ∧ nal.length < 2 ^ 64) :
    ((payloads cfg nals).isSome ∧ ∀ p ∈ subtractions cfg nals, p.2 ≤ p.1) ↔
      ∀ nal ∈ nals, Takes cfg nal := by
  induction nals with
  | nil => simp [payloads, subtractions]
  | cons nal nals ih =>
    obtain ⟨⟨hne, hsize⟩, hnals⟩ := List.forall_mem_cons.1 hnals
    rw [List.forall_mem_cons, ← ih hnals, ← nal_safe_iff hsize hne, payloads, subtractions,
      List.forall_mem_append]
    cases nalPayloads cfg nal with
    | none => simp
    | some ps =>
      cases payloads cfg nals with
      | none => simp
      | some qs => simp

theorem isSome_sendFrame (s : RtpServer) (f : EncodedFrame) :
    (s.sendFrame f).isSome = (payloads s.cfg (nalus f.data)).isSome := by
  rw [sendFrame, rtpPackets]
  cases payloads s.cfg (nalus f.data) with
  | none => rfl
  | some ps =>
    simp only [Option.map_some, Option.bind_eq_bind, Option.bind_some]
    split_ifs <;> rfl

theorem safe_iff_takes (s : RtpServer) {f : EncodedFrame} (hsize : f.data.length < 2 ^ 64) :
    s.Safe f ↔ ∀ nal ∈ nalus f.data, Takes s.cfg nal := by
  rw [Safe, isSome_sendFrame]
  exact payloads_safe_iff fun nal hnal =>
    ⟨ne_nil_of_mem_nalus hnal, (length_le_of_mem_nalus hnal).trans_lt hsize⟩

end RtpServer

/-- `send_frame` ends and does not divide by zero, and its subtraction does not wrap. -/
def UdpServer.Safe (s : UdpServer) (f : EncodedFrame) : Prop :=
  (s.sendFrame f).isSome ∧ UInt64.ofNat UdpHeader.kSize ≤ s.cfg.udpMtu

theorem UdpServer.safe_iff_mtu (s : UdpServer) (f : EncodedFrame) :
    s.Safe f ↔ 25 ≤ s.cfg.udpMtu.toNat := by
  have hsome : (s.sendFrame f).isSome ↔ payloadSize s.cfg ≠ 0 := by
    rw [sendFrame]
    split_ifs with h <;> simp [h]
  rw [Safe, hsome]
  constructor
  · rintro ⟨hne, hle⟩
    have hlt : UInt64.ofNat UdpHeader.kSize ≠ s.cfg.udpMtu := by
      rintro heq
      rw [payloadSize, ← heq, UInt64.sub_self] at hne
      exact hne rfl
    exact UInt64.lt_iff_toNat_lt.1 (UInt64.lt_of_le_of_ne hle hlt)
  · intro h25
    refine ⟨fun hzero => ?_, ?_⟩
    · have hn := toNat_payloadSize h25
      rw [hzero] at hn
      simp at hn
      omega
    · rw [UInt64.le_iff_toNat_le]
      exact (by decide : 24 ≤ 25).trans h25

/-- **Safety.** For every MTU, frame and state of the servers. A NALU for which the FU-A loop has no
result keeps it going for any number of turns, and the loop over the NALUs takes no more turns than
the frame has bytes. -/
theorem packetisers_safe_iff (f : EncodedFrame) (hsize : f.data.length < 2 ^ 64) :
    (∀ u : UdpServer, u.Safe f ↔ 25 ≤ u.cfg.udpMtu.toNat) ∧
    (∀ r : RtpServer, r.Safe f ↔ ∀ nal ∈ RtpServer.nalus f.data, RtpServer.Takes r.cfg nal) ∧
    (∀ (cfg : ServerConfig) (nal : Bytes), RtpServer.nalPayloads cfg nal = none → ∀ fuel,
      RtpServer.fuPayloads (nal.headD 0) (cfg.udpMtu - RtpServer.kRtpHeader - 2).toNat fuel true
        nal.tail = none) ∧
    ∀ fuel, f.data.length ≤ fuel → RtpServer.nalusFrom f.data fuel 0 = RtpServer.nalus f.data := by
  refine ⟨fun u => u.safe_iff_mtu f, fun r => r.safe_iff_takes hsize, fun cfg nal hnone fuel => ?_,
    fun fuel hfuel => ?_⟩
  · rw [RtpServer.nalPayloads] at hnone
    split_ifs at hnone
    have htail : nal.tail ≠ [] := by
      intro htail
      rw [htail, RtpServer.fuPayloads_nil] at hnone
      cases hnone
    have hzero : (cfg.udpMtu - RtpServer.kRtpHeader - 2).toNat = 0 := by
      by_contra hroom
      have hsome := (RtpServer.isSome_fuPayloads_iff (nal.headD 0) _ nal.length true (by simp)
        htail).2 (Nat.pos_of_ne_zero hroom)
      rw [hnone] at hsome
      cases hsome
    rw [hzero]
    exact RtpServer.fuPayloads_zero _ fuel true htail
  · exact RtpServer.nalusFrom_eq (by omega) (by omega)

/-- A NALU of three bytes. -/
def threeBytes : EncodedFrame := { data := [0, 0, 0, 1, 0x65, 1, 2] }

theorem nalus_threeBytes : RtpServer.nalus threeBytes.data = [[0x65, 1, 2]] := by decide +kernel

/-- An MTU of 24 divides by zero, and one of 14 keeps the FU-A loop going; below the headers' sizes
the subtractions wrap. -/
theorem unsafe_mtus :
    (UdpServer.start { udpMtu := 24 }).sendFrame threeBytes = none ∧
      (RtpServer.start { udpMtu := 14 } 0).sendFrame threeBytes = none ∧
      ¬ (UdpServer.start { udpMtu := 11 }).Safe threeBytes ∧
      ¬ (RtpServer.start { udpMtu := 11 } 0).Safe threeBytes := by
  refine ⟨by decide +kernel, by decide +kernel, ?_, ?_⟩
  · rw [UdpServer.safe_iff_mtu]
    decide
  · rw [RtpServer.safe_iff_takes _ (by decide), nalus_threeBytes]
    exact fun hall => absurd (hall _ List.mem_cons_self).1 (by decide)

theorem packetisers_safe_small :
    (UdpServer.start { udpMtu := 25 }).Safe threeBytes ∧
      (RtpServer.start { udpMtu := 15 } 0).Safe threeBytes := by
  have hsafe := packetisers_safe_iff threeBytes (by decide)
  refine ⟨(hsafe.1 _).2 (by decide), (hsafe.2.1 _).2 ?_⟩
  rw [nalus_threeBytes]
  exact fun nal _ => ⟨by decide, Or.inr (by decide)⟩

/-! ## Sizes -/

namespace UdpServer

theorem length_fragments_le {cfg : ServerConfig} (h25 : 25 ≤ cfg.udpMtu.toNat) (data : Bytes) :
    ∀ d ∈ fragments cfg data, d.length + 24 ≤ cfg.udpMtu.toNat := by
  intro d hd
  obtain ⟨i, -, rfl⟩ := List.mem_map.1 hd
  have hn := toNat_payloadSize h25
  simp only [Slices.length_slice, hn]
  omega

/-- **The UDP link's datagrams keep to the MTU**, the parity too. -/
theorem length_datagrams_le {cfg : ServerConfig} (h25 : 25 ≤ cfg.udpMtu.toNat) (f : EncodedFrame) :
    ∀ d ∈ datagrams cfg f, d.length ≤ cfg.udpMtu.toNat := by
  have hfragments := length_fragments_le h25 f.data
  have hparity : (fecGenerate (fragments cfg f.data)).length ≤ cfg.udpMtu.toNat - 24 := by
    rw [length_fecGenerate]
    exact RaggedXor.maxLen_le fun d hd => Nat.le_sub_of_add_le (hfragments d hd)
  have hlength : ∀ (cnt : ℕ) (kind : PayloadType) (seq : UInt16) (payload : Bytes),
      (datagram f cnt kind seq payload).length = 24 + payload.length := by
    intro cnt kind seq payload
    rw [datagram, List.length_append, UdpHeader.length_write]
    rfl
  intro d hd
  rcases List.mem_append.1 hd with hd | hd
  · obtain ⟨i, hi, rfl⟩ := List.mem_map.1 hd
    have hi' : i < (fragments cfg f.data).length := by simpa using hi
    have hle := hfragments _ (List.getElem_mem hi')
    rw [dataDatagram, hlength, List.getD_eq_getElem?_getD, List.getElem?_eq_getElem hi',
      Option.getD_some]
    omega
  · rw [List.mem_singleton.1 hd, fecDatagram, hlength]
    omega

end UdpServer

namespace RtpServer

variable {cfg : ServerConfig}

/-- What a NALU makes keeps to the MTU, and to 24 bytes less exactly if the NALU is that short. -/
theorem length_nalPayloads {nal : Bytes} {ps : List Bytes} (h64 : 64 ≤ cfg.udpMtu.toNat)
    (hsize : nal.length < 2 ^ 64) (h : nalPayloads cfg nal = some ps) :
    (∀ p ∈ ps, p.length + 12 ≤ cfg.udpMtu.toNat) ∧
      ((∀ p ∈ ps, p.length + 36 ≤ cfg.udpMtu.toNat) ↔ nal.length + 36 ≤ cfg.udpMtu.toNat) := by
  rw [nalPayloads] at h
  simp only [fits_iff (by omega : 12 ≤ cfg.udpMtu.toNat) hsize] at h
  split_ifs at h with hfits
  · obtain rfl := Option.some.inj h
    simpa using hfits
  · -- The first fragment is full, so the parity is too long by its header.
    obtain ⟨hle, hfull⟩ := length_fuPayloads h
    rw [toNat_maxPayload (by omega)] at hle hfull
    obtain ⟨p, hp, hlen⟩ := hfull (by rw [List.length_tail]; omega)
    refine ⟨fun q hq => by have := hle q hq; omega, iff_of_false (fun hall => ?_) (by omega)⟩
    have hshort := hall p hp
    omega

theorem length_payloads {nals : List Bytes} {ps : List Bytes} (h64 : 64 ≤ cfg.udpMtu.toNat)
    (hsize : ∀ nal ∈ nals, nal.length < 2 ^ 64) (h : payloads cfg nals = some ps) :
    (∀ p ∈ ps, p.length + 12 ≤ cfg.udpMtu.toNat) ∧
      ((∀ p ∈ ps, p.length + 36 ≤ cfg.udpMtu.toNat) ↔
        ∀ nal ∈ nals, nal.length + 36 ≤ cfg.udpMtu.toNat) := by
  induction nals generalizing ps with
  | nil => obtain rfl := Option.some.inj h; simp
  | cons nal nals ih =>
    simp only [payloads, Option.bind_eq_bind, Option.bind_eq_some_iff, Option.pure_def,
      Option.some.injEq] at h
    obtain ⟨ps₁, h₁, ps₂, h₂, rfl⟩ := h
    obtain ⟨hnal, hnals⟩ := List.forall_mem_cons.1 hsize
    obtain ⟨hle₁, hiff₁⟩ := length_nalPayloads h64 hnal h₁
    obtain ⟨hle₂, hiff₂⟩ := ih hnals h₂
    rw [List.forall_mem_append, List.forall_mem_append, List.forall_mem_cons, hiff₁, hiff₂]
    exact ⟨⟨hle₁, hle₂⟩, Iff.rfl⟩

theorem length_packets {s : RtpServer} {f : EncodedFrame} {packets : List Bytes}
    (h64 : 64 ≤ s.cfg.udpMtu.toNat) (hsize : f.data.length < 2 ^ 64)
    (h : s.rtpPackets f = some packets) :
    (∀ p ∈ packets, p.length ≤ s.cfg.udpMtu.toNat) ∧
      ((∀ p ∈ packets, p.length + 24 ≤ s.cfg.udpMtu.toNat) ↔
        ∀ nal ∈ nalus f.data, nal.length + 36 ≤ s.cfg.udpMtu.toNat) := by
  obtain ⟨ps, hps, rfl⟩ := rtpPackets_eq h
  obtain ⟨hle, hiff⟩ := length_payloads h64
    (fun nal hnal => (length_le_of_mem_nalus hnal).trans_lt hsize) hps
  rw [← hiff]
  have hmem : ∀ Q : ℕ → Prop, (∀ p ∈ ps.mapIdx (packetAt s (timestamp f) ps), Q p.length) ↔
      ∀ p ∈ ps, Q (12 + p.length) := by
    intro Q
    simp only [List.forall_mem_iff_forall_getElem, List.getElem_mapIdx, List.length_mapIdx,
      packetAt, List.length_append, length_rtpHeader]
  refine ⟨(hmem (· ≤ s.cfg.udpMtu.toNat)).2 fun p hp => ?_, ?_⟩
  · have hshort := hle p hp
    omega
  · rw [hmem (· + 24 ≤ s.cfg.udpMtu.toNat)]
    exact forall₂_congr fun p _ => by omega

theorem length_fecDatagram {f : EncodedFrame} {packets : List Bytes} {mtu : ℕ} (hmtu : 24 ≤ mtu)
    (hshort : ∀ p ∈ packets, p.length < 2 ^ 32) :
    (fecDatagram f packets).length ≤ mtu ↔ ∀ p ∈ packets, p.length + 24 ≤ mtu := by
  have hlength : (fecDatagram f packets).length = 24 + (fecGenerate packets).length := by
    rw [fecDatagram, List.length_append, UdpHeader.length_write, parity_eq_fecGenerate hshort]
    rfl
  rw [hlength, length_fecGenerate]
  constructor
  · intro hle p hp
    have hmax := RaggedXor.length_le_maxLen hp
    omega
  · intro hall
    have hmax := RaggedXor.maxLen_le fun p hp => Nat.le_sub_of_add_le (hall p hp)
    omega

end RtpServer

/-- **Sizes.** For an MTU from 64 to 65507, every frame and all states of the servers: the UDP
link's datagrams keep to the MTU, and so do the RTP link's packets; its parity does too if and only
if no NALU is longer than the MTU less 36. -/
theorem datagram_size_iff (cfg : ServerConfig) (h64 : 64 ≤ cfg.udpMtu.toNat)
    (hmax : cfg.udpMtu.toNat ≤ 65507) (f : EncodedFrame) (hsize : f.data.length < 2 ^ 64) :
    (∀ u : UdpServer, u.cfg = cfg → ∃ u' out, u.sendFrame f = some (u', out) ∧
      ∀ d ∈ out, d.length ≤ cfg.udpMtu.toNat) ∧
    ∀ r : RtpServer, r.cfg = cfg → ∃ r' out packets, r.sendFrame f = some (r', out) ∧
      r.rtpPackets f = some packets ∧ (∀ d ∈ packets, d.length ≤ cfg.udpMtu.toNat) ∧
      ((∀ d ∈ out, d.length ≤ cfg.udpMtu.toNat) ↔
        ∀ nal ∈ RtpServer.nalus f.data, nal.length + 36 ≤ cfg.udpMtu.toNat) := by
  constructor
  · rintro u rfl
    have hn := @UdpServer.toNat_payloadSize u.cfg (by omega)
    have hne : UdpServer.payloadSize u.cfg ≠ 0 := by
      intro hzero
      rw [hzero] at hn
      simp at hn
      omega
    obtain ⟨u', hsend, -⟩ := UdpServer.exists_sendFrame hne f
    exact ⟨u', _, hsend, UdpServer.length_datagrams_le (by omega) f⟩
  · rintro r rfl
    have hsafe : r.Safe f := (r.safe_iff_takes hsize).2 fun nal _ => ⟨by omega, by omega⟩
    obtain ⟨⟨r', out⟩, hsend⟩ := Option.isSome_iff_exists.1 hsafe.1
    have hout := hsend
    simp only [RtpServer.sendFrame, Option.bind_eq_bind, Option.bind_eq_some_iff,
      Option.pure_def] at hout
    obtain ⟨packets, hpackets, hout⟩ := hout
    obtain ⟨hle, hiff⟩ := RtpServer.length_packets h64 hsize hpackets
    refine ⟨r', out, packets, hsend, hpackets, hle, ?_⟩
    rw [← hiff]
    split_ifs at hout with hempty
    · obtain rfl := (Prod.mk.inj (Option.some.inj hout)).2
      obtain rfl := List.isEmpty_iff.1 hempty
      simp
    · obtain rfl := (Prod.mk.inj (Option.some.inj hout)).2
      have hparity := @RtpServer.length_fecDatagram f packets r.cfg.udpMtu.toNat (by omega)
        fun p hp => (hle p hp).trans_lt (by omega)
      rw [List.forall_mem_append, List.forall_mem_singleton, hparity]
      exact and_iff_right hle

/-- A NALU of 29 bytes, for an MTU of 64. -/
def longNalu : EncodedFrame := { data := [0, 0, 0, 1, 0x65] ++ List.replicate 28 1 }

/-- One packet of 41 bytes and a parity datagram of 65. -/
theorem parity_exceeds :
    ¬ ∀ r : RtpServer, r.cfg = { udpMtu := 64 } → ∀ r' out, r.sendFrame longNalu = some (r', out) →
      ∀ d ∈ out, d.length ≤ 64 := by
  intro hall
  have hlengths : ((RtpServer.start { udpMtu := 64 } 0).sendFrame longNalu).map
      (fun r => r.2.map List.length) = some [41, 65] := by decide +kernel
  obtain ⟨⟨r', out⟩, hsend, hout⟩ := Option.map_eq_some_iff.1 hlengths
  have hle := hall _ rfl r' out hsend
  have hmem : (65 : ℕ) ∈ out.map List.length := by
    rw [show out.map List.length = [41, 65] from hout]
    decide
  obtain ⟨d, hd, hlen⟩ := List.mem_map.1 hmem
  have hshort := hle d hd
  omega

theorem datagram_size_small :
    ∃ r' out, (RtpServer.start { udpMtu := 64 } 0).sendFrame threeBytes = some (r', out) ∧
      ∀ d ∈ out, d.length ≤ 64 := by
  obtain ⟨r', out, -, hsend, -, -, hiff⟩ := (datagram_size_iff { udpMtu := 64 } (by decide)
    (by decide) threeBytes (by decide)).2 (RtpServer.start { udpMtu := 64 } 0) rfl
  refine ⟨r', out, hsend, hiff.2 ?_⟩
  rw [nalus_threeBytes]
  decide

end Rtstream
