import Rtstream.RtpFrameState
import Rtstream.RtpPacketize
import Rtstream.RtpScan

/-!
# Packetising and depacketising a frame

`round_trip`: a frame of escaped NALUs is cut into packets by `send_frame`, and `emit` makes the
same NALUs of them again, each behind a four-byte start code, as long as the packets' numbers do
not wrap within the frame.
-/

namespace Rtstream

open Std (TreeMap)

namespace RtpServer

variable {s : RtpServer} {f : EncodedFrame} {packets : List Bytes}

theorem rtpPackets_eq (h : s.rtpPackets f = some packets) :
    ∃ ps, payloads s.cfg (nalus f.data) = some ps ∧
      packets = ps.mapIdx (packetAt s (timestamp f) ps) := by
  obtain ⟨ps, hps, rfl⟩ := Option.map_eq_some_iff.1 h
  exact ⟨ps, hps, markLast_packetize s (timestamp f) ps⟩

theorem sendFrame_of_packets (h : s.rtpPackets f = some packets) (hne : packets ≠ []) :
    ∃ s', s.sendFrame f = some (s', packets ++ [fecDatagram f packets]) := by
  have hemp : packets.isEmpty = false := by simpa using hne
  refine ⟨{ s with
    nack := packets.foldl (fun n p => n.remember 0 (readSeq p) p) s.nack
    seq := s.seq + UInt16.ofNat packets.length }, ?_⟩
  simp [sendFrame, h, hne]

theorem parseRtp_getElem (h : s.rtpPackets f = some packets) {i : ℕ} (hi : i < packets.length) :
    RtpReceiver.parseRtp packets[i] = some
      { marker := i + 1 == packets.length
        seq := s.seq + UInt16.ofNat i
        ts := timestamp f
        raw := packets[i] } := by
  obtain ⟨ps, -, rfl⟩ := rtpPackets_eq h
  rw [List.getElem_mapIdx, packetAt, parseRtp_packet, List.length_mapIdx]

/-- The number of packet `i`, when the numbers of the frame do not wrap. -/
theorem toNat_seq_add (hwrap : s.seq.toNat + packets.length ≤ 65536) {i : ℕ}
    (hi : i < packets.length) : (s.seq + UInt16.ofNat i).toNat = s.seq.toNat + i := by
  rw [UInt16.toNat_add, UInt16.toNat_ofNat']
  omega

end RtpServer

namespace FrameState

/-- The frame's packets are the ones in `packets`, each under the number that `parse_rtp` reads
in it, and the first of them is the frame's first one. -/
structure HoldsAll (g : FrameState) (packets : List Bytes) : Prop where
  raws : ∀ (k : UInt16) (raw : Bytes), g.raws[k]? = some raw ↔
    raw ∈ packets ∧ (RtpReceiver.parseRtp raw).map (·.seq) = some k
  first : (packets.head?.bind RtpReceiver.parseRtp).map (·.seq) = some g.firstSeq

open RtpServer

variable {s : RtpServer} {f : EncodedFrame} {packets : List Bytes} {g : FrameState}

theorem HoldsAll.firstSeq_eq (h : g.HoldsAll packets) (hp : s.rtpPackets f = some packets) :
    g.firstSeq = s.seq := by
  have hfirst := h.first
  cases packets with
  | nil => cases hfirst
  | cons p packets =>
    have := parseRtp_getElem hp (i := 0) (by simp)
    rw [List.getElem_cons_zero] at this
    simpa [this] using hfirst.symm

theorem HoldsAll.getElem? (h : g.HoldsAll packets) (hp : s.rtpPackets f = some packets) {i : ℕ}
    (hi : i < packets.length) : g.raws[s.seq + UInt16.ofNat i]? = some packets[i] := by
  rw [h.raws]
  exact ⟨List.getElem_mem hi, by rw [parseRtp_getElem hp hi]; rfl⟩

theorem HoldsAll.exists_index (h : g.HoldsAll packets) (hp : s.rtpPackets f = some packets)
    {k : UInt16} {raw : Bytes} (hk : g.raws[k]? = some raw) :
    ∃ i < packets.length, k = s.seq + UInt16.ofNat i := by
  obtain ⟨hmem, hseq⟩ := (h.raws k raw).1 hk
  obtain ⟨i, hi, rfl⟩ := List.getElem_of_mem hmem
  rw [parseRtp_getElem hp hi] at hseq
  exact ⟨i, hi, (Option.some.inj hseq).symm⟩

theorem HoldsAll.known_eq (h : g.HoldsAll packets) (hp : s.rtpPackets f = some packets)
    (hne : packets ≠ []) (hwrap : s.seq.toNat + packets.length ≤ 65536) :
    g.Within ∧ g.known = packets := by
  have hfirst := h.firstSeq_eq hp
  have hlen := List.length_pos_of_ne_nil hne
  have hwithin : g.Within := fun k raw hk => by
    obtain ⟨i, hi, rfl⟩ := h.exists_index hp hk
    rw [hfirst, toNat_seq_add hwrap hi]
    exact Nat.le_add_right _ _
  have hspan : g.span.toNat = packets.length := by
    have hlast := h.getElem? hp (i := packets.length - 1) (by omega)
    rw [toNat_span_of_last hwithin hlast fun k raw hk => ?_, hfirst,
      toNat_seq_add hwrap (by omega)]
    · omega
    · obtain ⟨i, hi, rfl⟩ := h.exists_index hp hk
      rw [toNat_seq_add hwrap hi, toNat_seq_add hwrap (by omega)]
      omega
  refine ⟨hwithin, List.ext_getElem (by simpa using hspan) fun i hi hi' => ?_⟩
  rw [getElem_known, hfirst, h.getElem? hp hi']
  rfl

end FrameState

namespace RtpServer

/-- **A frame comes out as it went in.** Its NALUs are escaped and of a type that travels whole
or in fragments; `g` holds the packets that `send_frame` makes of it. Then `emit` makes the same
NALUs of them, and a keyframe if and only if one of them is an IDR slice. -/
theorem round_trip (s : RtpServer) (f : EncodedFrame) (units : List (Bool × Bytes))
    (hmtu : 15 ≤ s.cfg.udpMtu.toNat) (hne : units ≠ [])
    (hunits : ∀ u ∈ units, u.2 ≠ [] ∧ Escaped u.2 ∧
      1 ≤ u.2.headD 0 &&& 0x1F ∧ u.2.headD 0 &&& 0x1F ≤ 23)
    (hdata : f.data = annexB units) :
    ∃ s' packets, s.rtpPackets f = some packets ∧
      s.sendFrame f = some (s', packets ++ [fecDatagram f packets]) ∧
      (s.seq.toNat + packets.length ≤ 65536 → ∀ (g : FrameState) (now : Int),
        g.HoldsAll packets → ∃ ef, g.emit none now = [.out g none ef] ∧
          ef.data = units.flatMap (fun u => [0, 0, 0, 1] ++ u.2) ∧
          (ef.keyframe = true ↔ ∃ u ∈ units, u.2.headD 0 &&& 0x1F = 5)) := by
  have hnalus : nalus f.data = units.map Prod.snd := by
    rw [hdata, nalus_annexB fun u hu => ⟨(hunits u hu).1, (hunits u hu).2.1⟩]
  have hnals : ∀ nal ∈ units.map Prod.snd, nal ≠ [] ∧ nal.headD 0 &&& 0x1F ≠ 28 := by
    intro nal hnal
    obtain ⟨u, hu, rfl⟩ := List.mem_map.1 hnal
    obtain ⟨hne, -, -, hle⟩ := hunits u hu
    refine ⟨hne, ?_⟩
    intro h28
    rw [h28] at hle
    exact absurd hle (by decide)
  obtain ⟨ps, hps, hps_ne, hfold⟩ := payloads_spec hmtu hnals
  have hpk : s.rtpPackets f = some (ps.mapIdx (packetAt s (timestamp f) ps)) := by
    rw [rtpPackets, hnalus, hps, Option.map_some, markLast_packetize]
  have hpk_ne : ps.mapIdx (packetAt s (timestamp f) ps) ≠ [] := by
    simpa using hps_ne (by simpa using hne)
  obtain ⟨s', hsend⟩ := sendFrame_of_packets hpk hpk_ne
  refine ⟨s', _, hpk, hsend, ?_⟩
  intro hwrap g now hg
  obtain ⟨hwithin, hknown⟩ := hg.known_eq hpk hpk_ne hwrap
  -- What the packets make is what the NALUs make.
  have hrun : Depacketizer.run (g.ordered none) =
      (units.map Prod.snd).foldl Depacketizer.withNal {} := by
    rw [FrameState.ordered_none hwithin, hknown, Depacketizer.run, ← hfold]
    refine Depacketizer.foldl_packet (payloads_ne_nil (fun nal hnal => (hnals nal hnal).1) hps)
      (fun a i p hp => Depacketizer.packet_rtpHeader a _ _ _ _ hp) {}
  obtain ⟨hannexb, hkey⟩ := Depacketizer.foldl_withNal (units.map Prod.snd) {}
  rw [← hrun] at hannexb hkey
  simp only [List.nil_append, Bool.false_or, List.flatMap_map, List.any_map] at hannexb hkey
  have hne' : (Depacketizer.run (g.ordered none)).annexb ≠ [] := by
    obtain ⟨u, units, rfl⟩ := List.exists_cons_of_ne_nil hne
    rw [hannexb, List.flatMap_cons]
    exact List.cons_ne_nil _ _
  refine ⟨_, FrameState.emit_of_within hwithin hne' now, hannexb, ?_⟩
  rw [FrameState.encoded, hkey, List.any_eq_true]
  simp only [Function.comp, beq_iff_eq]

/-- Two NALUs, the first one an IDR slice. -/
def idrFrame : EncodedFrame :=
  { captureUs := 40000, frameId := 1, keyframe := true,
    data := [0, 0, 0, 1, 0x65, 1, 0, 0, 1, 0x41, 2] }

/-- A server whose MTU leaves three bytes for a packet. -/
def smallServer (seq : UInt16) : RtpServer := { cfg := ⟨15, 8⟩, nack := ⟨8, []⟩, seq := seq }

/-- The packets of the two NALUs, in a frame state. -/
def idrState : FrameState :=
  { started := true, markerSeen := true, captureMs := 40, ts := 3600, firstSeq := 5
    raws := ((∅ : TreeMap UInt16 Bytes).insert 5
        (rtpHeader false 5 3600 0 ++ [0x65, 1])).insert 6 (rtpHeader true 6 3600 0 ++ [0x41, 2]) }

theorem round_trip_idr :
    ∃ ef, idrState.emit none 0 = [.out idrState none ef] ∧
      ef.data = [0, 0, 0, 1, 0x65, 1, 0, 0, 0, 1, 0x41, 2] := by
  obtain ⟨s', packets, hp, -, h⟩ := round_trip (smallServer 5) idrFrame
    [(true, [0x65, 1]), (false, [0x41, 2])] (by decide) (by decide)
    (by
      intro u hu
      simp only [List.mem_cons, List.not_mem_nil, or_false] at hu
      rcases hu with rfl | rfl <;>
        exact ⟨by decide, ⟨by decide, by decide, by decide⟩, by decide, by decide⟩)
    (by decide)
  obtain rfl : [rtpHeader false 5 3600 0 ++ [0x65, 1], rtpHeader true 6 3600 0 ++ [0x41, 2]] =
      packets := by
    rw [← Option.some_inj, ← hp]
    decide +kernel
  have hlist : idrState.raws.toList = [(5, rtpHeader false 5 3600 0 ++ [0x65, 1]),
      (6, rtpHeader true 6 3600 0 ++ [0x41, 2])] := by decide +kernel
  have hraws : ∀ (k : UInt16) (raw : Bytes), idrState.raws[k]? = some raw ↔
      raw ∈ [rtpHeader false 5 3600 0 ++ [0x65, 1], rtpHeader true 6 3600 0 ++ [0x41, 2]] ∧
        (RtpReceiver.parseRtp raw).map (·.seq) = some k := by
    intro k raw
    rw [← TreeMap.mem_toList_iff_getElem?_eq_some, hlist]
    simp only [List.mem_cons, List.not_mem_nil, or_false, Prod.mk.injEq]
    constructor
    · intro h
      obtain ⟨rfl, rfl⟩ | ⟨rfl, rfl⟩ := h
      · exact ⟨.inl rfl, by decide⟩
      · exact ⟨.inr rfl, by decide⟩
    · intro h
      obtain ⟨rfl | rfl, hseq⟩ := h
      · exact .inl ⟨(Option.some.inj hseq).symm, rfl⟩
      · exact .inr ⟨(Option.some.inj hseq).symm, rfl⟩
  obtain ⟨ef, hemit, hdata, -⟩ := h (by decide) idrState 0 ⟨hraws, by decide +kernel⟩
  exact ⟨ef, hemit, hdata⟩

end RtpServer

end Rtstream
