import Rtstream.Packetisers
import Rtstream.RtpSequence

/-!
# `rtp_server.h`: the stream that `send_frame` makes

A run of `send_frame` hands packets to the simulator, frame after frame. Before a packet is handed
over it is registered in the cache for retransmissions, under group 0 and its own number
(`emitPackets`, the loop at the end of `send_frame` with what the cache holds at each `inject`).

**Theorem (`sender_stream`).** With an MTU of at least 15 and a cache for at least one packet, the
RTP packets of a run are numbered consecutively modulo `2 ^ 16`; each is in the cache when it is
handed over; and each frame's packets carry the frame's time, have the marker on the last one alone
and are followed by their parity (`SentAs`).

A cache for no packets registers none (`unregistered`).
-/

namespace Rtstream

open RaggedXor

/-! ## Registered, then handed over -/

/-- A packet handed to the simulator, and the cache at that time. -/
structure Injected where
  packet : Bytes
  cache : NackManager
  deriving DecidableEq, Repr

namespace NackManager

theorem find_remember {n : NackManager} (h : n.cache ≠ 0) (groupId : UInt32) (fragmentSeq : UInt16)
    (raw : Bytes) :
    (n.remember groupId fragmentSeq raw).find groupId fragmentSeq =
      some ⟨groupId, fragmentSeq, raw⟩ := by
  rw [remember, if_neg h, find, List.reverse_append, List.reverse_singleton, List.singleton_append,
    List.find?_cons_of_pos (by simp)]

@[simp] theorem cache_remember (n : NackManager) (groupId : UInt32) (fragmentSeq : UInt16)
    (raw : Bytes) : (n.remember groupId fragmentSeq raw).cache = n.cache := by
  rw [remember]
  split_ifs <;> rfl

end NackManager

namespace RtpServer

/-- The loop over the packets: register each, then hand it over. -/
def emitPackets (n : NackManager) : List Bytes → NackManager × List Injected
  | [] => (n, [])
  | p :: packets =>
    let n := n.remember 0 (readSeq p) p
    let r := emitPackets n packets
    (r.1, ⟨p, n⟩ :: r.2)

/-- The loop leaves the cache that `sendFrame` says, and hands over the packets in order. -/
theorem emitPackets_eq (n : NackManager) (packets : List Bytes) :
    (emitPackets n packets).1 = packets.foldl (fun n p => n.remember 0 (readSeq p) p) n ∧
      (emitPackets n packets).2.map (·.packet) = packets := by
  induction packets generalizing n with
  | nil => exact ⟨rfl, rfl⟩
  | cons p packets ih =>
    obtain ⟨hcache, hpackets⟩ := ih (n.remember 0 (readSeq p) p)
    exact ⟨hcache, congrArg (p :: ·) hpackets⟩

theorem cache_emitPackets (n : NackManager) (packets : List Bytes) :
    (emitPackets n packets).1.cache = n.cache := by
  induction packets generalizing n with
  | nil => rfl
  | cons p packets ih =>
    rw [emitPackets]
    exact (ih _).trans (n.cache_remember 0 (readSeq p) p)

/-- The cache finds the packet under its number. -/
def Registered (x : Injected) : Prop :=
  ∃ p, RtpReceiver.parseRtp x.packet = some p ∧
    x.cache.find 0 p.seq = some ⟨0, p.seq, x.packet⟩

theorem registered_emitPackets {n : NackManager} (h : n.cache ≠ 0) {packets : List Bytes}
    (hparse : ∀ d ∈ packets, ∃ p, RtpReceiver.parseRtp d = some p ∧ p.seq = readSeq d) :
    ∀ x ∈ (emitPackets n packets).2, Registered x := by
  induction packets generalizing n with
  | nil => exact List.forall_mem_nil _
  | cons d packets ih =>
    obtain ⟨⟨p, hp, hseq⟩, hrest⟩ := List.forall_mem_cons.1 hparse
    refine List.forall_mem_cons.2 ⟨⟨p, hp, ?_⟩, ih (by simpa using h) hrest⟩
    rw [hseq]
    exact NackManager.find_remember h 0 (readSeq d) d

/-! ## One frame -/

variable {s s' : RtpServer} {f : EncodedFrame} {fs : List EncodedFrame} {out packets : List Bytes}

/-- What one frame makes: its packets carry its time, and the marker on the last one alone; behind
them comes, in a datagram of its own, the XOR of exactly these packets, each continued with zeros to
the longest. A frame without packets makes nothing. -/
structure SentAs (f : EncodedFrame) (packets out : List Bytes) : Prop where
  time : ∀ d ∈ packets, ∃ p, RtpReceiver.parseRtp d = some p ∧ p.ts = timestamp f
  marker : ∀ (k : ℕ) (hk : k < packets.length), ∃ p, RtpReceiver.parseRtp packets[k] = some p ∧
    (p.marker = true ↔ k + 1 = packets.length)
  nothing : packets = [] → out = []
  parity : packets ≠ [] → ∃ (h : UdpHeader) (parity : Bytes), h.payloadType = PayloadType.fec.code ∧
    out = packets ++ [h.write ++ parity] ∧
    ((∀ d ∈ packets, d.length < 2 ^ 32) →
      parity.length = maxLen packets ∧ ∀ j, byteAt parity j = column packets j)

/-- `send_frame` on a frame: its packets, the cache it leaves, and what is handed over. -/
theorem sendFrame_eq_some (h : s.sendFrame f = some (s', out)) :
    ∃ packets, s.rtpPackets f = some packets ∧ s'.cfg = s.cfg ∧
      s'.nack = (emitPackets s.nack packets).1 ∧
      out = if packets = [] then [] else packets ++ [fecDatagram f packets] := by
  simp only [sendFrame, Option.bind_eq_bind, Option.bind_eq_some_iff, Option.pure_def] at h
  obtain ⟨packets, hp, h⟩ := h
  refine ⟨packets, hp, ?_⟩
  split_ifs at h with hempty
  · obtain ⟨rfl, rfl⟩ := Prod.mk.inj (Option.some.inj h)
    obtain rfl := List.isEmpty_iff.1 hempty
    exact ⟨rfl, rfl, rfl⟩
  · obtain ⟨rfl, rfl⟩ := Prod.mk.inj (Option.some.inj h)
    exact ⟨rfl, (emitPackets_eq s.nack packets).1.symm, (if_neg (by simpa using hempty)).symm⟩

theorem readSeq_getElem (hp : s.rtpPackets f = some packets) {k : ℕ} (hk : k < packets.length) :
    readSeq packets[k] = s.seq + UInt16.ofNat k := by
  obtain ⟨ps, -, rfl⟩ := rtpPackets_eq hp
  rw [List.getElem_mapIdx, packetAt, readSeq_rtpHeader]

theorem sentAs_of_packets (hp : s.rtpPackets f = some packets)
    (hout : out = if packets = [] then [] else packets ++ [fecDatagram f packets]) :
    SentAs f packets out where
  time d hd := by
    obtain ⟨k, hk, rfl⟩ := List.getElem_of_mem hd
    exact ⟨_, parseRtp_getElem hp hk, rfl⟩
  marker k hk := ⟨_, parseRtp_getElem hp hk, beq_iff_eq⟩
  nothing hnil := hout.trans (if_pos hnil)
  parity hne := by
    refine ⟨_, parity packets, ?_, hout.trans (if_neg hne), fun hshort => ?_⟩
    · rfl
    · rw [parity_eq_fecGenerate hshort]
      exact ⟨length_fecGenerate packets, byteAt_fecGenerate packets⟩

/-- With an MTU of at least 15, every NALU has its packets. -/
theorem isSome_payloads (hmtu : 15 ≤ s.cfg.udpMtu.toNat) (nals : List Bytes) :
    (payloads s.cfg nals).isSome := by
  induction nals with
  | nil => rfl
  | cons nal nals ih =>
    have hnal : (nalPayloads s.cfg nal).isSome := by
      rw [nalPayloads]
      split_ifs
      · rfl
      · by_cases htail : nal.tail = []
        · rw [htail, fuPayloads_nil]
          rfl
        · rw [isSome_fuPayloads_iff _ _ _ _ (by simp) htail, toNat_maxPayload (by omega)]
          omega
    obtain ⟨ps, hps⟩ := Option.isSome_iff_exists.1 hnal
    obtain ⟨qs, hqs⟩ := Option.isSome_iff_exists.1 ih
    simp [payloads, hps, hqs]

/-! ## A run -/

/-- What a run hands over, frame by frame, each packet with the cache at that time. -/
def injections (s : RtpServer) : List EncodedFrame → Option (List Injected)
  | [] => some []
  | f :: fs => do
    let packets ← rtpPackets s f
    let (s', _) ← sendFrame s f
    let rest ← injections s' fs
    pure ((emitPackets s.nack packets).2 ++ rest)

theorem exists_sendFrame (hmtu : 15 ≤ s.cfg.udpMtu.toNat) (f : EncodedFrame) :
    ∃ s' out, s.sendFrame f = some (s', out) := by
  have hsome := isSome_payloads hmtu (nalus f.data)
  rw [← isSome_sendFrame] at hsome
  obtain ⟨⟨s', out⟩, h⟩ := Option.isSome_iff_exists.1 hsome
  exact ⟨s', out, h⟩

/-- **Main theorem.** The RTP packets of a run are numbered consecutively, each is registered when
it is handed over, and each frame is sent as it should be. -/
theorem sender_stream (s : RtpServer) (fs : List EncodedFrame) (hmtu : 15 ≤ s.cfg.udpMtu.toNat)
    (hcache : s.nack.cache ≠ 0) :
    ∃ s' outs handed, s.sendFrames fs = some (s', outs) ∧ s.injections fs = some handed ∧
      handed.map (·.packet) = outs.flatten.filter isRtp ∧
      Numbered s.seq (outs.flatten.filter isRtp) ∧
      (∀ x ∈ handed, Registered x) ∧
      List.Forall₂ (fun f out => SentAs f (out.filter isRtp) out) fs outs := by
  induction fs generalizing s with
  | nil =>
    refine ⟨s, [], [], rfl, rfl, rfl, ?_, List.forall_mem_nil _, List.Forall₂.nil⟩
    exact @numbered_sendFrames s s [] [] rfl
  | cons f fs ih =>
    obtain ⟨s₁, out, hf⟩ := exists_sendFrame hmtu f
    obtain ⟨packets, hp, hcfg, hnack, hout⟩ := sendFrame_eq_some hf
    obtain ⟨packets', hp', hfilter, -⟩ := sendFrame_spec hf
    obtain rfl : packets = packets' := Option.some.inj (hp.symm.trans hp')
    obtain ⟨s', outs, handed, hfs, hinj, hmap, -, hreg, hsent⟩ := ih s₁ (by rw [hcfg]; exact hmtu)
      (by rw [hnack, cache_emitPackets]; exact hcache)
    have hrun : s.sendFrames (f :: fs) = some (s', out :: outs) := by
      simp only [sendFrames, hf, hfs, Option.bind_eq_bind, Option.bind_some]
      rfl
    have hparse : ∀ d ∈ packets, ∃ p, RtpReceiver.parseRtp d = some p ∧ p.seq = readSeq d := by
      intro d hd
      obtain ⟨k, hk, rfl⟩ := List.getElem_of_mem hd
      exact ⟨_, parseRtp_getElem hp hk, (readSeq_getElem hp hk).symm⟩
    refine ⟨s', out :: outs, (emitPackets s.nack packets).2 ++ handed, hrun, ?_, ?_,
      numbered_sendFrames hrun, ?_, List.Forall₂.cons ?_ hsent⟩
    · simp only [injections, hp, hf, hinj, Option.bind_eq_bind, Option.bind_some]
      rfl
    · rw [List.map_append, (emitPackets_eq s.nack packets).2, hmap, List.flatten_cons,
        List.filter_append, hfilter]
    · rw [List.forall_mem_append]
      exact ⟨registered_emitPackets hcache hparse, hreg⟩
    · rw [hfilter]
      exact sentAs_of_packets hp hout

/-- Without a cache the packet is handed over and not registered. -/
theorem unregistered :
    ¬ ∀ (s : RtpServer) (fs : List EncodedFrame), 15 ≤ s.cfg.udpMtu.toNat → ∀ handed,
      s.injections fs = some handed → ∀ x ∈ handed, Registered x := by
  intro hall
  have hitems : ((start { nackCache := 0 } 0).injections [threeBytes]).map
      (fun handed => handed.map (·.cache.items)) = some [[]] := by decide +kernel
  obtain ⟨handed, hinj, hmap⟩ := Option.map_eq_some_iff.1 hitems
  obtain ⟨x, rest, rfl, hx, -⟩ := List.map_eq_cons_iff.1 hmap
  obtain ⟨p, -, hfind⟩ := hall (start { nackCache := 0 } 0) [threeBytes] (by decide) _ hinj x
    List.mem_cons_self
  rw [NackManager.find, hx] at hfind
  cases hfind

theorem sender_stream_two :
    ∃ s' outs handed,
      (start { udpMtu := 15 } 0).sendFrames [threeBytes, idrFrame] = some (s', outs) ∧
        (start { udpMtu := 15 } 0).injections [threeBytes, idrFrame] = some handed ∧
        (∀ x ∈ handed, Registered x) := by
  obtain ⟨s', outs, handed, hrun, hinj, -, -, hreg, -⟩ :=
    sender_stream (start { udpMtu := 15 } 0) [threeBytes, idrFrame] (by decide) (by decide)
  exact ⟨s', outs, handed, hrun, hinj, hreg⟩

end RtpServer

end Rtstream
