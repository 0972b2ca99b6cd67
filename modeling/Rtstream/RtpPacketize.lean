import Rtstream.RtpReceiver
import Rtstream.RtpServer
import Mathlib.Tactic.Common

/-!
# RTP packets and what is made of them

The packets of a frame, as `send_frame` leaves them, are payloads behind numbered headers, the
last one marked (`markLast_packetize`). `parse_rtp` reads the numbers back (`parseRtp_packet`),
and the receiver makes of the payloads of a NALU the NALU again, behind a start code
(`nalPayloads_spec`), whether it travelled whole or in fragments.
-/

namespace Rtstream

namespace RtpServer

/-! ## Headers -/

@[simp] theorem length_rtpHeader (marker : Bool) (seq : UInt16) (ts ssrc : UInt32) :
    (rtpHeader marker seq ts ssrc).length = 12 := by simp [rtpHeader]

/-- Packet `i` of the packets that carry `ps`. -/
def packetAt (s : RtpServer) (ts : UInt32) (ps : List Bytes) (i : ℕ) (p : Bytes) : Bytes :=
  rtpHeader (i + 1 == ps.length) (s.seq + UInt16.ofNat i) ts s.ssrc ++ p

theorem modify_rtpHeader (seq : UInt16) (ts ssrc : UInt32) (p : Bytes) :
    (rtpHeader false seq ts ssrc ++ p).modify 1 (· ||| 0x80) = rtpHeader true seq ts ssrc ++ p :=
  rfl

theorem markLast_append_singleton (ps : List Bytes) (p : Bytes) :
    markLast (ps ++ [p]) = ps ++ [p.modify 1 (· ||| 0x80)] := by
  induction ps with
  | nil => rfl
  | cons q ps ih =>
    cases ps with
    | nil => rfl
    | cons r ps =>
      rw [List.cons_append, List.cons_append, markLast, ← List.cons_append, ih]
      · rfl
      · simp

/-- **The packets of a frame**: numbered from the counter on, and the last one marked. -/
theorem markLast_packetize (s : RtpServer) (ts : UInt32) (ps : List Bytes) :
    markLast (packetize s ts ps) = ps.mapIdx (packetAt s ts ps) := by
  rcases List.eq_nil_or_concat ps with rfl | ⟨init, p, rfl⟩
  · rfl
  · rw [List.concat_eq_append, packetize, List.mapIdx_append, List.mapIdx_append]
    simp only [List.mapIdx_cons, List.mapIdx_nil]
    rw [markLast_append_singleton, modify_rtpHeader]
    congr 1
    · apply List.ext_getElem (by simp)
      intro i hi _
      have hne : (i + 1 == (init ++ [p]).length) = false := by
        simp at hi ⊢
        omega
      simp only [List.getElem_mapIdx, packetAt, hne]
    · simp [packetAt]

theorem readSeq_rtpHeader (marker : Bool) (seq : UInt16) (ts ssrc : UInt32) (p : Bytes) :
    readSeq (rtpHeader marker seq ts ssrc ++ p) = seq := by
  simp [readSeq, UdpHeader.field, Slices.slice, rtpHeader, List.drop_append]

theorem parseRtp_packet (marker : Bool) (seq : UInt16) (ts ssrc : UInt32) (p : Bytes) :
    RtpReceiver.parseRtp (rtpHeader marker seq ts ssrc ++ p) =
      some
        { marker := marker, seq := seq, ts := ts, raw := rtpHeader marker seq ts ssrc ++ p } := by
  have h0 : (rtpHeader marker seq ts ssrc ++ p).getD 0 0 = 0x80 := rfl
  have h1 : (rtpHeader marker seq ts ssrc ++ p).getD 1 0 =
      (if marker then 0x80 else 0x00) ||| kPayloadType := rfl
  have hlen : ¬ ((rtpHeader marker seq ts ssrc ++ p).length < 12 ∨
      (rtpHeader marker seq ts ssrc ++ p).getD 0 0 ≠ 0x80) := by
    rw [h0, List.length_append, length_rtpHeader]
    simp
  have hext : ¬ ((rtpHeader marker seq ts ssrc ++ p).getD 0 0 &&& 0x0F ≠ 0 ∨
      (rtpHeader marker seq ts ssrc ++ p).getD 0 0 &&& 0x10 ≠ 0) := by
    rw [h0]
    decide
  have hmark : ((rtpHeader marker seq ts ssrc ++ p).getD 1 0 &&& 0x80 != 0) = marker := by
    rw [h1]
    cases marker <;> decide
  have hseq : UInt16.ofNat (UdpHeader.field (rtpHeader marker seq ts ssrc ++ p) 2 2) = seq :=
    readSeq_rtpHeader marker seq ts ssrc p
  have hts : UInt32.ofNat (UdpHeader.field (rtpHeader marker seq ts ssrc ++ p) 4 4) = ts := by
    simp [UdpHeader.field, Slices.slice, rtpHeader]
  rw [RtpReceiver.parseRtp, if_neg hlen, if_neg hext, hmark, hseq, hts]

end RtpServer

/-! ## What the receiver makes of a NALU -/

namespace Depacketizer

/-- The bits of an FU-A packet: its start and end bits, its type, and the NALU's first byte. -/
theorem fu_bits (hdr : UInt8) (first last : Bool) :
    let ind := hdr &&& 0xE0 ||| 28
    let fu := (if first then 0x80 else 0) ||| (if last then 0x40 else 0) ||| (hdr &&& 0x1F)
    ind &&& 0x1F = 28 ∧ (fu &&& 0x80 != 0) = first ∧ (fu &&& 0x40 != 0) = last ∧
      (ind &&& 0xE0) ||| (fu &&& 0x1F) = hdr := by
  have h : ∀ (n : Fin 256) (first last : Bool),
      let hdr := UInt8.ofNat n
      let ind := hdr &&& 0xE0 ||| 28
      let fu := (if first then 0x80 else 0) ||| (if last then 0x40 else 0) ||| (hdr &&& 0x1F)
      ind &&& 0x1F = 28 ∧ (fu &&& 0x80 != 0) = first ∧ (fu &&& 0x40 != 0) = last ∧
        (ind &&& 0xE0) ||| (fu &&& 0x1F) = hdr := by decide +kernel
  simpa using h ⟨hdr.toNat, hdr.toNat_lt⟩ first last

/-- What has been put together when a NALU is there in full. -/
def withNal (a : Depacketizer) (nal : Bytes) : Depacketizer :=
  { annexb := a.annexb ++ [0, 0, 0, 1] ++ nal
    keyframe := a.keyframe || nal.headD 0 &&& 0x1F == 5
    fuActive := false }

theorem packet_rtpHeader (a : Depacketizer) (marker : Bool) (seq : UInt16) (ts ssrc : UInt32)
    {p : Bytes} (hp : p ≠ []) :
    a.packet (RtpServer.rtpHeader marker seq ts ssrc ++ p) = a.payload p := by
  have hlen := List.length_pos_of_ne_nil hp
  have hdrop : (RtpServer.rtpHeader marker seq ts ssrc ++ p).drop 12 = p := by
    rw [List.drop_left' (RtpServer.length_rtpHeader marker seq ts ssrc)]
  rw [packet, if_neg (by simp; omega), hdrop]

theorem payload_fu (a : Depacketizer) (hdr : UInt8) (first last : Bool) (chunk : Bytes) :
    a.payload ((hdr &&& 0xE0 ||| 28) ::
      ((if first then 0x80 else 0) ||| (if last then 0x40 else 0) ||| (hdr &&& 0x1F)) :: chunk) =
      let a := if first then
          { annexb := a.annexb ++ [0, 0, 0, 1] ++ hdr :: chunk
            keyframe := a.keyframe || hdr &&& 0x1F == 5
            fuActive := true }
        else if a.fuActive then { a with annexb := a.annexb ++ chunk }
        else a
      if last then { a with fuActive := false } else a := by
  obtain ⟨htype, hfirst, hlast, hhdr⟩ := fu_bits hdr first last
  simp only [payload, List.headD_cons, htype, if_true, fragment, List.length_cons,
    List.getD_cons_succ, List.getD_cons_zero, hfirst, hlast, hhdr, List.drop_succ_cons,
    List.drop_zero]
  rw [if_neg (by omega)]

/-- **Fragments put together are the NALU.** The induction is on the fuel: each turn cuts off a
chunk, and what is left is cut by the next ones. -/
theorem foldl_fuPayloads {hdr : UInt8} {maxPayload fuel : ℕ} {first : Bool} {rest : Bytes}
    (hmax : 0 < maxPayload) (hfuel : rest.length ≤ fuel) (hne : rest ≠ []) :
    ∃ ps, RtpServer.fuPayloads hdr maxPayload fuel first rest = some ps ∧ ps ≠ [] ∧
      ∀ a : Depacketizer, (first = false → a.fuActive = true) →
        ps.foldl payload a =
          { annexb := a.annexb ++ (if first then [0, 0, 0, 1, hdr] else []) ++ rest
            keyframe := a.keyframe || (first && hdr &&& 0x1F == 5)
            fuActive := false } := by
  induction fuel generalizing first rest with
  | zero => exact absurd (List.length_eq_zero_iff.1 (Nat.le_zero.1 hfuel)) hne
  | succ fuel ih =>
    have hpos : 0 < rest.length := List.length_pos_of_ne_nil hne
    rw [RtpServer.fuPayloads_succ hdr maxPayload fuel first hne]
    set chunk := min maxPayload rest.length with hchunk
    by_cases hlast : chunk = rest.length
    · -- The last fragment.
      have hdrop : rest.drop chunk = [] := by rw [hlast, List.drop_length]
      have htake : rest.take chunk = rest := by rw [hlast, List.take_length]
      rw [hdrop, htake, RtpServer.fuPayloads_nil]
      refine ⟨_, rfl, List.cons_ne_nil _ _, ?_⟩
      intro a ha
      rw [List.foldl_cons, List.foldl_nil, payload_fu, hlast, beq_self_eq_true]
      cases first with
      | true => simp
      | false => simp [ha rfl]
    · have hlt : chunk < rest.length := by omega
      obtain ⟨ps, hps, -, hfold⟩ := @ih false (rest.drop chunk)
        (by rw [List.length_drop]; omega) (by simp; omega)
      rw [hps]
      refine ⟨_, rfl, List.cons_ne_nil _ _, ?_⟩
      intro a ha
      have hbeq : (chunk == rest.length) = false := by simpa using hlast
      rw [List.foldl_cons, payload_fu, hbeq]
      cases first with
      | true =>
        rw [if_neg Bool.false_ne_true, hfold _ fun _ => rfl]
        simp
      | false =>
        rw [if_neg Bool.false_ne_true, hfold _ fun _ => by simp [ha rfl]]
        simp [ha rfl]

end Depacketizer

namespace RtpServer

/-- **A NALU comes out of its packets**, whether it is sent whole or in fragments. -/
theorem nalPayloads_spec {cfg : ServerConfig} (hmtu : 15 ≤ cfg.udpMtu.toNat) {nal : Bytes}
    (hne : nal ≠ []) (htype : nal.headD 0 &&& 0x1F ≠ 28) :
    ∃ ps, nalPayloads cfg nal = some ps ∧ ps ≠ [] ∧
      ∀ a : Depacketizer, ps.foldl Depacketizer.payload a = a.withNal nal := by
  have hcap : (cfg.udpMtu - kRtpHeader).toNat = cfg.udpMtu.toNat - 12 :=
    UInt64.toNat_sub_of_le _ _ (by rw [UInt64.le_iff_toNat_le]; simp [kRtpHeader]; omega)
  unfold nalPayloads
  split_ifs with hlen
  · refine ⟨[nal], rfl, List.cons_ne_nil _ _, ?_⟩
    intro a
    rw [List.foldl_cons, List.foldl_nil, Depacketizer.payload, if_neg htype]
    rfl
  · have hmax : (cfg.udpMtu - kRtpHeader - 2).toNat = cfg.udpMtu.toNat - 14 := by
      rw [UInt64.toNat_sub_of_le _ _ (by rw [UInt64.le_iff_toNat_le, hcap]; simp; omega), hcap]
      simp
      omega
    rw [UInt64.le_iff_toNat_le, hcap] at hlen
    obtain ⟨hdr, rest, rfl⟩ := List.exists_cons_of_ne_nil hne
    have hrest : rest ≠ [] := by
      rintro rfl
      simp at hlen
      omega
    obtain ⟨ps, hps, hps_ne, hfold⟩ := @Depacketizer.foldl_fuPayloads hdr
      (cfg.udpMtu - kRtpHeader - 2).toNat (hdr :: rest).length true rest (by omega) (by simp) hrest
    refine ⟨ps, hps, hps_ne, ?_⟩
    intro a
    rw [hfold a fun h => by cases h]
    simp [Depacketizer.withNal]

/-- The parity is the one of `fec.h`, for packets whose lengths fit into 32 bits. -/
theorem parity_eq_fecGenerate {packets : List Bytes} (h : ∀ d ∈ packets, d.length < 2 ^ 32) :
    parity packets = fecGenerate packets := by
  have hmod : ∀ (ds : List Bytes) (m : ℕ), (∀ d ∈ ds, d.length < 2 ^ 32) →
      ds.foldl (fun m p => max m (p.length % 2 ^ 32)) m =
        ds.foldl (fun m d => max m d.length) m := by
    intro ds
    induction ds with
    | nil => exact fun _ _ => rfl
    | cons d ds ih =>
      intro m hds
      rw [List.foldl_cons, List.foldl_cons, Nat.mod_eq_of_lt (hds d List.mem_cons_self)]
      exact ih _ fun e he => hds e (List.mem_cons_of_mem d he)
  simp only [parity, fecGenerate, RaggedXor.maxLen, hmod packets 0 h]

theorem fuPayloads_ne_nil {hdr : UInt8} {maxPayload fuel : ℕ} {first : Bool} {rest : Bytes}
    {ps : List Bytes} (h : fuPayloads hdr maxPayload fuel first rest = some ps) :
    ∀ p ∈ ps, p ≠ [] := by
  induction fuel generalizing first rest ps with
  | zero =>
    cases rest with
    | nil => obtain rfl := Option.some.inj h; simp
    | cons b rest => cases h
  | succ fuel ih =>
    cases rest with
    | nil => obtain rfl := Option.some.inj h; simp
    | cons b rest =>
      obtain ⟨qs, hqs, rfl⟩ := Option.map_eq_some_iff.1 h
      intro p hp
      rcases List.mem_cons.1 hp with rfl | hp
      · exact List.cons_ne_nil _ _
      · exact ih hqs p hp

theorem nalPayloads_ne_nil {cfg : ServerConfig} {nal : Bytes} (hne : nal ≠ []) {ps : List Bytes}
    (h : nalPayloads cfg nal = some ps) : ∀ p ∈ ps, p ≠ [] := by
  unfold nalPayloads at h
  split_ifs at h
  · obtain rfl := Option.some.inj h
    simpa using hne
  · exact fuPayloads_ne_nil h

theorem payloads_ne_nil {cfg : ServerConfig} {nals : List Bytes} (hne : ∀ nal ∈ nals, nal ≠ [])
    {ps : List Bytes} (h : payloads cfg nals = some ps) : ∀ p ∈ ps, p ≠ [] := by
  induction nals generalizing ps with
  | nil => obtain rfl := Option.some.inj h; simp
  | cons nal nals ih =>
    simp only [payloads, Option.bind_eq_bind, Option.bind_eq_some_iff, Option.pure_def,
      Option.some.injEq] at h
    obtain ⟨ps₁, h₁, ps₂, h₂, rfl⟩ := h
    intro p hp
    rcases List.mem_append.1 hp with hp | hp
    · exact nalPayloads_ne_nil (hne nal List.mem_cons_self) h₁ p hp
    · exact ih (fun n hn => hne n (List.mem_cons_of_mem nal hn)) h₂ p hp

theorem payloads_spec {cfg : ServerConfig} (hmtu : 15 ≤ cfg.udpMtu.toNat) {nals : List Bytes}
    (hnals : ∀ nal ∈ nals, nal ≠ [] ∧ nal.headD 0 &&& 0x1F ≠ 28) :
    ∃ ps, payloads cfg nals = some ps ∧ (nals ≠ [] → ps ≠ []) ∧
      ∀ a : Depacketizer, ps.foldl Depacketizer.payload a = nals.foldl Depacketizer.withNal a := by
  induction nals with
  | nil => exact ⟨[], rfl, fun h => absurd rfl h, fun a => rfl⟩
  | cons nal nals ih =>
    obtain ⟨hne, htype⟩ := hnals nal List.mem_cons_self
    obtain ⟨ps₁, h₁, hne₁, hfold₁⟩ := nalPayloads_spec hmtu hne htype
    obtain ⟨ps₂, h₂, -, hfold₂⟩ := ih fun n hn => hnals n (List.mem_cons_of_mem nal hn)
    refine ⟨ps₁ ++ ps₂, ?_, fun _ => by simp [hne₁], ?_⟩
    · simp [payloads, h₁, h₂]
    · intro a
      rw [List.foldl_append, hfold₁, hfold₂, List.foldl_cons]

end RtpServer

namespace Depacketizer

theorem foldl_packet {header : ℕ → Bytes → Bytes} {ps : List Bytes} (hps : ∀ p ∈ ps, p ≠ [])
    (hheader : ∀ (a : Depacketizer) i p, p ≠ [] → a.packet (header i p) = a.payload p)
    (a : Depacketizer) : (ps.mapIdx header).foldl packet a = ps.foldl payload a := by
  induction ps generalizing header a with
  | nil => rfl
  | cons p ps ih =>
    rw [List.mapIdx_cons, List.foldl_cons, List.foldl_cons,
      hheader a 0 p (hps p List.mem_cons_self)]
    exact @ih (fun i => header (i + 1))
      (fun q hq => hps q (List.mem_cons_of_mem p hq)) (fun a i q hq => hheader a (i + 1) q hq) _

/-- What the NALUs of a frame make. -/
theorem foldl_withNal (nals : List Bytes) (a : Depacketizer) :
    (nals.foldl withNal a).annexb = a.annexb ++ nals.flatMap (fun nal => [0, 0, 0, 1] ++ nal) ∧
      (nals.foldl withNal a).keyframe =
        (a.keyframe || nals.any fun nal => nal.headD 0 &&& 0x1F == 5) := by
  induction nals generalizing a with
  | nil => simp
  | cons nal nals ih =>
    obtain ⟨hdata, hkey⟩ := ih (a.withNal nal)
    rw [List.foldl_cons, hdata, hkey, List.flatMap_cons, List.any_cons]
    simp [withNal, Bool.or_assoc]

end Depacketizer

end Rtstream
