import Rtstream.Lib.Holes
import Rtstream.RtpAssemblerSpec
import Rtstream.RtpRoundTrip

/-!
# Frames sent and frames collected

A `SentFrame` is a frame with the packets that `send_frame` made of it. `Collected F A f` says
which of them a frame state has: those that `A` selects. From this follows what the assembler
makes of the frame state, when its first packet is the frame's first one:

* `Collected.known_eq`: the packets by position are the ones sent, with holes;
* `Collected.builtFrom`: a frame state that is ready was built from all packets of the frame, one
  of them perhaps rebuilt from the parity, and then continued with zeros.
-/

namespace Rtstream

open Std (TreeMap)
open Holes RaggedXor

/-- A frame and its packets. Their numbers do not wrap within the frame, and each fits into a
datagram. -/
structure SentFrame where
  server : RtpServer
  frame : EncodedFrame
  packets : List Bytes
  made : server.rtpPackets frame = some packets
  ne_nil : packets ≠ []
  noWrap : server.seq.toNat + packets.length ≤ 65536
  short : ∀ d ∈ packets, d.length ≤ 65507

namespace SentFrame

variable (F : SentFrame)

def ts : UInt32 := RtpServer.timestamp F.frame

/-- The number of packet `i`. -/
def seqAt (i : ℕ) : UInt16 := F.server.seq + UInt16.ofNat i

/-- The parity that is sent with the packets. -/
def parity : Bytes := RtpServer.parity F.packets

/-- `p` is packet `i` of the frame as the receiver parses it, with a capture time of its own. -/
def Carries (i : ℕ) (p : RtpPkt) : Prop :=
  ∃ h : i < F.packets.length, RtpReceiver.parseRtp F.packets[i] = some { p with captureMs := 0 }

/-- The packets of a frame state are packets of the frame. -/
def Owns (f : FrameState) : Prop :=
  f.ts = F.ts ∧ ∀ kv ∈ f.raws.toList, kv.2 ∈ F.packets

instance (f : FrameState) : Decidable (F.Owns f) := inferInstanceAs (Decidable (_ ∧ _))

variable {F}

theorem length_pos : 0 < F.packets.length := List.length_pos_of_ne_nil F.ne_nil

theorem toNat_seqAt {i : ℕ} (hi : i < F.packets.length) :
    (F.seqAt i).toNat = F.server.seq.toNat + i := RtpServer.toNat_seq_add F.noWrap hi

theorem seqAt_zero (F : SentFrame) : F.seqAt 0 = F.server.seq := by
  rw [seqAt]
  exact UInt16.add_zero _

theorem seqAt_inj {i j : ℕ} (hi : i < F.packets.length) (hj : j < F.packets.length)
    (h : F.seqAt i = F.seqAt j) : i = j := by
  have := congrArg UInt16.toNat h
  rw [toNat_seqAt hi, toNat_seqAt hj] at this
  omega

theorem packet_eq {i : ℕ} (hi : i < F.packets.length) :
    ∃ marker p, p ≠ [] ∧
      F.packets[i] = RtpServer.rtpHeader marker (F.seqAt i) F.ts F.server.ssrc ++ p := by
  obtain ⟨ps, hps, heq⟩ := RtpServer.rtpPackets_eq F.made
  have hi' : i < ps.length := by simpa [heq] using hi
  refine ⟨i + 1 == ps.length, ps[i], ?_, ?_⟩
  · exact RtpServer.payloads_ne_nil (fun nal => RtpServer.ne_nil_of_mem_nalus) hps _
      (List.getElem_mem hi')
  · simp only [heq, List.getElem_mapIdx]
    rfl

theorem fields_of_carries {i : ℕ} {p : RtpPkt} (h : F.Carries i p) :
    ∃ hi : i < F.packets.length, p.seq = F.seqAt i ∧ p.ts = F.ts ∧
      p.marker = (i + 1 == F.packets.length) ∧ p.raw = F.packets[i] := by
  obtain ⟨hi, hp⟩ := h
  rw [RtpServer.parseRtp_getElem F.made hi, Option.some.injEq, RtpPkt.mk.injEq] at hp
  obtain ⟨hseq, hts, hmark, -, hraw⟩ := hp
  exact ⟨hi, hseq.symm, hts.symm, hmark.symm, hraw.symm⟩

theorem carries_of_mem {G : SentFrame} {i : ℕ} {p : RtpPkt} (hp : G.Carries i p)
    (h : p.raw ∈ F.packets) : ∃ j, F.Carries j p := by
  obtain ⟨hi, -, -, -, hraw⟩ := fields_of_carries hp
  obtain ⟨_, hparse⟩ := hp
  rw [← hraw] at hparse
  obtain ⟨j, hj, heq⟩ := List.getElem_of_mem h
  exact ⟨j, hj, by rw [heq, hparse]⟩

theorem parity_eq (F : SentFrame) : F.parity = fecGenerate F.packets :=
  RtpServer.parity_eq_fecGenerate fun d hd => (F.short d hd).trans_lt (by decide)

theorem packet_ne_nil : ∀ d ∈ F.packets, d ≠ [] := by
  intro d hd
  obtain ⟨i, hi, rfl⟩ := List.getElem_of_mem hd
  obtain ⟨marker, p, hp, heq⟩ := packet_eq hi
  rw [heq]
  simp [hp]

theorem field_packet_append {i : ℕ} (hi : i < F.packets.length) (tail : Bytes) :
    UInt16.ofNat (UdpHeader.field (F.packets[i] ++ tail) 2 2) = F.seqAt i := by
  obtain ⟨marker, p, -, heq⟩ := packet_eq hi
  rw [heq, List.append_assoc]
  exact RtpServer.readSeq_rtpHeader marker _ _ _ _

end SentFrame

/-- The frame state was built from all packets of the frame: each of them was received, or all
but one, and that one was rebuilt and continued with zeros. -/
inductive SentFrame.BuiltFrom (F : SentFrame) (src : FrameState) : Option Bytes → Prop
  | received (hall : ∀ (i : ℕ) (hi : i < F.packets.length),
        src.raws[F.seqAt i]? = some F.packets[i])
      (hordered : src.ordered none = F.packets) : F.BuiltFrom src none
  | rebuilt (j : ℕ) (hj : j < F.packets.length) (z : ℕ)
      (hothers : ∀ (i : ℕ) (hi : i < F.packets.length), i ≠ j →
        src.raws[F.seqAt i]? = some F.packets[i])
      (hordered : src.ordered (some (F.packets[j] ++ List.replicate z 0)) =
        F.packets.set j (F.packets[j] ++ List.replicate z 0)) :
      F.BuiltFrom src (some (F.packets[j] ++ List.replicate z 0))

/-! ## What a frame state has collected -/

/-- The frame state has the packets of the frame that `A` selects. -/
structure Collected (F : SentFrame) (A : ℕ → Bool) (f : FrameState) : Prop where
  started : f.started = true
  ts : f.ts = F.ts
  marker : f.markerSeen = A (F.packets.length - 1)
  raws : ∀ (k : UInt16) (raw : Bytes), f.raws[k]? = some raw ↔
    ∃ (i : ℕ) (hi : i < F.packets.length), A i = true ∧ F.seqAt i = k ∧ F.packets[i] = raw

namespace Collected

variable {F : SentFrame} {A : ℕ → Bool} {f : FrameState} {p : RtpPkt} {i first : ℕ}

theorem owns (h : Collected F A f) : F.Owns f := by
  refine ⟨h.ts, ?_⟩
  intro kv hkv
  obtain ⟨i, hi, -, -, heq⟩ := (h.raws kv.1 kv.2).1 (OrderedMap.getElem?_of_mem_toList hkv)
  rw [← heq]
  exact List.getElem_mem hi

theorem getElem?_seqAt (h : Collected F A f) (hi : i < F.packets.length) :
    f.raws[F.seqAt i]? = if A i then some F.packets[i] else none := by
  cases hk : f.raws[F.seqAt i]? with
  | some raw =>
    obtain ⟨j, hj, hA, hseq, rfl⟩ := (h.raws _ _).1 hk
    obtain rfl := SentFrame.seqAt_inj hj hi hseq
    rw [if_pos hA]
  | none =>
    split_ifs with hA
    · rw [(h.raws _ _).2 ⟨i, hi, hA, rfl, rfl⟩] at hk
      cases hk
    · rfl

theorem addPacket (h : Collected F A f) (hp : F.Carries i p) :
    Collected F (fun j => A j || j == i) (Assembler.addPacket f p) := by
  obtain ⟨hi, hseq, hts, hmark, hraw⟩ := SentFrame.fields_of_carries hp
  refine ⟨h.started, h.ts, ?_, ?_⟩
  · show (f.markerSeen || p.marker) = _
    rw [h.marker, hmark]
    congr 1
    rw [Bool.eq_iff_iff, beq_iff_eq, beq_iff_eq]
    omega
  · intro k raw
    show (f.raws.insertIfNew p.seq p.raw)[k]? = some raw ↔ _
    have hget : (f.raws.insertIfNew p.seq p.raw)[k]? =
        if F.seqAt i = k ∧ A i = false then some F.packets[i] else f.raws[k]? := by
      rw [TreeMap.getElem?_insertIfNew]
      simp only [Std.compare_eq_iff_eq, TreeMap.mem_iff_isSome_getElem?, hseq, hraw,
        h.getElem?_seqAt hi]
      cases A i <;> simp
    rw [hget]
    simp only [Bool.or_eq_true, beq_iff_eq]
    constructor
    · intro hk
      split_ifs at hk with hnew
      · exact ⟨i, hi, .inr rfl, hnew.1, Option.some.inj hk⟩
      · obtain ⟨j, hj, hA, hrest⟩ := (h.raws _ _).1 hk
        exact ⟨j, hj, .inl hA, hrest⟩
    · intro h
      obtain ⟨j, hj, hA, rfl, rfl⟩ := h
      by_cases hold : A j = true
      · rw [h.getElem?_seqAt hj, if_pos hold]
        split_ifs with hnew
        · obtain rfl := SentFrame.seqAt_inj hi hj hnew.1
          rfl
        · rfl
      · obtain rfl := hA.resolve_left hold
        rw [if_pos ⟨rfl, by simpa using hold⟩]

theorem openFrame (hp : F.Carries i p) (now : Int) :
    Collected F (fun j => j == i) (Assembler.addPacket (Assembler.openFrame p now) p) := by
  obtain ⟨-, -, hts, -⟩ := SentFrame.fields_of_carries hp
  have h : Collected F (fun _ => false) (Assembler.openFrame p now) :=
    ⟨rfl, hts, rfl, fun k raw => by simp [Assembler.openFrame]⟩
  simpa using h.addPacket hp

theorem size_eq (h : Collected F A f) :
    f.raws.size = (List.range F.packets.length).countP A := by
  refine OrderedMap.size_eq_countP (g := F.seqAt)
    (fun i hi j hj => SentFrame.seqAt_inj hi hj) fun k => ?_
  rw [Option.isSome_iff_exists]
  constructor
  · intro h
    obtain ⟨raw, hk⟩ := h
    obtain ⟨i, hi, hA, hseq, -⟩ := (h.raws k raw).1 hk
    exact ⟨i, hi, hA, hseq⟩
  · intro h
    obtain ⟨i, hi, hA, rfl⟩ := h
    exact ⟨F.packets[i], (h.raws _ _).2 ⟨i, hi, hA, rfl, rfl⟩⟩

/-! ## The packets by position -/

variable (h : Collected F A f) (hfirst : f.firstSeq = F.seqAt first)
  (hle : ∀ i < F.packets.length, A i = true → first ≤ i) (hlast : A (F.packets.length - 1) = true)
include h hfirst hle hlast

/-- With the last packet there, the frame state reaches from its first packet to the frame's
end. -/
theorem span_eq : f.Within ∧ first < F.packets.length ∧
    f.span.toNat = F.packets.length - first := by
  have hpos := F.length_pos
  have hlt : first < F.packets.length := by
    have := hle (F.packets.length - 1) (by omega) hlast
    omega
  have hwithin : f.Within := by
    intro k raw hk
    obtain ⟨i, hi, hA, rfl, -⟩ := (h.raws k raw).1 hk
    have := hle i hi hA
    rw [hfirst, SentFrame.toNat_seqAt hi, SentFrame.toNat_seqAt hlt]
    omega
  refine ⟨hwithin, hlt, ?_⟩
  have hl := h.getElem?_seqAt (i := F.packets.length - 1) (by omega)
  rw [if_pos hlast] at hl
  rw [FrameState.toNat_span_of_last hwithin hl fun k raw hk => ?_, hfirst,
    SentFrame.toNat_seqAt (by omega), SentFrame.toNat_seqAt hlt]
  · omega
  · obtain ⟨i, hi, -, rfl, -⟩ := (h.raws k raw).1 hk
    rw [SentFrame.toNat_seqAt hi, SentFrame.toNat_seqAt (by omega)]
    omega

theorem known_eq : f.known = (mask F.packets A).drop first := by
  obtain ⟨-, hlt, hspan⟩ := h.span_eq hfirst hle hlast
  apply List.ext_getElem (by simp [hspan])
  intro j hj hj'
  have hj'' : first + j < F.packets.length := by
    rw [FrameState.length_known, hspan] at hj
    omega
  have hseq : f.firstSeq + UInt16.ofNat j = F.seqAt (first + j) := by
    rw [hfirst, SentFrame.seqAt, SentFrame.seqAt, UInt16.ofNat_add, UInt16.add_assoc]
  rw [FrameState.getElem_known, hseq, h.getElem?_seqAt hj'', List.getElem_drop, getElem_mask]
  split_ifs <;> rfl

end Collected

namespace Collected

variable {F : SentFrame} {A : ℕ → Bool} {f : FrameState} {fec : TreeMap UInt32 Bytes} {j : ℕ}

variable (h : Collected F A f) (hfirst : f.firstSeq = F.seqAt 0)
include h hfirst

/-- A frame state that starts with the frame's first packet and is complete has all packets. -/
theorem all_of_complete (hc : f.complete = true) : ∀ i < F.packets.length, A i = true := by
  rw [FrameState.complete, Bool.and_eq_true, beq_iff_eq, h.marker] at hc
  obtain ⟨-, -, hspan⟩ := h.span_eq hfirst (fun _ _ _ => Nat.zero_le _) hc.2
  have hcount := h.size_eq
  rw [hc.1, hspan, Nat.sub_zero] at hcount
  intro i hi
  have := List.countP_eq_length.1 (hcount.symm.trans List.length_range.symm)
  exact this i (List.mem_range.2 hi)

/-- **The missing packet is rebuilt**, and continued with zeros to the length of the longest. -/
theorem rebuild_eq (hlast : A (F.packets.length - 1) = true) (hj : j < F.packets.length)
    (hA : A j = false) (hothers : ∀ i < F.packets.length, i ≠ j → A i = true) :
    f.rebuild F.parity = some (pad (maxLen F.packets) F.packets[j]) := by
  obtain ⟨hwithin, -, hspan⟩ := h.span_eq hfirst (fun _ _ _ => Nat.zero_le _) hlast
  have hmem : ∀ i < F.packets.length,
      f.raws.contains (f.firstSeq + UInt16.ofNat i) = A i := by
    intro i hi
    rw [hfirst, SentFrame.seqAt, UInt16.add_assoc, ← UInt16.ofNat_add, Nat.zero_add,
      TreeMap.contains_eq_isSome_getElem?]
    show f.raws[F.seqAt i]?.isSome = A i
    rw [h.getElem?_seqAt hi]
    cases A i <;> rfl
  have hmissing : f.missingIdx = some j := by
    cases hm : f.missingIdx with
    | none =>
      have := List.find?_eq_none.1 hm j (by simpa [hspan] using hj)
      rw [hmem j hj, hA] at this
      exact absurd rfl this
    | some i =>
      have hi : i < F.packets.length := by
        simpa [hspan] using List.mem_of_find?_eq_some hm
      have hhole := List.find?_some hm
      rw [hmem i hi] at hhole
      by_contra hij
      rw [hothers i hi fun heq => hij (by rw [heq])] at hhole
      cases hhole
  have hknown : f.known = F.packets.set j [] := by
    rw [h.known_eq hfirst (fun _ _ _ => Nat.zero_le _) hlast, List.drop_zero, mask_hole hA hothers]
  have hlen : max F.parity.length (maxLen (F.packets.set j [] ++ [F.parity])) =
      maxLen F.packets := by
    rw [F.parity_eq, length_fecGenerate]
    refine max_eq_left (maxLen_le fun d hd => ?_)
    rcases List.mem_append.1 hd with hd | hd
    · rcases List.mem_or_eq_of_mem_set hd with hd | rfl
      · exact length_le_maxLen hd
      · exact Nat.zero_le _
    · rw [List.mem_singleton.1 hd, length_fecGenerate]
  simp only [FrameState.rebuild, hmissing, hknown, hlen]
  rw [F.parity_eq, fecRecover_set_nil F.packet_ne_nil hj le_rfl, if_pos rfl]
  rw [List.getD_eq_getElem?_getD, List.getElem?_append_left (by simpa using hj),
    List.getElem?_set_self hj]
  rfl

/-- What the recovery gives, when the stored parity is the frame's. -/
theorem recover_spec (hfec : fec[toUInt32 f.captureMs]? = some F.parity) {raw : Bytes} :
    f.recover fec = some raw ↔ ∃ (j : ℕ) (hj : j < F.packets.length),
      A (F.packets.length - 1) = true ∧ A j = false ∧
      (∀ i < F.packets.length, i ≠ j → A i = true) ∧
      raw = pad (maxLen F.packets) F.packets[j] := by
  have hpos := F.length_pos
  -- One packet is missing, and it is not the last one.
  have hcond : (f.raws.size = (f.span - 1).toNat ∧ f.markerSeen = true) ↔
      ∃ j < F.packets.length, A (F.packets.length - 1) = true ∧ A j = false ∧
        ∀ i < F.packets.length, i ≠ j → A i = true := by
    rw [h.size_eq, h.marker]
    by_cases hlast : A (F.packets.length - 1) = true
    · obtain ⟨-, -, hspan⟩ := h.span_eq hfirst (fun _ _ _ => Nat.zero_le _) hlast
      have hone : (1 : UInt32) ≤ f.span := by
        rw [UInt32.le_iff_toNat_le, hspan, UInt32.toNat_one]
        omega
      rw [UInt32.toNat_sub_of_le _ _ hone, hspan, UInt32.toNat_one, Nat.sub_zero,
        countP_range_eq_pred_iff hpos]
      simp [hlast]
    · simp [hlast]
  simp only [FrameState.recover, hfec]
  by_cases hc : f.raws.size = (f.span - 1).toNat ∧ f.markerSeen = true
  · rw [if_pos hc]
    obtain ⟨j, hj, hlast, hA, hothers⟩ := hcond.1 hc
    rw [h.rebuild_eq hfirst hlast hj hA hothers, Option.some.injEq]
    constructor
    · rintro rfl
      exact ⟨j, hj, hlast, hA, hothers, rfl⟩
    · intro h
      obtain ⟨k, hk, -, hAk, -, rfl⟩ := h
      by_cases hkj : k = j
      · subst hkj
        rfl
      · rw [hothers k hk hkj] at hAk
        cases hAk
  · rw [if_neg hc]
    constructor
    · rintro ⟨⟩
    · intro h
      obtain ⟨j, hj, hlast, hA, hothers, -⟩ := h
      exact absurd (hcond.2 ⟨j, hj, hlast, hA, hothers⟩) hc

theorem ordered_rebuilt (hlast : A (F.packets.length - 1) = true) (hj : j < F.packets.length)
    (hA : A j = false) (hothers : ∀ i < F.packets.length, i ≠ j → A i = true) (z : ℕ) :
    f.ordered (some (F.packets[j] ++ List.replicate z 0)) =
      F.packets.set j (F.packets[j] ++ List.replicate z 0) := by
  obtain ⟨hwithin, -, hspan⟩ := h.span_eq hfirst (fun _ _ _ => Nat.zero_le _) hlast
  rw [FrameState.ordered_some hwithin (i := j), h.known_eq hfirst (fun _ _ _ => Nat.zero_le _)
    hlast, List.drop_zero, mask_hole hA hothers, List.set_set]
  · have := SentFrame.packet_ne_nil _ (List.getElem_mem hj)
    simp [this]
  · rw [hspan]
    exact hj
  · rw [SentFrame.field_packet_append hj, hfirst, SentFrame.seqAt, SentFrame.seqAt,
      UInt16.add_assoc, ← UInt16.ofNat_add, Nat.zero_add]

/-- **A frame state that is ready was built from all packets**, when its first packet is the
frame's first one and the stored parity is the frame's own. -/
theorem builtFrom {rawExtra : Option Bytes} (hr : f.ready fec = some rawExtra)
    (hfec : rawExtra ≠ none → fec[toUInt32 f.captureMs]? = some F.parity) :
    F.BuiltFrom f rawExtra := by
  unfold FrameState.ready at hr
  split_ifs at hr with hc
  · obtain rfl := Option.some.inj hr
    have hall := h.all_of_complete hfirst hc
    have hlast := hall (F.packets.length - 1) (by have := F.length_pos; omega)
    refine .received (fun i hi => by rw [h.getElem?_seqAt hi, if_pos (hall i hi)]) ?_
    rw [FrameState.ordered_none (h.span_eq hfirst (fun _ _ _ => Nat.zero_le _) hlast).1,
      h.known_eq hfirst (fun _ _ _ => Nat.zero_le _) hlast, List.drop_zero, mask_all hall]
  · obtain ⟨raw, hraw, rfl⟩ := Option.map_eq_some_iff.1 hr
    obtain ⟨j, hj, hlast, hA, hothers, rfl⟩ :=
      (h.recover_spec hfirst (hfec (Option.some_ne_none raw))).1 hraw
    exact .rebuilt j hj _
      (fun i hi hij => by rw [h.getElem?_seqAt hi, if_pos (hothers i hi hij)])
      (h.ordered_rebuilt hfirst hlast hj hA hothers _)

end Collected

end Rtstream
