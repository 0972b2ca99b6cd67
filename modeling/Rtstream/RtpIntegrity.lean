import Rtstream.RtpSentFrame

/-!
# Frames that are output are whole

The assembler knows the first and the last packet it has seen of a frame, not those that were
sent, and tells frames apart by their timestamps. `output_whole`: what it outputs was built from all
packets of a frame, as long as

* what joins `cur_` is of the frame whose packets are there (`Unmixed`): two frames of one
  millisecond have one timestamp;
* the frames it emits start with the frame's first packet and are recovered with the frame's own
  parity (`Led`).

`output_truncated`: a frame whose first packet was lost is output without it.

The invariant is `Tracked`: each frame state has packets of one frame that was sent.
-/

namespace Rtstream.Assembler

variable {frames : List SentFrame} {m : Assembler}

/-- A packet that joins `cur_` is of the frame that has the packets there. -/
def Unmixed (frames : List SentFrame) (m : Assembler) : AsmInput → Prop
  | .unit p _ => m.switches p = false → ∀ F ∈ frames, F.Owns m.cur → p.raw ∈ F.packets
  | .parity _ _ => True

instance (frames : List SentFrame) (m : Assembler) : DecidablePred (Unmixed frames m)
  | .unit p _ => inferInstanceAs (Decidable (m.switches p = false →
      ∀ F ∈ frames, F.Owns m.cur → p.raw ∈ F.packets))
  | .parity _ _ => inferInstanceAs (Decidable True)

/-- The frame states that are finalised when the packet arrives. -/
def finalised (m : Assembler) (p : RtpPkt) (now : Int) : List FrameState :=
  (if m.switches p then [m.cur] else []) ++ (if p.marker then [m.joined p now] else []) ++
    m.zombies

/-- What is emitted starts with the first packet of its frame, and is recovered with the parity
of its frame. -/
def Led (frames : List SentFrame) (m : Assembler) : AsmInput → Prop
  | .unit p now => ∀ f ∈ m.finalised p now, ∀ e ∈ f.ready m.fec, ∀ F ∈ frames, F.Owns f →
      f.firstSeq = F.server.seq ∧
        (e ≠ none → m.fec[toUInt32 f.captureMs]? = some F.parity)
  | .parity _ _ => True

instance (frames : List SentFrame) (m : Assembler) : DecidablePred (Led frames m)
  | .unit p now => inferInstanceAs (Decidable (∀ f ∈ m.finalised p now, ∀ e ∈ f.ready m.fec,
      ∀ F ∈ frames, F.Owns f → f.firstSeq = F.server.seq ∧
        (e ≠ none → m.fec[toUInt32 f.captureMs]? = some F.parity)))
  | .parity _ _ => inferInstanceAs (Decidable True)

/-- Every frame state has packets of one frame that was sent. -/
structure Tracked (frames : List SentFrame) (m : Assembler) : Prop where
  zombies : ∀ z ∈ m.zombies, ∃ F ∈ frames, ∃ A, Collected F A z
  cur : m.cur.started = true → ∃ F ∈ frames, ∃ A, Collected F A m.cur

namespace Tracked

theorem fresh (frames : List SentFrame) : Tracked frames {} where
  zombies := fun z hz => by cases hz
  cur := fun h => by cases h

theorem joined (h : Tracked frames m) {p : RtpPkt} (hsent : ∃ F ∈ frames, ∃ i, F.Carries i p)
    {now : Int} (hunmixed : Unmixed frames m (.unit p now)) :
    ∃ F ∈ frames, ∃ A, Collected F A (m.joined p now) := by
  obtain ⟨G, hG, i, hp⟩ := hsent
  unfold Assembler.joined
  cases hsw : m.switches p with
  | true =>
    rw [if_pos rfl]
    exact ⟨G, hG, _, Collected.openFrame hp now⟩
  | false =>
    obtain ⟨F, hF, A, hcur⟩ := h.cur (started_of_not_switches hsw)
    obtain ⟨j, hp'⟩ := SentFrame.carries_of_mem hp (hunmixed hsw F hF hcur.owns)
    rw [if_neg Bool.false_ne_true]
    exact ⟨F, hF, _, hcur.addPacket hp'⟩

theorem unit (h : Tracked frames m) {p : RtpPkt} (hsent : ∃ F ∈ frames, ∃ i, F.Carries i p)
    {now : Int} (hunmixed : Unmixed frames m (.unit p now)) (hled : Led frames m (.unit p now)) :
    Tracked frames (m.assemble p now).1 ∧
      ∀ src rawExtra, (src, rawExtra) ∈ outputs (m.assemble p now).2 →
        ∃ F ∈ frames, F.BuiltFrom src rawExtra := by
  obtain ⟨F, hF, A, hjoined⟩ := h.joined hsent hunmixed
  refine ⟨⟨fun z hz => ?_, fun hst => ?_⟩, ?_⟩
  · rcases mem_zombies_assemble hz with hz | ⟨-, rfl, -⟩
    · exact h.zombies z hz
    · exact ⟨F, hF, A, hjoined⟩
  · rw [assemble_cur_of_started hst]
    exact ⟨F, hF, A, hjoined⟩
  · intro src rawExtra hout
    -- Whatever is output is of some frame, and was finalised.
    have hbuilt : ∀ {G A}, G ∈ frames → Collected G A src → src ∈ m.finalised p now →
        src.ready m.fec = some rawExtra → ∃ F ∈ frames, F.BuiltFrom src rawExtra := by
      intro G A hG hcol hmem hr
      obtain ⟨hfirst, hfec⟩ := hled src hmem rawExtra hr G hG hcol.owns
      rw [← G.seqAt_zero] at hfirst
      exact ⟨G, hG, hcol.builtFrom hfirst hr hfec⟩
    rcases mem_outputs_assemble hout with ⟨rfl, hst, hts, hr⟩ | ⟨rfl, hmark, -, hr⟩ | ⟨hz, hr⟩
    · obtain ⟨G, hG, B, hcol⟩ := h.cur hst
      refine hbuilt hG hcol ?_ hr
      have hsw : m.switches p = true := by simp [switches, hts]
      simp [finalised, hsw]
    · exact hbuilt hF hjoined (by simp [finalised, hmark]) hr
    · obtain ⟨G, hG, B, hcol⟩ := h.zombies src hz
      exact hbuilt hG hcol (List.mem_append_right _ hz) hr

theorem parity (h : Tracked frames m) (key : UInt32) (bytes : Bytes) :
    Tracked frames (m.storeParity key bytes) := by
  obtain ⟨fec', hm, -⟩ := m.storeParity_spec key bytes
  rw [hm]
  exact ⟨h.zombies, h.cur⟩

theorem run {is : List AsmInput} (h : Tracked frames m)
    (hsent : ∀ p ∈ units is, ∃ F ∈ frames, ∃ i, F.Carries i p)
    (hunmixed : Runs.Along Assembler.step (Unmixed frames) m is)
    (hled : Runs.Along Assembler.step (Led frames) m is) :
    ∀ src rawExtra, (src, rawExtra) ∈ outputs (Runs.trace Assembler.step m is) →
      ∃ F ∈ frames, F.BuiltFrom src rawExtra := by
  induction is generalizing m with
  | nil => simp
  | cons i is ih =>
    obtain ⟨hui, huis⟩ := hunmixed
    obtain ⟨hi, his⟩ := hled
    cases i with
    | unit p now =>
      rw [units_unit] at hsent
      obtain ⟨htracked, hout⟩ := h.unit (hsent p List.mem_cons_self) hui hi
      intro src rawExtra hmem
      rw [Runs.trace_cons, outputs_append] at hmem
      rcases List.mem_append.1 hmem with hmem | hmem
      · exact hout src rawExtra hmem
      · exact ih htracked (fun q hq => hsent q (List.mem_cons_of_mem p hq)) huis his src rawExtra
          hmem
    | parity key bytes => exact ih (h.parity key bytes) hsent huis his

end Tracked

/-- **What is output is whole.** The packets are any packets of the frames sent, in any order and
number. What joins `cur_` is of the frame whose packets are there, so that every frame state has
packets of one frame; and whatever is emitted starts with its frame's first packet, and is
recovered with its frame's parity. -/
theorem output_whole (frames : List SentFrame) (is : List AsmInput)
    (hsent : ∀ p ∈ units is, ∃ F ∈ frames, ∃ i, F.Carries i p)
    (hunmixed : Runs.Along Assembler.step (Unmixed frames) {} is)
    (hled : Runs.Along Assembler.step (Led frames) {} is) (src : FrameState)
    (rawExtra : Option Bytes) (f : EncodedFrame)
    (hout : .out src rawExtra f ∈ Runs.trace Assembler.step {} is) :
    (∃ F ∈ frames, F.BuiltFrom src rawExtra) ∧
      f.data = (Depacketizer.run (src.ordered rawExtra)).annexb :=
  ⟨(Tracked.fresh frames).run hsent hunmixed hled src rawExtra (mem_outputs.2 ⟨f, hout⟩),
    madeOf_trace {} is _ hout src rawExtra f rfl⟩

/-- Two packets, numbered 5 and 6. -/
def sentIdr : SentFrame where
  server := RtpServer.smallServer 5
  frame := RtpServer.idrFrame
  packets := [RtpServer.rtpHeader false 5 3600 0 ++ [0x65, 1],
    RtpServer.rtpHeader true 6 3600 0 ++ [0x41, 2]]
  made := by decide +kernel
  ne_nil := by decide
  noWrap := by decide
  short := by decide

/-- Both packets arrive. -/
theorem output_whole_idr :
    ∃ src rawExtra f, .out src rawExtra f ∈ Runs.trace Assembler.step {}
        [.unit ⟨5, 3600, false, 40, RtpServer.rtpHeader false 5 3600 0 ++ [0x65, 1]⟩ 0,
          .unit ⟨6, 3600, true, 40, RtpServer.rtpHeader true 6 3600 0 ++ [0x41, 2]⟩ 1] ∧
      (∃ F ∈ [sentIdr], F.BuiltFrom src rawExtra) ∧
      f.data = (Depacketizer.run (src.ordered rawExtra)).annexb := by
  have hcarries : ∀ p ∈ units
      [.unit ⟨5, 3600, false, 40, RtpServer.rtpHeader false 5 3600 0 ++ [0x65, 1]⟩ 0,
        .unit ⟨6, 3600, true, 40, RtpServer.rtpHeader true 6 3600 0 ++ [0x41, 2]⟩ 1],
      ∃ i, sentIdr.Carries i p := by
    intro p hp
    simp only [units_unit, units_nil, List.mem_cons, List.not_mem_nil, or_false] at hp
    rcases hp with rfl | rfl
    · exact ⟨0, by decide, by decide +kernel⟩
    · exact ⟨1, by decide, by decide +kernel⟩
  obtain ⟨o, ho⟩ := List.exists_mem_of_ne_nil _ (List.ne_nil_of_length_pos (l := outputs
    (Runs.trace Assembler.step {}
      [.unit ⟨5, 3600, false, 40, RtpServer.rtpHeader false 5 3600 0 ++ [0x65, 1]⟩ 0,
        .unit ⟨6, 3600, true, 40, RtpServer.rtpHeader true 6 3600 0 ++ [0x41, 2]⟩ 1]))
    (by decide +kernel))
  obtain ⟨f, hf⟩ := mem_outputs.1 ho
  exact ⟨o.1, o.2, f, hf, output_whole [sentIdr] _
    (fun p hp => ⟨sentIdr, List.mem_singleton_self _, hcarries p hp⟩) (by decide +kernel)
    (by decide +kernel) o.1 o.2 f hf⟩

/-- The first packet is lost, and the frame is output without it. -/
theorem output_truncated :
    ∃ src rawExtra f, .out src rawExtra f ∈ Runs.trace Assembler.step {}
        [.unit ⟨6, 3600, true, 40, RtpServer.rtpHeader true 6 3600 0 ++ [0x41, 2]⟩ 0] ∧
      sentIdr.Carries 1 ⟨6, 3600, true, 40, RtpServer.rtpHeader true 6 3600 0 ++ [0x41, 2]⟩ ∧
      ¬ ∃ F ∈ [sentIdr], F.BuiltFrom src rawExtra := by
  have hout : ∀ o ∈ outputs (Runs.trace Assembler.step {}
      [.unit ⟨6, 3600, true, 40, RtpServer.rtpHeader true 6 3600 0 ++ [0x41, 2]⟩ 0]),
      o.2 = none ∧ o.1.raws[sentIdr.seqAt 0]? = none := by decide +kernel
  obtain ⟨⟨src, rawExtra⟩, ho⟩ := List.exists_mem_of_ne_nil _ (List.ne_nil_of_length_pos
    (l := outputs (Runs.trace Assembler.step {}
      [.unit ⟨6, 3600, true, 40, RtpServer.rtpHeader true 6 3600 0 ++ [0x41, 2]⟩ 0]))
    (by decide +kernel))
  obtain ⟨f, hf⟩ := mem_outputs.1 ho
  obtain ⟨hnone, hmissing⟩ := hout _ ho
  refine ⟨src, rawExtra, f, hf, ⟨by decide, by decide +kernel⟩, ?_⟩
  intro h
  obtain ⟨F, hF, hbuilt⟩ := h
  obtain rfl := List.mem_singleton.1 hF
  cases hbuilt with
  | received hall hordered =>
    rw [hall 0 (by decide)] at hmissing
    cases hmissing
  | rebuilt j hj z hothers hordered => cases hnone

end Rtstream.Assembler
