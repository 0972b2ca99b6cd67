import Rtstream.RtpAssemblerSpec
import Rtstream.RtpServer

/-!
# Each timestamp is output once

A frame is finalised when its marker comes, when a packet with another timestamp comes, and as a
zombie. `output_once`: it is output at most once, as long as

* a packet with another timestamp never finds a frame in `cur_` that `finalize_frame` would emit
  (`SwitchQuiet`): a frame that has been emitted at its marker *is* such a frame, since
  `finalize_frame` leaves it in `cur_`;
* a frame that was finalised at its marker is not begun again, nor finalised at a second marker
  (`StillOpen`): two frames of one millisecond have one timestamp and two markers.

`output_twice`: without loss, each frame is output once more when the next one comes.

The invariant counts the timestamps of the frames that have been output and of those waiting as
zombies (`accounted`): none occurs twice, and the one being collected does not occur before its
marker.
-/

namespace Rtstream.Assembler

/-! ## Contiguous streams -/

/-- The packet is the first one of its timestamp, or the packet before has that timestamp. -/
def Continues (seen : List RtpPkt) (p : RtpPkt) : Prop :=
  (∀ q ∈ seen, q.ts ≠ p.ts) ∨ ∃ q ∈ seen.getLast?, q.ts = p.ts

instance (seen : List RtpPkt) (p : RtpPkt) : Decidable (Continues seen p) :=
  inferInstanceAs (Decidable (_ ∨ _))

/-- The packets of one timestamp follow each other. -/
def Contiguous (ps : List RtpPkt) : Prop :=
  ∀ (i : ℕ) (hi : i < ps.length), Continues (ps.take i) ps[i]

instance : DecidablePred Contiguous := fun ps =>
  inferInstanceAs (Decidable (∀ (i : ℕ) (hi : i < ps.length), Continues (ps.take i) ps[i]))

/-! ## What a packet may find -/

/-- A packet with another timestamp does not find a frame that would be emitted, unless it would
be empty. -/
def SwitchQuiet (m : Assembler) : AsmInput → Prop
  | .unit p _ => m.cur.started = true → p.ts ≠ m.cur.ts → ∀ e ∈ m.cur.ready m.fec,
      (Depacketizer.run (m.cur.ordered e)).annexb = []
  | .parity _ _ => True

instance (m : Assembler) : DecidablePred (SwitchQuiet m)
  | .unit p _ => inferInstanceAs (Decidable (_ → p.ts ≠ m.cur.ts → ∀ e ∈ m.cur.ready m.fec,
      (Depacketizer.run (m.cur.ordered e)).annexb = []))
  | .parity _ _ => inferInstanceAs (Decidable True)

/-- The frame of the packet was not finalised at a marker: it is no zombie, and the packet is not
its second marker. -/
def StillOpen (m : Assembler) : AsmInput → Prop
  | .unit p _ => (∀ z ∈ m.zombies, z.ts ≠ p.ts) ∧
      (p.marker = true → m.cur.started = true → p.ts = m.cur.ts → m.cur.markerSeen = false)
  | .parity _ _ => True

instance (m : Assembler) : DecidablePred (StillOpen m)
  | .unit p _ => inferInstanceAs (Decidable ((∀ z ∈ m.zombies, z.ts ≠ p.ts) ∧
      (p.marker = true → m.cur.started = true → p.ts = m.cur.ts → m.cur.markerSeen = false)))
  | .parity _ _ => inferInstanceAs (Decidable True)

/-- No frame is finalised once more. -/
def FinalisesOnce (m : Assembler) (i : AsmInput) : Prop := SwitchQuiet m i ∧ StillOpen m i

instance (m : Assembler) : DecidablePred (FinalisesOnce m) := fun i =>
  inferInstanceAs (Decidable (SwitchQuiet m i ∧ StillOpen m i))

/-- The timestamps of the frames that are output, in order. -/
def outTimestamps (es : List RtpEffect) : List UInt32 :=
  es.filterMap fun
    | .out src _ _ => some src.ts
    | _ => none

theorem outTimestamps_eq (es : List RtpEffect) :
    outTimestamps es = (outputs es).map fun o => o.1.ts := by
  induction es with
  | nil => rfl
  | cons e es ih =>
    cases e with
    | out src rawExtra f => exact congrArg (src.ts :: ·) ih
    | _ => exact ih

/-! ## Accounting for timestamps -/

/-- The timestamps of the frames that were output and of the zombies. -/
def accounted (m : Assembler) (es : List RtpEffect) : List UInt32 :=
  ((outputs es).map Prod.fst ++ m.zombies).map (·.ts)

theorem mem_accounted {m : Assembler} {es : List RtpEffect} {t : UInt32} :
    t ∈ accounted m es ↔ t ∈ outTimestamps es ∨ ∃ z ∈ m.zombies, z.ts = t := by
  rw [accounted, List.map_append, List.mem_append, List.map_map, outTimestamps_eq]
  exact or_congr_right List.mem_map

/-- No timestamp is accounted for twice. The one being collected is not, before its marker; and
when no frame is being collected, the last packet was of a frame that was not output. -/
structure Once (seen : List RtpPkt) (m : Assembler) (es : List RtpEffect) : Prop where
  nodup : (accounted m es).Nodup
  mem_seen : ∀ t ∈ accounted m es, t ∈ seen.map (·.ts)
  idle : m.cur.started = false → ∀ q, seen.getLast? = some q → q.ts ∉ outTimestamps es
  current : m.cur.started = true → (∃ q, seen.getLast? = some q ∧ q.ts = m.cur.ts) ∧
    (m.cur.markerSeen = false → m.cur.ts ∉ accounted m es)

namespace Once

variable {seen : List RtpPkt} {m : Assembler} {es : List RtpEffect}

theorem fresh : Once [] {} [] where
  nodup := List.nodup_nil
  mem_seen := fun t ht => by cases ht
  idle := fun _ q hq => by cases hq
  current := fun h => by cases h

/-- The timestamp of the next packet is not accounted for, unless the packet follows the marker of
the frame in `cur_`. -/
theorem not_mem_accounted (h : Once seen m es) {p : RtpPkt} (hp : Continues seen p) {now : Int}
    (hopen : StillOpen m (.unit p now))
    (hfirst : m.cur.started = true → p.ts = m.cur.ts → m.cur.markerSeen = false) :
    p.ts ∉ accounted m es := by
  rcases hp with hnew | ⟨q, hq, hts⟩
  · intro hmem
    obtain ⟨q, hq, heq⟩ := List.mem_map.1 (h.mem_seen _ hmem)
    exact hnew q hq heq
  · cases hst : m.cur.started with
    | false =>
      intro hmem
      rcases mem_accounted.1 hmem with hout | ⟨z, hz, heq⟩
      · exact h.idle hst q hq (hts ▸ hout)
      · exact hopen.1 z hz heq
    | true =>
      obtain ⟨⟨q', hq', hts'⟩, hfree⟩ := h.current hst
      obtain rfl := Option.some.inj (hq.symm.trans hq')
      rw [← hts, hts']
      exact hfree (hfirst hst (hts.symm.trans hts'))

/-- What is accounted for: what was, and the timestamp of the packet if it is marked. -/
theorem accounted_assemble_subperm (es : List RtpEffect) {p : RtpPkt} {now : Int}
    (hquiet : SwitchQuiet m (.unit p now)) :
    (accounted (m.assemble p now).1 (es ++ (m.assemble p now).2)).Subperm
      (accounted m es ++ if p.marker then [p.ts] else []) := by
  have hsub := subperm_map ((List.subperm_append_left ((outputs es).map Prod.fst)).2
    (outputs_assemble_subperm now hquiet)) (·.ts)
  rw [← List.append_assoc, ← List.append_assoc, ← List.map_append, ← outputs_append] at hsub
  apply hsub.trans
  rw [List.map_append]
  apply (List.subperm_append_left _).2
  split_ifs
  · rw [List.map_singleton, joined_ts]
  · exact List.Subperm.refl _

theorem unit (h : Once seen m es) {p : RtpPkt} (hp : Continues seen p) {now : Int}
    (hstep : FinalisesOnce m (.unit p now)) :
    Once (seen ++ [p]) (m.assemble p now).1 (es ++ (m.assemble p now).2) := by
  obtain ⟨hquiet, hopen⟩ := hstep
  have hsub := accounted_assemble_subperm es hquiet
  have hlast : (seen ++ [p]).getLast? = some p := List.getLast?_concat
  have hfree : p.marker = true → p.ts ∉ accounted m es := fun hmark =>
    h.not_mem_accounted hp hopen (hopen.2 hmark)
  refine ⟨nodup_of_subperm hsub ?_, ?_, ?_, fun hst => ⟨⟨p, hlast, ?_⟩, ?_⟩⟩
  · split_ifs with hmark
    · exact List.nodup_append.2 ⟨h.nodup, by simp, fun t ht u hu => by
        rw [List.mem_singleton.1 hu]
        exact fun heq => hfree hmark (heq ▸ ht)⟩
    · simpa using h.nodup
  · intro t ht
    rw [List.map_append]
    rcases List.mem_append.1 (hsub.subset ht) with ht | ht
    · exact List.mem_append_left _ (h.mem_seen t ht)
    · apply List.mem_append_right _
      split_ifs at ht
      · exact ht
      · cases ht
  · -- The frame was let go at its marker, so the turn has output only zombies.
    intro hst q hq hmem
    obtain rfl := Option.some.inj (hlast.symm.trans hq)
    have hmark : p.marker = true := by
      rcases m.assemble_cur p now with hcur | ⟨hmark, -⟩
      · rw [hcur, joined_started] at hst
        cases hst
      · exact hmark
    rw [outTimestamps_eq, outputs_append, List.map_append, List.mem_append, ← outTimestamps_eq]
      at hmem
    rcases hmem with hmem | hmem
    · exact hfree hmark (mem_accounted.2 (.inl hmem))
    · obtain ⟨⟨src, rawExtra⟩, hout, hts⟩ := List.mem_map.1 hmem
      rcases mem_outputs_assemble hout with ⟨rfl, -, hne, -⟩ | ⟨-, -, hcur, -⟩ | ⟨hz, -⟩
      · exact hne hts.symm
      · rw [hcur, joined_started] at hst
        cases hst
      · exact hopen.1 src hz hts
  · rw [assemble_cur_of_started hst, joined_ts]
  · intro hseen hmem
    have hcur := assemble_cur_of_started hst
    rw [hcur, joined_markerSeen, Bool.or_eq_false_iff, Bool.and_eq_false_iff] at hseen
    obtain ⟨hseen, hmark⟩ := hseen
    rw [hcur, joined_ts] at hmem
    have hold := hsub.subset hmem
    rw [hmark, if_neg Bool.false_ne_true, List.append_nil] at hold
    refine h.not_mem_accounted hp hopen (fun hst hts => hseen.resolve_left ?_) hold
    simp [switches, hst, hts]

theorem parity (h : Once seen m es) (key : UInt32) (bytes : Bytes) :
    Once seen (m.storeParity key bytes) es := by
  obtain ⟨fec', hm, -⟩ := m.storeParity_spec key bytes
  rw [hm]
  exact ⟨h.nodup, h.mem_seen, h.idle, h.current⟩

theorem run {is : List AsmInput} (h : Once seen m es)
    (hcontig : ∀ (i : ℕ) (hi : i < (units is).length),
      Continues (seen ++ (units is).take i) (units is)[i])
    (honce : Runs.Along Assembler.step FinalisesOnce m is) :
    Once (seen ++ units is) (Runs.after Assembler.step m is)
      (es ++ Runs.trace Assembler.step m is) := by
  induction is generalizing seen m es with
  | nil => simpa using h
  | cons i is ih =>
    obtain ⟨hi, his⟩ := honce
    cases i with
    | unit p now =>
      have hp : Continues seen p := by simpa using hcontig 0 (by simp)
      have := ih (h.unit hp hi) (fun j hj => ?_) his
      · rwa [List.append_assoc, List.append_assoc] at this
      · rw [List.append_assoc]
        exact hcontig (j + 1) (by simpa using hj)
    | parity key bytes => exact ih (h.parity key bytes) hcontig his

end Once

/-- **Each timestamp is output at most once.** The packets of a timestamp follow each other; any of
them may be missing, the markers may be anywhere, and any parities are stored. Whenever a packet of
another timestamp comes, the frame in `cur_` is not one that `finalize_frame` would emit, unless
nothing can be made of its packets; and a packet does not come for a frame that waits as a zombie,
nor a marker for one that has had its marker. -/
theorem output_once (is : List AsmInput) (hcontig : Contiguous (units is))
    (honce : Runs.Along Assembler.step FinalisesOnce {} is) :
    (outTimestamps (Runs.trace Assembler.step {} is)).Nodup := by
  have h := (Once.fresh.run hcontig honce).nodup
  rw [accounted, List.map_append, List.nil_append] at h
  rw [outTimestamps_eq]
  simpa [Function.comp_def] using (List.nodup_append.1 h).1

/-- The middle one of three packets is missing, and is recovered when the next frame comes. -/
theorem output_once_recovered :
    (outTimestamps (Runs.trace Assembler.step {}
      [.unit ⟨5, 3600, false, 40, RtpServer.rtpHeader false 5 3600 0 ++ [0x65, 1]⟩ 0,
        .unit ⟨7, 3600, true, 40, RtpServer.rtpHeader true 7 3600 0 ++ [0x41, 3]⟩ 1,
        .parity 40 (RtpServer.parity [RtpServer.rtpHeader false 5 3600 0 ++ [0x65, 1],
          RtpServer.rtpHeader false 6 3600 0 ++ [0x41, 2],
          RtpServer.rtpHeader true 7 3600 0 ++ [0x41, 3]]),
        .unit ⟨8, 7200, false, 80, RtpServer.rtpHeader false 8 7200 0 ++ [0x41, 4]⟩ 2])).Nodup :=
  output_once _ (by decide +kernel) (by decide +kernel)

/-- Two complete frames of one packet each: the first one is output again when the second one
comes. -/
theorem output_twice :
    let is := [.unit ⟨5, 3600, true, 40, RtpServer.rtpHeader true 5 3600 0 ++ [0x65, 1]⟩ 0,
      .unit ⟨6, 7200, true, 80, RtpServer.rtpHeader true 6 7200 0 ++ [0x41, 2]⟩ 1]
    ((units is).map (·.seq)).Pairwise (· < ·) ∧ Contiguous (units is) ∧
      outTimestamps (Runs.trace Assembler.step {} is) = [3600, 3600, 7200] := by
  exact ⟨by decide +kernel, by decide +kernel, by decide +kernel⟩

/-- Two frames of one millisecond: each of their markers has the timestamp output. -/
example :
    let is := [.unit ⟨5, 3600, true, 40, RtpServer.rtpHeader true 5 3600 0 ++ [0x65, 1]⟩ 0,
      .unit ⟨6, 3600, true, 40, RtpServer.rtpHeader true 6 3600 0 ++ [0x41, 2]⟩ 1]
    Runs.Along Assembler.step SwitchQuiet {} is ∧
      outTimestamps (Runs.trace Assembler.step {} is) = [3600, 3600] := by
  decide +kernel

end Rtstream.Assembler
