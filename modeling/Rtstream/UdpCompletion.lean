import Rtstream.UdpLink

/-!
# Frames that arrive

What has to arrive for a frame to be finished: all its fragments, or all but one and the parity
(`Enough`). While its datagrams come in promptly, in any order, repeatedly and among those of other
frames, that is all it takes.

`finished_iff_enough`: the frame is finished if and only if enough of it has arrived.
-/

namespace Rtstream

open RaggedXor Holes UdpServer

namespace UdpReceiver

variable {cfg : ServerConfig} {f : EncodedFrame}

/-! ## Enough -/

/-- All fragments have arrived, or all but one and the parity. -/
def Enough (cfg : ServerConfig) (f : EncodedFrame) (A : ℕ → Bool) (p : Bool) : Prop :=
  (∀ i < fragmentCount cfg f.data.length, A i = true) ∨
    (p = true ∧ ∃ j < fragmentCount cfg f.data.length,
      ∀ i < fragmentCount cfg f.data.length, i ≠ j → A i = true)

/-- A frame waits until enough of it has arrived. -/
theorem not_waits_iff {A : ℕ → Bool} {p : Bool} : ¬ Waits cfg f A p ↔ Enough cfg f A p := by
  constructor
  · intro hw
    by_cases hall : ∀ i < fragmentCount cfg f.data.length, A i = true
    · exact Or.inl hall
    · simp only [not_forall, Bool.not_eq_true] at hall
      obtain ⟨j, hj, hAj⟩ := hall
      have hother : ¬ (p = true → ∃ k < fragmentCount cfg f.data.length, k ≠ j ∧ A k = false) :=
        fun ho => hw ⟨j, hj, hAj, ho⟩
      simp only [not_forall, not_exists, not_and, Bool.not_eq_false] at hother
      obtain ⟨hp, hrest⟩ := hother
      exact Or.inr ⟨hp, j, hj, hrest⟩
  · intro he hw
    obtain ⟨i, hi, hAi, hother⟩ := hw
    rcases he with hall | ⟨hp, j, hj, hrest⟩
    · simp [hall i hi] at hAi
    · obtain ⟨k, hk, hki, hAk⟩ := hother hp
      -- Both missing fragments are the one that may be missing.
      have hij : i = j := by
        by_contra hij
        simp [hrest i hi hij] at hAi
      have hkj : k = j := by
        by_contra hkj
        simp [hrest k hk hkj] at hAk
      exact hki (hkj.trans hij.symm)

/-- A frame that is finished: its data is right, and exact if the parity had no part in it. -/
structure FinishedAs (cfg : ServerConfig) (f : EncodedFrame) (p : Bool) (a : UdpAssembled) :
    Prop where
  frameId : a.frameId = toUInt32 f.frameId
  keyframe : a.keyframe = f.keyframe
  data : DataOf cfg f a.annexb
  exact : p = false → a.annexb = f.data

section Finish

variable (h : Sendable cfg f)
include h

theorem finishes_of_enough {g : Group} {A : ℕ → Bool} {p : Bool} {t : Int}
    (hg : Collects cfg f g A p t) (he : Enough cfg f A p) (rx : UdpReceiver) (now : Int) :
    ∃ a, finishes (rx.tryFinalize g now).2 = [a] ∧ FinishedAs cfg f p a := by
  by_cases hall : ∀ i < fragmentCount cfg f.data.length, A i = true
  · obtain ⟨a, ha, hid, hkey, hdata⟩ := @tryFinalize_of_all cfg f h rx A p g t hg hall now
    exact ⟨a, ha, hid, hkey, hdata ▸ dataOf_self h, fun _ => hdata⟩
  · obtain ⟨hp, j, hj, hrest⟩ := he.resolve_left hall
    subst hp
    have hAj : A j = false := by
      by_contra hA
      refine hall fun i hi => ?_
      by_cases hij : i = j
      · simpa [hij] using hA
      · exact hrest i hi hij
    have hj' : j < (fragments cfg f.data).length := by simpa using hj
    obtain ⟨a, ha, hid, hkey, hdata⟩ := tryFinalize_of_hole h rx hg hj' hAj hrest now
    exact ⟨a, ha, hid, hkey, hdata ▸ dataOf_set_pad h hj', fun hp => by cases hp⟩

omit h in
theorem fragmentsIn_other {is : List UdpInput} {i : UdpInput}
    (hi : firstArrival (toUInt32 f.frameId) [i] = none) :
    fragmentsIn cfg f (is ++ [i]) = fragmentsIn cfg f is ∧
      arrives (fecDatagram cfg f) (is ++ [i]) = arrives (fecDatagram cfg f) is := by
  constructor
  · funext j
    rw [fragmentsIn, arrives_concat, arrives_other (f := f) ?_ hi, Bool.or_false, fragmentsIn]
    rw [dataDatagram, read_datagram, header_groupId]
  · rw [arrives_concat, arrives_other (f := f) ?_ hi, Bool.or_false]
    rw [fecDatagram, read_datagram, header_groupId]

omit h in
theorem FinishedAs.mono {p q : Bool} {a : UdpAssembled} (ha : FinishedAs cfg f p a)
    (hpq : q = false → p = false) : FinishedAs cfg f q a :=
  ⟨ha.frameId, ha.keyframe, ha.data, fun hq => ha.exact (hpq hq)⟩

variable {rx : UdpReceiver} (hk : rx.Keyed) (hfresh : rx.groups[toUInt32 f.frameId]? = none)
include hk hfresh

/-- **When enough has arrived, the frame was finished.** -/
theorem finished_of_enough {is : List UdpInput}
    (hown : OnlyFrom (toUInt32 f.frameId) (datagrams cfg f) is)
    (hprompt : Prompt (toUInt32 f.frameId) is)
    (he : Enough cfg f (fragmentsIn cfg f is) (arrives (fecDatagram cfg f) is)) :
    ∃ a ∈ finishes (Runs.trace step rx is),
      FinishedAs cfg f (arrives (fecDatagram cfg f) is) a := by
  induction is using List.reverseRecOn with
  | nil =>
    have hpos := fragmentCount_pos cfg f.data.length
    rcases he with hall | ⟨hp, -⟩
    · cases hall 0 hpos
    · cases hp
  | append_singleton is i ih =>
    have hown' : OnlyFrom (toUInt32 f.frameId) (datagrams cfg f) is :=
      fun buf now hm => hown buf now (List.mem_append_left _ hm)
    rw [Runs.trace_append, finishes_append]
    by_cases hbefore : Enough cfg f (fragmentsIn cfg f is) (arrives (fecDatagram cfg f) is)
    · obtain ⟨a, ha, hfin⟩ := ih hown' hprompt.of_concat hbefore
      refine ⟨a, List.mem_append_left _ ha, hfin.mono fun hp => ?_⟩
      rw [arrives_concat, Bool.or_eq_false_iff] at hp
      exact hp.1
    · -- The last input made it enough, so it is a datagram of the frame.
      have hw := not_not.1 (mt not_waits_iff.1 hbefore)
      obtain ⟨hentry, -⟩ := collecting h hk hfresh hown' hprompt.of_concat hw
      cases hi : firstArrival (toUInt32 f.frameId) [i] with
      | none =>
        obtain ⟨hA, hp⟩ := @fragmentsIn_other cfg f is i hi
        rw [hA, hp] at he
        exact absurd he hbefore
      | some t =>
        cases i with
        | pop now => cases hi
        | datagram buf now =>
          have hid : (UdpHeader.read buf).groupId = toUInt32 f.frameId := by
            by_contra hid
            simp [firstArrival, hid] at hi
          have hd := hown buf now (by simp) hid
          obtain ⟨g, hu, hcol⟩ := updated_own h hentry hd now
          rw [fragmentsIn_datagram, arrives_datagram] at he
          obtain ⟨a, ha, hfin⟩ := finishes_of_enough h hcol he
            { Runs.after step rx is with
              lastCaptureUs := extendLow32 (Runs.after step rx is).lastCaptureUs now
                (UdpHeader.read buf).captureUsLo } now
          refine ⟨a, List.mem_append_right _ ?_, ?_⟩
          · rw [Runs.trace_cons, Runs.trace_nil, List.append_nil, step_own hd hu, ha]
            exact List.mem_singleton_self a
          · rwa [arrives_datagram]

end Finish

/-- **What it takes to finish a frame.** A receiver that has no group for a frame is given
datagrams of it, in any order, repeatedly, among those of other frames, and all within 250 ms. It
finishes the frame if and only if all its fragments, or all but one and the parity, are among them;
and what it finishes then is the frame, with zeros behind it at most where the parity took part. -/
theorem finished_iff_enough (cfg : ServerConfig) (f : EncodedFrame) (h : Sendable cfg f)
    (history is : List UdpInput) :
    let rx := Runs.after step {} history
    let gid := toUInt32 f.frameId
    rx.groups[gid]? = none → OnlyFrom gid (datagrams cfg f) is → Prompt gid is →
      ((∃ a ∈ finishes (Runs.trace step rx is), a.frameId = gid) ↔
        Enough cfg f (fragmentsIn cfg f is) (arrives (fecDatagram cfg f) is)) ∧
      (Enough cfg f (fragmentsIn cfg f is) (arrives (fecDatagram cfg f) is) →
        ∃ a ∈ finishes (Runs.trace step rx is),
          FinishedAs cfg f (arrives (fecDatagram cfg f) is) a) := by
  intro rx gid hfresh hown hprompt
  have hkeyed : rx.Keyed := keyed_fresh.run history
  have hfinished := finished_of_enough h hkeyed hfresh hown hprompt
  refine ⟨⟨fun hfin => ?_, fun he => ?_⟩, hfinished⟩
  · rw [← not_waits_iff]
    intro hw
    obtain ⟨a, ha, hid⟩ := hfin
    exact (collecting h hkeyed hfresh hown hprompt hw).2 a ha hid
  · obtain ⟨a, ha, hfin⟩ := hfinished he
    exact ⟨a, ha, hfin.frameId⟩

/-- The first of two fragments is lost; the second and the parity arrive. -/
theorem finished_iff_enough_parity :
    ∃ a ∈ finishes (Runs.trace step {} [.datagram (dataDatagram ⟨26, 8⟩ abc 1) 1000,
      .datagram (fecDatagram ⟨26, 8⟩ abc) 1000]), FinishedAs ⟨26, 8⟩ abc true a := by
  have h : Sendable ⟨26, 8⟩ abc := ⟨by decide, by decide, by decide, by decide⟩
  refine (finished_iff_enough ⟨26, 8⟩ abc h [] [.datagram (dataDatagram ⟨26, 8⟩ abc 1) 1000,
    .datagram (fecDatagram ⟨26, 8⟩ abc) 1000] (by decide +kernel) ?_
    (prompt_pair _ _ _ _)).2 (Or.inr ⟨by decide +kernel, 0, by decide, by decide +kernel⟩)
  intro buf now hm _
  rcases List.mem_pair.1 hm with hm | hm
  · obtain ⟨rfl, -⟩ := UdpInput.datagram.inj hm
    decide
  · obtain ⟨rfl, -⟩ := UdpInput.datagram.inj hm
    decide

end UdpReceiver

end Rtstream
