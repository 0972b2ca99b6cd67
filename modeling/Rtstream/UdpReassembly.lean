import Rtstream.Lib.Holes
import Rtstream.UdpFragments
import Mathlib.Data.List.Induction

/-!
# Fragments and frames

What the UDP server cuts, the receiver puts together: while the datagrams of a frame arrive, in
any order, repeatedly, and among the datagrams of other frames, the entry of its group holds
exactly the fragments that have arrived (`collecting`). So the frame is finished by the last
datagram that is needed, and not before.

* `reassembled`: that is the last data fragment, and the frame comes out as it went in.
* `recovered_exact_iff`: with the parity in the place of one fragment, the frame comes out as it
  went in unless the lost fragment is a shorter last one, which comes back with zeros behind it.
-/

namespace Rtstream.UdpReceiver

open Std (TreeMap)
open RaggedXor Holes UdpServer

variable {cfg : ServerConfig} {f : EncodedFrame}

/-! ## What a group has collected -/

/-- The group of frame `f` when the fragments `A` have arrived, and the parity if `p`, the first
datagram of them at time `t`. -/
structure Collects (cfg : ServerConfig) (f : EncodedFrame) (g : Group) (A : ℕ → Bool) (p : Bool)
    (t : Int) : Prop where
  cnt : g.fragmentCnt.toNat = fragmentCount cfg f.data.length
  frameId : g.frameId = toUInt32 f.frameId
  keyframe : g.keyframe = f.keyframe
  since : g.firstRecvUs = t
  frags : g.frags = mask (fragments cfg f.data) A
  fecSeen : g.fecSeen = p
  parity : p = true → g.parity = fecGenerate (fragments cfg f.data)

/-- Too little has arrived: a fragment is missing, and with the parity there another one. -/
def Waits (cfg : ServerConfig) (f : EncodedFrame) (A : ℕ → Bool) (p : Bool) : Prop :=
  ∃ i < fragmentCount cfg f.data.length, A i = false ∧
    (p = true → ∃ j < fragmentCount cfg f.data.length, j ≠ i ∧ A j = false)

namespace Collects

variable (h : Sendable cfg f) {g : Group} {A : ℕ → Bool} {p : Bool} {t : Int}
include h

theorem openGroup {kind : PayloadType} {seq : UInt16} {len : ℕ} (capture now : Int) :
    Collects cfg f
      (openGroup {} (header f (fragmentCount cfg f.data.length) kind seq len) capture now)
      (fun _ => false) false now := by
  have hK := h.fragmentCount_le
  have hcnt : (dataCount (UInt16.ofNat (fragmentCount cfg f.data.length + 1))).toNat =
      fragmentCount cfg f.data.length := by
    rw [toNat_dataCount, if_neg (by omega)]
    omega
  refine ⟨hcnt, rfl, ?_, rfl, ?_, rfl, fun hp => by cases hp⟩
  · simp [UdpReceiver.openGroup]
  · simp only [UdpReceiver.openGroup, header_fragmentCnt, hcnt]
    rw [mask_none fun _ _ => rfl, length_fragments]

omit h in
theorem frags_ne_nil (hg : Collects cfg f g A p t) : g.frags.isEmpty = false := by
  rw [hg.frags, List.isEmpty_eq_false_iff, ← List.length_pos_iff, length_mask, length_fragments]
  exact fragmentCount_pos _ _

theorem fill (hg : Collects cfg f g A p t) {i : ℕ} (hi : i < (fragments cfg f.data).length) :
    Collects cfg f (fillFragment g (UInt16.ofNat i) (fragments cfg f.data)[i])
      (fun j => A j || j == i) p t := by
  have hseq : (UInt16.ofNat i).toNat = i := by
    have := h.fragmentCount_le
    rw [length_fragments] at hi
    simp
    omega
  have hi' : i < (mask (fragments cfg f.data) A).length := by simpa using hi
  have hslot : g.frags.getD i [] = (mask (fragments cfg f.data) A)[i] := by
    rw [hg.frags, List.getD_eq_getElem _ _ hi']
  unfold fillFragment
  rw [hseq, hslot]
  split
  · refine ⟨hg.cnt, hg.frameId, hg.keyframe, hg.since, ?_, hg.fecSeen, hg.parity⟩
    show g.frags.set i _ = _
    rw [hg.frags, set_mask hi]
  · next hfull =>
    -- The slot is filled already, so the fragment has arrived before.
    have hA : A i = true := by
      by_contra hA
      rw [(getElem_mask_eq_nil_iff h.fragments_ne_nil hi').2 (by simpa using hA)] at hfull
      exact hfull rfl
    refine ⟨hg.cnt, hg.frameId, hg.keyframe, hg.since, ?_, hg.fecSeen, hg.parity⟩
    rw [hg.frags]
    apply mask_congr
    intro j _
    by_cases hj : j = i
    · simp [hj, hA]
    · simp [hj]

omit h in
theorem setParity (hg : Collects cfg f g A p t) :
    Collects cfg f (setParity g (fecGenerate (fragments cfg f.data))) A true t :=
  ⟨hg.cnt, hg.frameId, hg.keyframe, hg.since, hg.frags, rfl, fun _ => rfl⟩

theorem complete_iff (hg : Collects cfg f g A p t) :
    complete g = true ↔ ∀ i < fragmentCount cfg f.data.length, A i = true := by
  rw [complete, hg.frags, mask_complete_iff h.fragments_ne_nil, length_fragments]

theorem parity_ne_nil : fecGenerate (fragments cfg f.data) ≠ [] := by
  have h0 : 0 < (fragments cfg f.data).length := by
    rw [length_fragments]
    exact fragmentCount_pos _ _
  have hpos := List.length_pos_of_ne_nil (h.fragments_ne_nil _ (List.getElem_mem h0))
  have hle := length_le_maxLen (List.getElem_mem h0)
  rw [Ne, ← List.length_eq_zero_iff, length_fecGenerate]
  omega

/-- What waits cannot be recovered. -/
theorem recoverGroup_of_waits (hg : Collects cfg f g A p t) (hw : Waits cfg f A p) :
    recoverGroup g = none := by
  obtain ⟨i, hi, hAi, hother⟩ := hw
  simp only [recoverGroup, hg.fecSeen]
  split_ifs with hp hrec
  · exfalso
    have hcount : (g.frags ++ [g.parity]).countP (·.isEmpty) ≠ 1 := by
      have hpar : g.parity.isEmpty = false := by
        rw [hg.parity hp]
        simpa using parity_ne_nil h
      intro hone
      rw [List.countP_append, List.countP_singleton, hpar, if_neg Bool.false_ne_true,
        hg.frags] at hone
      obtain ⟨j, hj, -, hrest⟩ := exists_hole h.fragments_ne_nil hone
      obtain ⟨k, hk, hki, hAk⟩ := hother hp
      rw [length_fragments] at hj hrest
      -- Two fragments are missing, and only one of them is the hole.
      by_cases hij : i = j
      · have := hrest k hk (hij ▸ hki)
        simp [hAk] at this
      · have := hrest i hi hij
        simp [hAi] at this
    rw [fecRecover_of_count_ne_one _ hcount] at hrec
    cases hrec
  · rfl
  · rfl

/-- With one fragment missing and the parity there, the group is recovered. -/
theorem recoverGroup_of_hole (hg : Collects cfg f g A true t) {j : ℕ}
    (hj : j < (fragments cfg f.data).length) (hAj : A j = false)
    (hrest : ∀ i < fragmentCount cfg f.data.length, i ≠ j → A i = true) :
    recoverGroup g = some { g with
      frags := (fragments cfg f.data).set j
        (pad (maxLen (fragments cfg f.data)) (fragments cfg f.data)[j]) } := by
  have hfrags : g.frags = (fragments cfg f.data).set j [] := by
    rw [hg.frags, mask_hole hAj (by simpa using hrest)]
  have hmax : max (maxLen g.frags) g.parity.length = maxLen (fragments cfg f.data) := by
    rw [hg.parity rfl, length_fecGenerate]
    refine max_eq_right (maxLen_le fun d hd => ?_)
    rw [hfrags] at hd
    rcases List.mem_or_eq_of_mem_set hd with hd | rfl
    · exact length_le_maxLen hd
    · simp
  have hrec := fecRecover_set_nil h.fragments_ne_nil hj le_rfl
  simp only [recoverGroup, hg.fecSeen, if_true, hmax]
  rw [hfrags, hg.parity rfl, hrec]
  simp [hg.cnt]

end Collects

/-! ## One datagram of the frame -/

/-- What has arrived once datagram `d` has, too. -/
def withFragment (cfg : ServerConfig) (f : EncodedFrame) (A : ℕ → Bool) (d : Bytes) : ℕ → Bool :=
  fun i => A i || dataDatagram cfg f i == d

/-- The receiver's entry for the frame: none before the first datagram, at time `t?`, and then
a group that holds what has arrived. -/
def Entry (cfg : ServerConfig) (f : EncodedFrame) (rx : UdpReceiver) (A : ℕ → Bool) (p : Bool) :
    Option Int → Prop
  | none => rx.groups[toUInt32 f.frameId]? = none ∧
      (∀ i < fragmentCount cfg f.data.length, A i = false) ∧ p = false
  | some t => ∃ g, rx.groups[toUInt32 f.frameId]? = some g ∧ Collects cfg f g A p t

section OwnDatagram

variable (h : Sendable cfg f) {rx : UdpReceiver} {A : ℕ → Bool} {p : Bool}

theorem Collects.congr {g : Group} {B : ℕ → Bool} {t : Int} (hg : Collects cfg f g A p t)
    (hAB : ∀ i < fragmentCount cfg f.data.length, A i = B i) : Collects cfg f g B p t :=
  ⟨hg.cnt, hg.frameId, hg.keyframe, hg.since,
    hg.frags.trans (mask_congr (by simpa using hAB)), hg.fecSeen, hg.parity⟩

include h

theorem Entry.groupOf {t? : Option Int} (he : Entry cfg f rx A p t?) (kind : PayloadType)
    (seq : UInt16) (len : ℕ) (capture now : Int) :
    Collects cfg f
      (rx.groupOf (header f (fragmentCount cfg f.data.length) kind seq len) capture now)
      A p (t?.getD now) := by
  unfold UdpReceiver.groupOf
  rw [header_groupId]
  cases t? with
  | none =>
    obtain ⟨hnone, hA, rfl⟩ := he
    rw [hnone]
    exact (Collects.openGroup h capture now).congr fun i hi => (hA i hi).symm
  | some t =>
    obtain ⟨g, hg, hcol⟩ := he
    simp only [hg, Option.getD_some, hcol.frags_ne_nil, Bool.false_eq_true, if_false]
    exact hcol

theorem updated_own {t? : Option Int} (he : Entry cfg f rx A p t?) {d : Bytes}
    (hd : d ∈ datagrams cfg f) (now : Int) :
    ∃ g, rx.updated (UdpHeader.read d) (d.drop UdpHeader.kSize) now = some g ∧
      Collects cfg f g (withFragment cfg f A d) (p || fecDatagram cfg f == d) (t?.getD now) := by
  have hK := h.fragmentCount_le
  rcases mem_datagrams.1 hd with ⟨i, hi, rfl⟩ | rfl
  · have hi' : i < (fragments cfg f.data).length := by simpa using hi
    have hseq : (UInt16.ofNat i).toNat = i := by
      rw [UInt16.toNat_ofNat']
      omega
    have hne : UInt16.ofNat i ≠ UdpHeader.kFecSeq := fun heq => by
      have := congrArg UInt16.toNat heq
      rw [hseq, show UdpHeader.kFecSeq.toNat = 65535 from rfl] at this
      omega
    have hfec : (p || fecDatagram cfg f == dataDatagram cfg f i) = p := by
      rw [beq_eq_false_iff_ne.2 (h.dataDatagram_ne_fec hi).symm, Bool.or_false]
    have hcol := fun capture => he.groupOf h .data (UInt16.ofNat i)
      (fragments cfg f.data)[i].length capture now
    rw [hfec, dataDatagram_eq hi', read_datagram, drop_datagram]
    refine ⟨_, updated_of_data _ _ now hne ?_, ((hcol _).fill h hi').congr fun j hj => ?_⟩
    · rw [UInt16.lt_iff_toNat_lt, (hcol _).cnt, header_fragmentSeq, hseq]
      exact hi
    rw [withFragment, ← dataDatagram_eq hi', Bool.eq_iff_iff]
    simp only [Bool.or_eq_true, beq_iff_eq]
    exact or_congr_right ⟨fun e => e ▸ rfl, fun e => h.dataDatagram_inj hj hi e⟩
  · have hcol := fun capture => he.groupOf h .fec UdpHeader.kFecSeq
      (fecGenerate (fragments cfg f.data)).length capture now
    rw [beq_self_eq_true, Bool.or_true, fecDatagram, read_datagram, drop_datagram]
    refine ⟨_, updated_of_fec _ _ now rfl, ((hcol _).setParity).congr fun j hj => ?_⟩
    have := beq_eq_false_iff_ne.2 (h.dataDatagram_ne_fec hj)
    rw [withFragment, ← fecDatagram, this, Bool.or_false]

omit h in
theorem step_own {d : Bytes} (hd : d ∈ datagrams cfg f) {now : Int} {g : Group}
    (hu : rx.updated (UdpHeader.read d) (d.drop UdpHeader.kSize) now = some g) :
    step rx (.datagram d now) =
      ({ rx with
          lastCaptureUs := extendLow32 rx.lastCaptureUs now (UdpHeader.read d).captureUsLo } :
        UdpReceiver).tryFinalize g now := by
  show rx.recv d now = _
  rw [recv_of_media rx (isMedia_of_mem_datagrams hd), onMedia_of_updated _ _ _ hu]

theorem tryFinalize_of_waits {g : Group} {t : Int} (hg : Collects cfg f g A p t)
    (hw : Waits cfg f A p) {now : Int} (ht : now - t ≤ 250 * 1000) :
    Entry cfg f (rx.tryFinalize g now).1 A p (some t) ∧
      finishes (rx.tryFinalize g now).2 = [] := by
  have hc : complete g = false := by
    obtain ⟨i, hi, hAi, -⟩ := hw
    rw [Bool.eq_false_iff]
    intro hc
    have := (hg.complete_iff h).1 hc i hi
    simp [hAi] at this
  rw [tryFinalize_of_missing rx now hc (hg.recoverGroup_of_waits h hw)]
  refine ⟨?_, finishes_requestMissing rx g now⟩
  rw [requestMissing_of_recent rx (hg.since.symm ▸ ht : now - g.firstRecvUs ≤ _)]
  refine ⟨{ g with lastNackUs := nackedAt g now }, ?_,
    ⟨hg.cnt, hg.frameId, hg.keyframe, hg.since, hg.frags, hg.fecSeen, hg.parity⟩⟩
  rw [hg.frameId]
  exact TreeMap.getElem?_insert_self

theorem tryFinalize_of_all {g : Group} {t : Int} (hg : Collects cfg f g A p t)
    (hA : ∀ i < fragmentCount cfg f.data.length, A i = true) (now : Int) :
    ∃ a, finishes (rx.tryFinalize g now).2 = [a] ∧ a.frameId = toUInt32 f.frameId ∧
      a.keyframe = f.keyframe ∧ a.annexb = f.data := by
  refine ⟨assembled g, ?_, hg.frameId, hg.keyframe, ?_⟩
  · rw [tryFinalize_of_complete rx now ((hg.complete_iff h).2 hA), finishes_finish_step]
  · show g.frags.flatten = f.data
    rw [hg.frags, mask_all (by simpa using hA), h.flatten_fragments]

variable (rx) in
/-- A group with one fragment missing and the parity there is finished, with that fragment
filled with zeros up to the longest length. -/
theorem tryFinalize_of_hole {g : Group} {t : Int} (hg : Collects cfg f g A true t) {j : ℕ}
    (hj : j < (fragments cfg f.data).length) (hAj : A j = false)
    (hrest : ∀ i < fragmentCount cfg f.data.length, i ≠ j → A i = true) (now : Int) :
    ∃ a, finishes (rx.tryFinalize g now).2 = [a] ∧ a.frameId = toUInt32 f.frameId ∧
      a.keyframe = f.keyframe ∧
      a.annexb = ((fragments cfg f.data).set j
        (pad (maxLen (fragments cfg f.data)) (fragments cfg f.data)[j])).flatten := by
  have hc : complete g = false := by
    rw [Bool.eq_false_iff]
    intro hc
    have := (hg.complete_iff h).1 hc j (by simpa using hj)
    simp [hAj] at this
  refine ⟨assembled { g with
    frags := (fragments cfg f.data).set j
      (pad (maxLen (fragments cfg f.data)) (fragments cfg f.data)[j]) },
    ?_, hg.frameId, hg.keyframe, rfl⟩
  rw [tryFinalize_of_recovered rx now hc (hg.recoverGroup_of_hole h hj hAj hrest),
    finishes_fecRecovered, finishes_finish_step]

theorem step_of_waits {t? : Option Int} (he : Entry cfg f rx A p t?) {d : Bytes}
    (hd : d ∈ datagrams cfg f) {now : Int}
    (hw : Waits cfg f (withFragment cfg f A d) (p || fecDatagram cfg f == d))
    (hlate : now - t?.getD now ≤ 250 * 1000) :
    Entry cfg f (step rx (.datagram d now)).1 (withFragment cfg f A d)
        (p || fecDatagram cfg f == d) (some (t?.getD now)) ∧
      finishes (step rx (.datagram d now)).2 = [] := by
  obtain ⟨g, hu, hcol⟩ := updated_own h he hd now
  rw [step_own hd hu]
  exact tryFinalize_of_waits h hcol hw hlate

end OwnDatagram

/-! ## Runs -/

/-- Datagram `d` is among the inputs. -/
def arrives (d : Bytes) (is : List UdpInput) : Bool :=
  is.any fun
    | .datagram buf _ => d == buf
    | .pop _ => false

/-- When the first datagram of group `gid` arrives. -/
def firstArrival (gid : UInt32) (is : List UdpInput) : Option Int :=
  is.findSome? fun
    | .datagram buf now => if (UdpHeader.read buf).groupId = gid then some now else none
    | .pop _ => none

/-- All datagrams of group `gid` arrive within 250 ms of the first one. -/
def Prompt (gid : UInt32) (is : List UdpInput) : Prop :=
  ∀ buf now t, .datagram buf now ∈ is → (UdpHeader.read buf).groupId = gid →
    firstArrival gid is = some t → now - t ≤ 250 * 1000

/-- Of group `gid` there are only datagrams from the list `ds`. -/
def OnlyFrom (gid : UInt32) (ds : List Bytes) (is : List UdpInput) : Prop :=
  ∀ buf now, .datagram buf now ∈ is → (UdpHeader.read buf).groupId = gid → buf ∈ ds

theorem onlyFrom_singleton {gid : UInt32} {ds : List Bytes} {d : Bytes} {now : Int} (h : d ∈ ds) :
    OnlyFrom gid ds [.datagram d now] := by
  intro buf t hm _
  obtain ⟨rfl, -⟩ := UdpInput.datagram.inj (List.mem_singleton.1 hm)
  exact h

theorem prompt_pair (gid : UInt32) (d e : Bytes) (now : Int) :
    Prompt gid ([.datagram d now] ++ [.datagram e now]) := by
  intro buf t first hm _ hfirst
  have hnow : ∀ b u, UdpInput.datagram b u ∈ [.datagram d now] ++ [.datagram e now] →
      u = now := by
    intro b u hu
    rcases List.mem_pair.1 hu with heq | heq <;> exact (UdpInput.datagram.inj heq).2
  obtain ⟨i, hi, hfound⟩ := List.exists_of_findSome?_eq_some hfirst
  cases i with
  | datagram b u =>
    obtain ⟨-, hu⟩ := Option.ite_none_right_eq_some.1 hfound
    rw [hnow buf t hm, ← Option.some.inj hu, hnow b u hi]
    omega
  | pop u => cases hfound

/-- The fragments of the frame that are among the inputs. -/
def fragmentsIn (cfg : ServerConfig) (f : EncodedFrame) (is : List UdpInput) : ℕ → Bool :=
  fun i => arrives (dataDatagram cfg f i) is

theorem arrives_concat (d : Bytes) (is : List UdpInput) (i : UdpInput) :
    arrives d (is ++ [i]) = (arrives d is || arrives d [i]) := List.any_append

theorem firstArrival_concat (gid : UInt32) (is : List UdpInput) (i : UdpInput) :
    firstArrival gid (is ++ [i]) = (firstArrival gid is).or (firstArrival gid [i]) :=
  List.findSome?_append

/-- Arrivals only add up, so what waits has waited all along. -/
theorem Waits.of_concat {is : List UdpInput} {i : UdpInput}
    (hw : Waits cfg f (fragmentsIn cfg f (is ++ [i])) (arrives (fecDatagram cfg f) (is ++ [i]))) :
    Waits cfg f (fragmentsIn cfg f is) (arrives (fecDatagram cfg f) is) := by
  obtain ⟨j, hj, hAj, hother⟩ := hw
  simp only [fragmentsIn, arrives_concat, Bool.or_eq_false_iff] at hAj
  refine ⟨j, hj, hAj.1, ?_⟩
  intro hp
  obtain ⟨k, hk, hkj, hAk⟩ := hother (by rw [arrives_concat, hp, Bool.true_or])
  simp only [fragmentsIn, arrives_concat, Bool.or_eq_false_iff] at hAk
  exact ⟨k, hk, hkj, hAk.1⟩

theorem arrives_other {d : Bytes} (hd : (UdpHeader.read d).groupId = toUInt32 f.frameId)
    {i : UdpInput} (hi : firstArrival (toUInt32 f.frameId) [i] = none) : arrives d [i] = false := by
  cases i with
  | pop now => rfl
  | datagram buf now =>
    have hne : d ≠ buf := by
      rintro rfl
      simp [firstArrival, hd] at hi
    simp [arrives, hne]

theorem Prompt.of_concat {gid : UInt32} {is : List UdpInput} {i : UdpInput}
    (h : Prompt gid (is ++ [i])) : Prompt gid is := by
  intro buf now t hm hid ht
  exact h buf now t (by simp [hm]) hid (by rw [firstArrival_concat, ht, Option.some_or])

theorem arrives_datagram (d : Bytes) (is : List UdpInput) (buf : Bytes) (now : Int) :
    arrives d (is ++ [.datagram buf now]) = (arrives d is || d == buf) := by
  rw [arrives_concat]
  simp [arrives]

theorem fragmentsIn_datagram (cfg : ServerConfig) (f : EncodedFrame) (is : List UdpInput)
    (buf : Bytes) (now : Int) :
    fragmentsIn cfg f (is ++ [.datagram buf now]) =
      withFragment cfg f (fragmentsIn cfg f is) buf := by
  funext j
  exact arrives_datagram _ is buf now

theorem OnlyFrom.arrives_eq_false {gid : UInt32} {ds : List Bytes} {is : List UdpInput}
    (h : OnlyFrom gid ds is) {d : Bytes} (hid : (UdpHeader.read d).groupId = gid)
    (hd : d ∉ ds) : arrives d is = false := by
  rw [Bool.eq_false_iff]
  intro hin
  obtain ⟨u, hu, heq⟩ := List.any_eq_true.1 hin
  cases u with
  | pop now => cases heq
  | datagram buf now =>
    obtain rfl : d = buf := eq_of_beq heq
    exact hd (h d now hu hid)

theorem Entry.other {rx : UdpReceiver} (hk : rx.Keyed) {is : List UdpInput} {t? : Option Int}
    (he : Entry cfg f rx (fragmentsIn cfg f is) (arrives (fecDatagram cfg f) is) t?)
    {i : UdpInput} (hi : firstArrival (toUInt32 f.frameId) [i] = none) :
    Entry cfg f (step rx i).1 (fragmentsIn cfg f (is ++ [i]))
        (arrives (fecDatagram cfg f) (is ++ [i])) t? ∧
      ∀ a ∈ finishes (step rx i).2, a.frameId ≠ toUInt32 f.frameId := by
  have hmedia : ¬ MediaOf (toUInt32 f.frameId) i := by
    cases i with
    | pop now => exact id
    | datagram buf now =>
      intro h
      obtain ⟨-, hid⟩ := h
      simp [firstArrival, hid] at hi
  obtain ⟨hgr, hfin⟩ := step_other hk hmedia
  have hA : fragmentsIn cfg f (is ++ [i]) = fragmentsIn cfg f is := by
    funext j
    rw [fragmentsIn, arrives_concat, arrives_other (f := f) ?_ hi, Bool.or_false]
    · rfl
    · rw [dataDatagram, read_datagram, header_groupId]
  have hp := arrives_other (f := f) (d := fecDatagram cfg f)
    (by rw [fecDatagram, read_datagram, header_groupId]) hi
  refine ⟨?_, hfin⟩
  rw [hA, arrives_concat, hp, Bool.or_false]
  unfold Entry at he ⊢
  rwa [hgr]

theorem Entry.own (h : Sendable cfg f) {rx : UdpReceiver} {is : List UdpInput} {t? : Option Int}
    (he : Entry cfg f rx (fragmentsIn cfg f is) (arrives (fecDatagram cfg f) is) t?)
    {buf : Bytes} {now : Int} (hd : buf ∈ datagrams cfg f)
    (hw : Waits cfg f (fragmentsIn cfg f (is ++ [.datagram buf now]))
      (arrives (fecDatagram cfg f) (is ++ [.datagram buf now])))
    (hlate : now - t?.getD now ≤ 250 * 1000) :
    Entry cfg f (step rx (.datagram buf now)).1 (fragmentsIn cfg f (is ++ [.datagram buf now]))
        (arrives (fecDatagram cfg f) (is ++ [.datagram buf now])) (some (t?.getD now)) ∧
      finishes (step rx (.datagram buf now)).2 = [] := by
  rw [fragmentsIn_datagram, arrives_datagram] at hw ⊢
  exact step_of_waits h he hd hw hlate

/-- **The invariant of a run.** As long as too little has arrived, the entry of the frame's
group holds what has arrived, and nothing was finished for it. -/
theorem collecting (h : Sendable cfg f) {rx : UdpReceiver} (hk : rx.Keyed)
    (hfresh : rx.groups[toUInt32 f.frameId]? = none) {is : List UdpInput}
    (hown : OnlyFrom (toUInt32 f.frameId) (datagrams cfg f) is)
    (hprompt : Prompt (toUInt32 f.frameId) is)
    (hw : Waits cfg f (fragmentsIn cfg f is) (arrives (fecDatagram cfg f) is)) :
    Entry cfg f (Runs.after step rx is) (fragmentsIn cfg f is) (arrives (fecDatagram cfg f) is)
        (firstArrival (toUInt32 f.frameId) is) ∧
      ∀ a ∈ finishes (Runs.trace step rx is), a.frameId ≠ toUInt32 f.frameId := by
  induction is using List.reverseRecOn with
  | nil => exact ⟨⟨hfresh, fun _ _ => rfl, rfl⟩, by simp⟩
  | append_singleton is i ih =>
    obtain ⟨he, hfin⟩ := ih (fun buf now hm => hown buf now (by simp [hm])) hprompt.of_concat
      hw.of_concat
    simp only [Runs.after_append, Runs.trace_append, Runs.after_cons, Runs.after_nil,
      Runs.trace_cons, Runs.trace_nil, List.append_nil, finishes_append, firstArrival_concat]
    cases hi : firstArrival (toUInt32 f.frameId) [i] with
    | none =>
      obtain ⟨he', hfin'⟩ := he.other (hk.run is) hi
      rw [Option.or_none]
      exact ⟨he', List.forall_mem_append.2 ⟨hfin, hfin'⟩⟩
    | some t =>
      -- A datagram of the frame arrives, and too little is there even so.
      cases i with
      | pop now => cases hi
      | datagram buf now =>
        have hid : (UdpHeader.read buf).groupId = toUInt32 f.frameId := by
          by_contra hid
          simp [firstArrival, hid] at hi
        have hnow : now = t := by simpa [firstArrival, hid] using hi
        have hfirst : (firstArrival (toUInt32 f.frameId) is).or (some t) =
            some ((firstArrival (toUInt32 f.frameId) is).getD now) := by
          rw [hnow]
          cases firstArrival (toUInt32 f.frameId) is <;> rfl
        obtain ⟨he', hnone⟩ := he.own h (hown buf now (by simp) hid) hw
          (hprompt buf now _ (by simp) hid (by rw [firstArrival_concat, hi, hfirst]))
        rw [hfirst, hnone, List.append_nil]
        exact ⟨he', hfin⟩

/-! ## The last datagram -/

/-- After a wait, the next datagram makes the receiver try to finish a group that has collected
everything up to it. -/
theorem last_arrival (h : Sendable cfg f) {rx : UdpReceiver} (hk : rx.Keyed)
    (hfresh : rx.groups[toUInt32 f.frameId]? = none) {is : List UdpInput} {last : Bytes}
    {now : Int} (hown : OnlyFrom (toUInt32 f.frameId) (datagrams cfg f) is)
    (hprompt : Prompt (toUInt32 f.frameId) (is ++ [.datagram last now]))
    (hlast : last ∈ datagrams cfg f)
    (hw : Waits cfg f (fragmentsIn cfg f is) (arrives (fecDatagram cfg f) is)) :
    (∀ a ∈ finishes (Runs.trace step rx is), a.frameId ≠ toUInt32 f.frameId) ∧
      ∃ g rx' t, Collects cfg f g (withFragment cfg f (fragmentsIn cfg f is) last)
          (arrives (fecDatagram cfg f) is || fecDatagram cfg f == last) t ∧
        step (Runs.after step rx is) (.datagram last now) = tryFinalize rx' g now := by
  obtain ⟨he, hfin⟩ := collecting h hk hfresh hown hprompt.of_concat hw
  obtain ⟨g, hu, hcol⟩ := updated_own h he hlast now
  exact ⟨hfin, g, _, _, hcol, step_own hlast hu⟩

theorem mem_eraseIdx_datagrams (h : Sendable cfg f) {i : ℕ}
    (hi : i < fragmentCount cfg f.data.length) {d : Bytes} :
    d ∈ (datagrams cfg f).eraseIdx i ↔ d ∈ datagrams cfg f ∧ d ≠ dataDatagram cfg f i := by
  have hget : ∀ {j : ℕ} (hj : j < (datagrams cfg f).length), (datagrams cfg f)[j] =
      if j < fragmentCount cfg f.data.length then dataDatagram cfg f j else fecDatagram cfg f :=
    fun {j} hj => by
      simp only [datagrams, List.getElem_append, List.length_map, List.length_range,
        List.getElem_map, List.getElem_range, List.getElem_singleton]
      split_ifs <;> rfl
  rw [List.mem_eraseIdx_iff_getElem]
  constructor
  · intro h
    obtain ⟨j, hj, hne, rfl⟩ := h
    refine ⟨List.getElem_mem hj, ?_⟩
    rw [hget hj]
    split_ifs with hjK
    · exact fun e => hne (h.dataDatagram_inj hjK hi e)
    · exact (h.dataDatagram_ne_fec hi).symm
  · intro h
    obtain ⟨hd, hne⟩ := h
    obtain ⟨j, hj, rfl⟩ := List.getElem_of_mem hd
    refine ⟨j, hj, ?_, rfl⟩
    rintro rfl
    rw [hget hj, if_pos hi] at hne
    exact hne rfl

section OneLost

variable (h : Sendable cfg f) {i : ℕ} (hi : i < fragmentCount cfg f.data.length)
  {is : List UdpInput} {last : Bytes}
  (harrived : ∀ d ∈ (datagrams cfg f).eraseIdx i, arrives d is = true ↔ d ≠ last)
include h hi

theorem fragmentsIn_lost
    (hown : OnlyFrom (toUInt32 f.frameId) ((datagrams cfg f).eraseIdx i) is) :
    fragmentsIn cfg f is i = false :=
  hown.arrives_eq_false (groupId_of_mem_datagrams (mem_datagrams.2 (.inl ⟨i, hi, rfl⟩)))
    fun hin => ((mem_eraseIdx_datagrams h hi).1 hin).2 rfl

include harrived

theorem fragmentsIn_iff {j : ℕ} (hj : j < fragmentCount cfg f.data.length) (hji : j ≠ i) :
    fragmentsIn cfg f is j = true ↔ dataDatagram cfg f j ≠ last := by
  refine harrived _ ((mem_eraseIdx_datagrams h hi).2 ⟨mem_datagrams.2 (.inl ⟨j, hj, rfl⟩), ?_⟩)
  exact fun e => hji (h.dataDatagram_inj hj hi e)

theorem arrives_fec_iff :
    arrives (fecDatagram cfg f) is = true ↔ fecDatagram cfg f ≠ last :=
  harrived _ ((mem_eraseIdx_datagrams h hi).2
    ⟨mem_datagrams.2 (.inr rfl), (h.dataDatagram_ne_fec hi).symm⟩)

/-- Before the last datagram two fragments, or one and the parity, are not there. -/
theorem waits_of_lost
    (hown : OnlyFrom (toUInt32 f.frameId) ((datagrams cfg f).eraseIdx i) is)
    (hlast : last ∈ (datagrams cfg f).eraseIdx i) :
    Waits cfg f (fragmentsIn cfg f is) (arrives (fecDatagram cfg f) is) := by
  obtain ⟨hmem, hne⟩ := (mem_eraseIdx_datagrams h hi).1 hlast
  refine ⟨i, hi, fragmentsIn_lost h hi hown, ?_⟩
  intro hp
  rcases mem_datagrams.1 hmem with ⟨k, hk, rfl⟩ | rfl
  · have hki : k ≠ i := fun e => hne (e ▸ rfl)
    have hk' := mt (fragmentsIn_iff h hi harrived hk hki).1 (not_not.2 rfl)
    exact ⟨k, hk, hki, Bool.eq_false_iff.2 hk'⟩
  · exact absurd rfl ((arrives_fec_iff h hi harrived).1 hp)

end OneLost

/-- **When recovery is exact.** The datagrams of a frame but the one of fragment `i` arrive, the
parity among them. The frame is finished by the last of them, and its data is what went in if
and only if the lost fragment is not a shorter last one. -/
theorem recovered_exact_iff (srv : UdpServer) (f : EncodedFrame)
    (hmtu : 25 ≤ srv.cfg.udpMtu.toNat) (hdata : f.data ≠ []) (hsize : f.data.length < 2 ^ 63)
    (hcount : (f.data.length + (srv.cfg.udpMtu.toNat - 24) - 1) / (srv.cfg.udpMtu.toNat - 24) ≤
      65534)
    (i : ℕ) (hi : i < (f.data.length + (srv.cfg.udpMtu.toNat - 24) - 1) /
      (srv.cfg.udpMtu.toNat - 24)) :
    ∃ srv' out, srv.sendFrame f = some (srv', out) ∧
      ∀ (history is : List UdpInput) (last : Bytes) (now : Int),
        let rx := Runs.after step {} history
        let gid := toUInt32 f.frameId
        rx.groups[gid]? = none → OnlyFrom gid (out.eraseIdx i) is →
        Prompt gid (is ++ [.datagram last now]) → last ∈ out.eraseIdx i →
        (∀ d ∈ out.eraseIdx i, arrives d is = true ↔ d ≠ last) →
        (∀ a ∈ finishes (Runs.trace step rx is), a.frameId ≠ gid) ∧
          ∃ a, finishes (step (Runs.after step rx is) (.datagram last now)).2 = [a] ∧
            a.frameId = gid ∧
            (a.annexb = f.data ↔
              i + 1 < (f.data.length + (srv.cfg.udpMtu.toNat - 24) - 1) /
                  (srv.cfg.udpMtu.toNat - 24) ∨
                (f.data.length + (srv.cfg.udpMtu.toNat - 24) - 1) /
                  (srv.cfg.udpMtu.toNat - 24) = 1 ∨
                (srv.cfg.udpMtu.toNat - 24) ∣ f.data.length) := by
  have h : Sendable srv.cfg f := ⟨hmtu, hdata, hsize, hcount⟩
  rw [← h.fragmentCount_eq] at hi ⊢
  obtain ⟨srv', hsend, -⟩ := exists_sendFrame h.payloadSize_ne_zero f
  refine ⟨srv', _, hsend, fun history is last now => ?_⟩
  intro rx gid hfresh hown hprompt hlast harrived
  obtain ⟨hmem, hne⟩ := (mem_eraseIdx_datagrams h hi).1 hlast
  have hi' : i < (fragments srv.cfg f.data).length := by simpa using hi
  have hlost := fragmentsIn_lost h hi hown
  have hfec := arrives_fec_iff h hi harrived
  have hwait := waits_of_lost h hi harrived hown hlast
  obtain ⟨hfin, g, rx', t, hcol, hstep⟩ := last_arrival h (keyed_fresh.run history) hfresh
    (fun buf now hm hid => ((mem_eraseIdx_datagrams h hi).1 (hown buf now hm hid)).1) hprompt hmem
    hwait
  refine ⟨hfin, ?_⟩
  have hpar : (arrives (fecDatagram srv.cfg f) is || fecDatagram srv.cfg f == last) = true := by
    rw [Bool.or_eq_true, hfec, beq_iff_eq]
    exact ne_or_eq _ _
  rw [hpar] at hcol
  obtain ⟨a, ha, hid, -, hdata⟩ := tryFinalize_of_hole h rx' hcol hi'
    (by
      rw [withFragment, hlost, Bool.false_or, beq_eq_false_iff_ne]
      exact hne.symm)
    (fun j hj hji => by
      rw [withFragment, Bool.or_eq_true, beq_iff_eq, fragmentsIn_iff h hi harrived hj hji]
      exact ne_or_eq _ _)
    now
  rw [hstep]
  refine ⟨a, ha, hid, ?_⟩
  rw [hdata, h.flatten_set_pad_iff hi']

/-- The first of two fragments is lost, and comes back. -/
theorem recovered_exact_first :
    ∃ a, finishes (step (Runs.after step {} [.datagram (fecDatagram ⟨26, 8⟩ abc) 1000])
        (.datagram (dataDatagram ⟨26, 8⟩ abc 1) 1000)).2 = [a] ∧ a.annexb = [1, 2, 3] := by
  obtain ⟨srv', out, hsend, h⟩ := recovered_exact_iff (.start ⟨26, 8⟩) abc (by decide) (by decide)
    (by decide) (by decide) 0 (by decide)
  obtain ⟨rfl, -⟩ := sendFrame_eq_some hsend
  obtain ⟨-, a, ha, -, hdata⟩ := h [] [.datagram (fecDatagram ⟨26, 8⟩ abc) 1000]
    (dataDatagram ⟨26, 8⟩ abc 1) 1000 (by decide +kernel)
    (onlyFrom_singleton (by decide +kernel)) (prompt_pair _ _ _ _) (by decide +kernel)
    (by decide +kernel)
  exact ⟨a, ha, hdata.2 (by decide)⟩

/-- The second of two fragments is lost, one byte long, and comes back with a zero behind it. -/
theorem recovered_with_zero :
    ∃ srv' out, (UdpServer.start ⟨26, 8⟩).sendFrame abc = some (srv', out) ∧ out.length = 3 ∧
      (finishes (Runs.trace step {} ((out.eraseIdx 1).map (.datagram · 1000)))).map (·.annexb) =
        [abc.data ++ [0]] := by
  obtain ⟨srv', hsend, -⟩ := exists_sendFrame (s := .start ⟨26, 8⟩) (by decide) abc
  exact ⟨srv', _, hsend, by decide, by decide +kernel⟩

end Rtstream.UdpReceiver
