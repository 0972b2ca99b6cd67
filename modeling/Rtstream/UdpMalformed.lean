import Rtstream.JitterBufferIdle
import Rtstream.UdpGiveUp

/-!
# Malformed datagrams

`on_media` extends the time base and looks up the group, making an entry if there is none, before it
looks at anything else in the header; it never looks at the payload type. So a datagram that is no
media packet of a frame still leaves its mark: it moves the time base, opens an entry, fills a
fragment, or finishes a frame of no fragments, of which all are there.

* `inert_iff`: the media packets that leave groups, jitter buffer and time base as they were.
* `malformed_inert_iff`: the same of malformed datagrams, in every reachable state. And in a run
  whose malformed datagrams all leave no mark, the jitter buffer never holds a frame without bytes.
-/

namespace Rtstream

open Std (TreeMap)

namespace UdpReceiver

/-! ## What should leave no mark -/

/-- A datagram that `on_media` gets, but that is not a media packet of a frame with a data
fragment. -/
def Malformed (buf : Bytes) : Prop :=
  let h := UdpHeader.read buf
  IsMedia buf ∧
    ((h.payloadType ≠ PayloadType.data.code ∧ h.payloadType ≠ PayloadType.fec.code) ∨
      h.fragmentCnt.toNat < 2 ∨
      (h.fragmentSeq ≠ UdpHeader.kFecSeq ∧ ¬ h.fragmentSeq.toNat < h.fragmentCnt.toNat - 1))

instance : DecidablePred Malformed := fun _ => inferInstanceAs (Decidable (_ ∧ _))

/-- A step leaves the groups, the jitter buffer and the time base as they were. -/
structure Inert (rx : UdpReceiver) (i : UdpInput) : Prop where
  groups : ∀ k : UInt32, (step rx i).1.groups[k]? = rx.groups[k]?
  jb : (step rx i).1.jb = rx.jb
  lastCaptureUs : (step rx i).1.lastCaptureUs = rx.lastCaptureUs

/-- The group has what a packet brings. -/
def Has (g : Group) (h : UdpHeader) (payload : Bytes) : Prop :=
  if h.fragmentSeq = UdpHeader.kFecSeq then g.fecSeen = true ∧ g.parity = payload
  else h.fragmentSeq < g.fragmentCnt ∧ (payload = [] ∨ g.frags.getD h.fragmentSeq.toNat [] ≠ [])

/-- A packet makes a frame on its own: of no fragments, or of one. -/
def MakesFrame (h : UdpHeader) (payload : Bytes) : Prop :=
  (h.fragmentSeq = UdpHeader.kFecSeq ∧ dataCount h.fragmentCnt = 0) ∨
    ((h.fragmentSeq = UdpHeader.kFecSeq ∨ h.fragmentSeq = 0) ∧ dataCount h.fragmentCnt = 1 ∧
      payload ≠ [])

/-- The ways in which a packet passes by its group and the jitter buffer. -/
inductive PassesBy (rx : UdpReceiver) (h : UdpHeader) (payload : Bytes) (now : Int) : Prop
  /-- The group has its fragments, and this is not one of them. -/
  | outOfRange (g : Group) (entry : rx.groups[h.groupId]? = some g) (frags : g.frags ≠ [])
      (seq : ¬ (h.fragmentSeq = UdpHeader.kFecSeq ∨ h.fragmentSeq < g.fragmentCnt))
  /-- The group has what the packet brings, is not old, and was asked for just now. -/
  | repeats (g : Group) (entry : rx.groups[h.groupId]? = some g) (frags : g.frags ≠ [])
      (has : Has g h payload) (asked : now - g.lastNackUs < 10 * 1000)
      (recent : now - g.firstRecvUs ≤ 250 * 1000)
  /-- The group has no fragments, and is opened again with what it was opened with. -/
  | reopens (g : Group) (entry : rx.groups[h.groupId]? = some g) (frags : g.frags = [])
      (seq : h.fragmentSeq ≠ UdpHeader.kFecSeq) (count : dataCount h.fragmentCnt = 0)
      (firstRecvUs : g.firstRecvUs = now) (captureUs : g.captureUs = rx.lastCaptureUs)
      (keyframe : g.keyframe = h.keyframe)
  /-- The packet makes a frame on its own, and the jitter buffer ignores it. -/
  | ignored (entry : rx.groups[h.groupId]? = none) (frame : MakesFrame h payload)
      (push : rx.jb.Ignores h.groupId rx.lastCaptureUs now)

/-- A packet carries the low bits of the time base, and passes by. -/
structure Unnoticed (rx : UdpReceiver) (h : UdpHeader) (payload : Bytes) (now : Int) : Prop where
  low : (h.captureUsLo.toNat : Int) = rx.lastCaptureUs % 2 ^ 32
  clock : rx.lastCaptureUs = 0 → -2 ^ 31 < now ∧ now ≤ 2 ^ 31
  passes : PassesBy rx h payload now

/-! ## What an entry looks like -/

/-- A group that is not finished: one that has fragments lacks one and cannot be recovered, one that
has none has no parity either. -/
structure Pending (g : Group) : Prop where
  length_frags : g.frags.length = g.fragmentCnt.toNat
  bare : g.frags = [] → g.fecSeen = false
  stuck : g.frags ≠ [] → complete g = false ∧ recoverGroup g = none

/-- The group that `try_finalize` finishes. -/
def finalized (g : Group) : Option Group := if complete g then some g else recoverGroup g

/-- The receiver between two steps. -/
structure Steady (rx : UdpReceiver) : Prop where
  keyed : rx.Keyed
  pending : ∀ (k : UInt32) (g : Group), rx.groups[k]? = some g → Pending g
  throttled : ∃ t, rx.jb.Throttled (10 * 1000) t
  size_le : rx.jb.buf.size ≤ rx.jb.maxUnits

variable {rx : UdpReceiver} {h : UdpHeader} {payload : Bytes} {now : Int}

theorem finalized_eq_none_iff {g : Group} :
    finalized g = none ↔ complete g = false ∧ recoverGroup g = none := by
  cases hc : complete g <;> simp [finalized, hc]

theorem finalized_eq {g g' : Group} (hf : finalized g = some g') :
    g' = { g with frags := g'.frags } := by
  rw [finalized] at hf
  split_ifs at hf
  · rw [← Option.some.inj hf]
  · exact recoverGroup_eq hf

theorem tryFinalize_of_finalized {g g' : Group} (hf : finalized g = some g') :
    (rx.tryFinalize g now).1 = (rx.finish g' now).1 := by
  rw [finalized] at hf
  cases hc : complete g with
  | true =>
    rw [hc, if_pos rfl] at hf
    rw [tryFinalize_of_complete rx now hc, Option.some.inj hf]
  | false =>
    rw [hc, if_neg Bool.false_ne_true] at hf
    rw [tryFinalize_of_recovered rx now hc hf]

/-! ## Which groups are finished -/

theorem complete_iff {g : Group} : complete g = true ↔ missingCount g = 0 := by
  simp [complete, missingCount, List.countP_eq_zero]

theorem recoverGroup_isSome_iff {g : Group} :
    (recoverGroup g).isSome = true ↔
      g.fecSeen = true ∧ missingCount g + (if g.parity = [] then 1 else 0) = 1 := by
  have hfst := fecRecover_fst (g.frags ++ [g.parity])
    (max (RaggedXor.maxLen g.frags) g.parity.length)
  rw [List.countP_append, List.countP_singleton] at hfst
  simp only [List.isEmpty_iff] at hfst
  rw [missingCount, ← hfst, recoverGroup]
  split_ifs <;> simp_all

/-- **A group is finished** when it lacks nothing, or just one fragment and has a parity. -/
theorem finalized_isSome_iff {g : Group} :
    (finalized g).isSome = true ↔ missingCount g = 0 ∨
      (g.fecSeen = true ∧ missingCount g + (if g.parity = [] then 1 else 0) = 1) := by
  rw [← complete_iff, ← recoverGroup_isSome_iff, finalized]
  split_ifs with hc <;> simp [hc]

theorem groupOf_of_none (hnone : rx.groups[h.groupId]? = none) (capture now : Int) :
    rx.groupOf h capture now = openGroup {} h capture now := by
  rw [groupOf, hnone]
  rfl

section Alone

variable (h payload) (capture : Int)

theorem finalized_parity_alone :
    (finalized (setParity (openGroup {} h capture now) payload)).isSome = true ↔
      (dataCount h.fragmentCnt).toNat = 0 ∨
        ((dataCount h.fragmentCnt).toNat = 1 ∧ payload ≠ []) := by
  have hmissing : missingCount (setParity (openGroup {} h capture now) payload) =
      (dataCount h.fragmentCnt).toNat := by
    simp [missingCount, setParity, openGroup, List.countP_replicate]
  rw [finalized_isSome_iff, hmissing]
  by_cases hpayload : payload = []
  · simp [setParity, hpayload]
  · simp [setParity, hpayload]

theorem finalized_fragment_alone (hlt : h.fragmentSeq.toNat < (dataCount h.fragmentCnt).toNat) :
    (finalized (fillFragment (openGroup {} h capture now) h.fragmentSeq payload)).isSome = true ↔
      (dataCount h.fragmentCnt).toNat = 1 ∧ payload ≠ [] := by
  have hempty :
      ((openGroup {} h capture now).frags.getD h.fragmentSeq.toNat []).isEmpty = true := by
    simp [openGroup, List.getD_eq_getElem?_getD, hlt]
  have hmissing : missingCount (fillFragment (openGroup {} h capture now) h.fragmentSeq payload) =
      (dataCount h.fragmentCnt).toNat - 1 + if payload = [] then 1 else 0 := by
    rw [fillFragment, if_pos hempty, missingCount]
    simp only [openGroup]
    rw [List.countP_set (by simpa using hlt)]
    simp [List.countP_replicate]
  have hfec :
      (fillFragment (openGroup {} h capture now) h.fragmentSeq payload).fecSeen = false := by
    rw [fillFragment, if_pos hempty]
    rfl
  rw [finalized_isSome_iff, hmissing, hfec]
  by_cases hpayload : payload = []
  · simp [hpayload]
  · simp only [hpayload, if_false, Nat.add_zero, Bool.false_eq_true, false_and, or_false, ne_eq,
      not_false_eq_true, and_true]
    omega

end Alone

/-- The frame that a packet of an unknown group makes. -/
theorem makesFrame_iff (hnone : rx.groups[h.groupId]? = none) :
    (∃ g, rx.updated h payload now = some g ∧ (finalized g).isSome = true) ↔
      MakesFrame h payload := by
  have hzero : (dataCount h.fragmentCnt).toNat = 0 ↔ dataCount h.fragmentCnt = 0 :=
    ⟨fun h => UInt16.toNat_inj.1 h, fun h => h ▸ rfl⟩
  have hone : (dataCount h.fragmentCnt).toNat = 1 ↔ dataCount h.fragmentCnt = 1 :=
    ⟨fun h => UInt16.toNat_inj.1 h, fun h => h ▸ rfl⟩
  have hlt : h.fragmentSeq < dataCount h.fragmentCnt ↔
      h.fragmentSeq.toNat < (dataCount h.fragmentCnt).toNat := UInt16.lt_iff_toNat_lt
  have hseq : h.fragmentSeq = 0 ↔ h.fragmentSeq.toNat = 0 :=
    ⟨fun h => h ▸ rfl, fun h => UInt16.toNat_inj.1 h⟩
  have hcnt : ∀ capture, (openGroup {} h capture now).fragmentCnt = dataCount h.fragmentCnt :=
    fun _ => rfl
  rw [updated, groupOf_of_none hnone, MakesFrame, ← hzero, ← hone, hseq]
  by_cases hfec : h.fragmentSeq = UdpHeader.kFecSeq
  · rw [if_pos hfec]
    simp only [Option.some.injEq, exists_eq_left', finalized_parity_alone, hfec, true_and, true_or]
  · rw [if_neg hfec, hcnt]
    simp only [hfec, false_and, false_or]
    by_cases hin : h.fragmentSeq < dataCount h.fragmentCnt
    · have hlt := hlt.1 hin
      rw [if_pos hin]
      simp only [Option.some.injEq, exists_eq_left', finalized_fragment_alone h payload _ hlt]
      exact ⟨fun hmakes => ⟨by omega, hmakes⟩, fun hmakes => hmakes.2⟩
    · rw [hlt] at hin
      rw [if_neg (hlt.not.2 hin)]
      refine iff_of_false (fun hmakes => ?_) fun hmakes => ?_
      · obtain ⟨g, hg, -⟩ := hmakes
        cases hg
      · omega

/-! ## What a media packet does -/

section OnMedia

variable (hk : rx.Keyed) {g : Group} (hu : rx.updated h payload now = some g)
include hk hu

theorem onMedia_of_finalized {g' : Group} (hf : finalized g = some g') :
    (rx.onMedia h payload now).1 = { rx with
      lastCaptureUs := extendLow32 rx.lastCaptureUs now h.captureUsLo
      groups := rx.groups.erase h.groupId
      jb := (rx.jb.push h.groupId g.captureUs (some (assembled g')) now).1 } := by
  have hid : g'.frameId = g.frameId := by rw [finalized_eq hf]
  have hcapture : g'.captureUs = g.captureUs := by rw [finalized_eq hf]
  rw [onMedia_of_updated h payload now hu, tryFinalize_of_finalized hf, finish, hid, hcapture,
    updated_frameId h payload now hk hu]

theorem onMedia_of_old (hf : finalized g = none) (hold : now - g.firstRecvUs > 250 * 1000) :
    (rx.onMedia h payload now).1 = { rx with
      lastCaptureUs := extendLow32 rx.lastCaptureUs now h.captureUsLo
      groups := rx.groups.erase h.groupId } := by
  obtain ⟨hc, hr⟩ := finalized_eq_none_iff.1 hf
  rw [onMedia_of_updated h payload now hu, tryFinalize_of_missing _ now hc hr,
    (requestMissing_of_old _ hold).1, updated_frameId h payload now hk hu]

theorem onMedia_of_recent (hf : finalized g = none) (hrecent : now - g.firstRecvUs ≤ 250 * 1000) :
    (rx.onMedia h payload now).1 = { rx with
      lastCaptureUs := extendLow32 rx.lastCaptureUs now h.captureUsLo
      groups := rx.groups.insert h.groupId { g with lastNackUs := nackedAt g now } } := by
  obtain ⟨hc, hr⟩ := finalized_eq_none_iff.1 hf
  rw [onMedia_of_updated h payload now hu, tryFinalize_of_missing _ now hc hr,
    requestMissing_of_recent _ hrecent, updated_frameId h payload now hk hu]

end OnMedia

/-- **What `on_media` does**, in four cases. -/
theorem onMedia_cases (hk : rx.Keyed) (h : UdpHeader) (payload : Bytes) (now : Int) :
    let capture := extendLow32 rx.lastCaptureUs now h.captureUsLo
    let r := (rx.onMedia h payload now).1
    -- Out of range: the group stays as it was found.
    (rx.updated h payload now = none ∧
      r = { rx with
        lastCaptureUs := capture
        groups := rx.groups.insert h.groupId (rx.groupOf h capture now) }) ∨
    -- The group is finished.
    (∃ g g', rx.updated h payload now = some g ∧ finalized g = some g' ∧
      r = { rx with
        lastCaptureUs := capture
        groups := rx.groups.erase h.groupId
        jb := (rx.jb.push h.groupId g.captureUs (some (assembled g')) now).1 }) ∨
    -- It is given up.
    (∃ g, rx.updated h payload now = some g ∧ now - g.firstRecvUs > 250 * 1000 ∧
      r = { rx with lastCaptureUs := capture, groups := rx.groups.erase h.groupId }) ∨
    -- It waits.
    (∃ g, rx.updated h payload now = some g ∧ finalized g = none ∧
      now - g.firstRecvUs ≤ 250 * 1000 ∧
      r = { rx with
        lastCaptureUs := capture
        groups := rx.groups.insert h.groupId { g with lastNackUs := nackedAt g now } }) := by
  intro capture r
  cases hu : rx.updated h payload now with
  | none => exact Or.inl ⟨rfl, congrArg Prod.fst (onMedia_of_not_updated h payload now hu)⟩
  | some g =>
    refine Or.inr ?_
    cases hf : finalized g with
    | some g' => exact Or.inl ⟨g, g', rfl, hf, onMedia_of_finalized hk hu hf⟩
    | none =>
      rcases Int.lt_or_le (250 * 1000) (now - g.firstRecvUs) with hold | hrecent
      · exact Or.inr (Or.inl ⟨g, rfl, hold, onMedia_of_old hk hu hf hold⟩)
      · exact Or.inr (Or.inr ⟨g, rfl, hf, hrecent, onMedia_of_recent hk hu hf hrecent⟩)

/-! ## Steady states -/

theorem Pending.openGroup {g : Group} (hg : g.fecSeen = false) (h : UdpHeader) (capture now : Int) :
    Pending (UdpReceiver.openGroup g h capture now) where
  length_frags := List.length_replicate
  bare _ := hg
  stuck hne := by
    have hpos : 0 < (dataCount h.fragmentCnt).toNat := by
      rcases Nat.eq_zero_or_pos (dataCount h.fragmentCnt).toNat with hzero | hpos
      · exact absurd (by simp [UdpReceiver.openGroup, hzero]) hne
      · exact hpos
    refine finalized_eq_none_iff.1 (Option.not_isSome_iff_eq_none.1 fun hsome => ?_)
    rw [finalized_isSome_iff] at hsome
    have hmissing : missingCount (UdpReceiver.openGroup g h capture now) =
        (dataCount h.fragmentCnt).toNat := by
      simp [missingCount, UdpReceiver.openGroup, List.countP_replicate]
    rw [hmissing] at hsome
    rcases hsome with hzero | ⟨hfec, -⟩
    · omega
    · exact absurd (hg.symm.trans hfec) Bool.false_ne_true

theorem Steady.groupOf (hs : Steady rx) (h : UdpHeader) (capture now : Int) :
    Pending (rx.groupOf h capture now) := by
  rw [UdpReceiver.groupOf]
  cases hg : rx.groups[h.groupId]? with
  | none => exact Pending.openGroup rfl h capture now
  | some g =>
    have hpending := hs.pending h.groupId g hg
    simp only [Option.getD_some, List.isEmpty_iff]
    split_ifs with hfrags
    · exact Pending.openGroup (hpending.bare hfrags) h capture now
    · exact hpending

theorem Steady.length_updated (hs : Steady rx) {g : Group}
    (hu : rx.updated h payload now = some g) : g.frags.length = g.fragmentCnt.toNat := by
  have hlength := (hs.groupOf h (extendLow32 rx.lastCaptureUs now h.captureUsLo) now).length_frags
  simp only [updated] at hu
  split_ifs at hu
  · rw [← Option.some.inj hu]
    exact hlength
  · rw [← Option.some.inj hu, fillFragment]
    split_ifs
    · simpa using hlength
    · exact hlength

theorem Pending.of_waits {g : Group} (hlength : g.frags.length = g.fragmentCnt.toNat)
    (hf : finalized g = none) (t : Int) : Pending { g with lastNackUs := t } where
  length_frags := hlength
  bare hbare := by
    have hc := (finalized_eq_none_iff.1 hf).1
    simp only at hbare
    rw [complete, hbare] at hc
    cases hc
  stuck _ := by
    obtain ⟨hc, hr⟩ := finalized_eq_none_iff.1 hf
    refine ⟨hc, ?_⟩
    simp only [recoverGroup] at hr ⊢
    split_ifs at hr ⊢ <;> rfl

/-- The jitter buffer is left alone, or called once. -/
def Calls (jb jb' : JitterBuffer UdpAssembled) : Prop :=
  jb' = jb ∨ ∃ j, jb' = (JitterBuffer.step jb j).1

theorem Steady.of_calls {rx' : UdpReceiver} (hs : Steady rx) (hk : rx'.Keyed)
    (hp : ∀ (k : UInt32) (g : Group), rx'.groups[k]? = some g → Pending g)
    (hjb : Calls rx.jb rx'.jb) : Steady rx' where
  keyed := hk
  pending := hp
  throttled := by
    obtain ⟨t, ht⟩ := hs.throttled
    rcases hjb with hjb | ⟨j, hjb⟩
    · rw [hjb]
      exact ⟨t, ht⟩
    · rw [hjb]
      exact ⟨_, (ht.step j).1⟩
  size_le := by
    rcases hjb with hjb | ⟨j, hjb⟩
    · rw [hjb]
      exact hs.size_le
    · rw [hjb]
      exact JitterBuffer.size_step_le rx.jb hs.size_le j

section Map

variable {gs : TreeMap UInt32 Group} (hgs : ∀ (k : UInt32) (g : Group), gs[k]? = some g → Pending g)
include hgs

theorem pending_insert (gid : UInt32) {g : Group} (hg : Pending g) :
    ∀ (k : UInt32) (g' : Group), (gs.insert gid g)[k]? = some g' → Pending g' := by
  intro k g' hg'
  rw [TreeMap.getElem?_insert] at hg'
  split_ifs at hg'
  · rwa [← Option.some.inj hg']
  · exact hgs k g' hg'

theorem pending_erase (gid : UInt32) :
    ∀ (k : UInt32) (g' : Group), (gs.erase gid)[k]? = some g' → Pending g' := by
  intro k g' hg'
  rw [TreeMap.getElem?_erase] at hg'
  split_ifs at hg'
  exact hgs k g' hg'

end Map

theorem Steady.onMedia (hs : Steady rx) (h : UdpHeader) (payload : Bytes) (now : Int) :
    Steady (rx.onMedia h payload now).1 := by
  have hk := (onMedia_groups h payload now hs.keyed).2
  obtain ⟨-, hr⟩ | ⟨g, g', -, -, hr⟩ | ⟨g, -, -, hr⟩ | ⟨g, hu, hf, -, hr⟩ :=
    onMedia_cases hs.keyed h payload now <;> rw [hr] at hk ⊢
  · exact hs.of_calls hk (pending_insert hs.pending h.groupId (hs.groupOf h _ now)) (Or.inl rfl)
  · exact hs.of_calls hk (pending_erase hs.pending h.groupId)
      (Or.inr ⟨.push h.groupId g.captureUs (some (assembled g')) now, rfl⟩)
  · exact hs.of_calls hk (pending_erase hs.pending h.groupId) (Or.inl rfl)
  · exact hs.of_calls hk (pending_insert hs.pending h.groupId
      (Pending.of_waits (hs.length_updated hu) hf _)) (Or.inl rfl)

theorem recv_of_not_media_eq {buf : Bytes} (hm : ¬ IsMedia buf) (now : Int) :
    (rx.recv buf now).1 = rx ∨ ∃ ms, (rx.recv buf now).1 = rx.updateRtt ms := by
  simp only [recv]
  split_ifs with hlen hmagic hjson hpong h8
  · exact Or.inl rfl
  · exact Or.inl rfl
  · exact Or.inl rfl
  · exact Or.inr ⟨_, rfl⟩
  · exact Or.inl rfl
  · exact absurd ⟨Nat.le_of_not_lt hlen, by simpa using hmagic, hjson, hpong⟩ hm

theorem Steady.step (hs : Steady rx) (i : UdpInput) : Steady (UdpReceiver.step rx i).1 := by
  have hk := hs.keyed.step i
  cases i with
  | pop now => exact hs.of_calls hk hs.pending (Or.inr ⟨.pop now, rfl⟩)
  | datagram buf now =>
    have hrecv : UdpReceiver.step rx (.datagram buf now) = rx.recv buf now := rfl
    rw [hrecv] at hk ⊢
    by_cases hm : IsMedia buf
    · rw [recv_of_media rx hm]
      exact hs.onMedia _ _ now
    · rcases @recv_of_not_media_eq rx buf hm now with hr | ⟨ms, hr⟩
      · rwa [hr]
      · rw [hr] at hk ⊢
        refine hs.of_calls hk hs.pending (Or.inr ⟨.setRttMs _, rfl⟩)

theorem steady_fresh : Steady {} where
  keyed := keyed_fresh
  pending k g hg := by simp at hg
  throttled := ⟨{}, rfl⟩
  size_le := by simp [JitterBuffer.create]

theorem steady_run (is : List UdpInput) : Steady (Runs.after step {} is) :=
  Runs.invariant (fun _ i hs => hs.step i) steady_fresh is

/-! ## Packets that bring nothing -/

theorem set_of_getD {frags : List Bytes} {i : ℕ} (h : frags.getD i [] = []) :
    frags.set i [] = frags := by
  refine List.ext_getElem? fun j => ?_
  rw [List.getElem?_set]
  split_ifs with hij hi
  · subst hij
    rw [List.getD_eq_getElem?_getD, List.getElem?_eq_getElem hi, Option.getD_some] at h
    rw [List.getElem?_eq_getElem hi, h]
  · subst hij
    rw [List.getElem?_eq_none (Nat.le_of_not_lt hi)]
  · rfl

section Has

variable {g : Group} (hg : rx.groups[h.groupId]? = some g) (hfrags : g.frags ≠ [])
include hg hfrags

/-- A packet that brings what the group has leaves it as it is. -/
theorem updated_of_has (hhas : Has g h payload) : rx.updated h payload now = some g := by
  rw [updated, groupOf_of_frags hg hfrags]
  rw [Has] at hhas
  by_cases hfec : h.fragmentSeq = UdpHeader.kFecSeq
  · rw [if_pos hfec] at hhas ⊢
    obtain ⟨hseen, rfl⟩ := hhas
    rw [setParity, ← hseen]
  · rw [if_neg hfec] at hhas ⊢
    obtain ⟨hlt, hslot⟩ := hhas
    simp only [if_pos hlt, fillFragment]
    split_ifs with hempty
    · obtain rfl := hslot.resolve_right fun hne => hne (List.isEmpty_iff.1 hempty)
      rw [set_of_getD (List.isEmpty_iff.1 hempty)]
    · rfl

/-- And only such a packet does. -/
theorem has_of_updated (hpending : Pending g) {g' : Group}
    (hu : rx.updated h payload now = some g')
    (hsame : g' = { g with lastNackUs := g'.lastNackUs }) :
    Has g h payload := by
  have hseen : g'.fecSeen = g.fecSeen := by rw [hsame]
  have hparity : g'.parity = g.parity := by rw [hsame]
  have hfrags' : g'.frags = g.frags := by rw [hsame]
  rw [updated, groupOf_of_frags hg hfrags] at hu
  rw [Has]
  split_ifs at hu ⊢ with hfec hlt
  · rw [← Option.some.inj hu] at hseen hparity
    exact ⟨hseen.symm, hparity.symm⟩
  · refine ⟨hlt, ?_⟩
    rw [or_iff_not_imp_right, not_not]
    intro hempty
    rw [← Option.some.inj hu, fillFragment, if_pos (List.isEmpty_iff.2 hempty)] at hfrags'
    have hin : h.fragmentSeq.toNat < g.frags.length := by
      rw [hpending.length_frags]
      exact UInt16.lt_iff_toNat_lt.1 hlt
    have hslot := congrArg (·.getD h.fragmentSeq.toNat []) hfrags'
    simp only [hempty] at hslot
    simpa [List.getD_eq_getElem?_getD, hin] using hslot

end Has

/-! ## What leaves no mark passes by -/

theorem groupOf_of_bare {g : Group} (hg : rx.groups[h.groupId]? = some g) (hbare : g.frags = [])
    (capture now : Int) : rx.groupOf h capture now = openGroup g h capture now := by
  rw [groupOf, hg, Option.getD_some, if_pos (by rw [hbare]; rfl)]

section Passes

variable (hs : Steady rx)
include hs

/-- What the receiver's jitter buffer ignores. -/
theorem Steady.push_eq_self_iff (seq : UInt32) (genUs now : Int) (data : Option UdpAssembled) :
    (rx.jb.push seq genUs data now).1 = rx.jb ↔ rx.jb.Ignores seq genUs now := by
  obtain ⟨t, ht⟩ := hs.throttled
  simp only [JitterBuffer.Throttled, JitterBuffer.nackState, Prod.mk.injEq] at ht
  exact JitterBuffer.push_eq_self_iff (by rw [ht.2.1]; decide) ht.2.2 hs.size_le

theorem Steady.fragmentCnt_of_bare {g : Group} (hg : rx.groups[h.groupId]? = some g)
    (hbare : g.frags = []) : g.fragmentCnt = 0 := by
  have hlength := (hs.pending h.groupId g hg).length_frags
  rw [hbare] at hlength
  exact UInt16.toNat_inj.1 hlength.symm

theorem Steady.groupOf_of_reopened {g : Group} (hg : rx.groups[h.groupId]? = some g)
    (hbare : g.frags = []) (hcount : dataCount h.fragmentCnt = 0) (hfirst : g.firstRecvUs = now)
    (hcapture : g.captureUs = rx.lastCaptureUs) (hkey : g.keyframe = h.keyframe) :
    rx.groupOf h rx.lastCaptureUs now = g := by
  have hid := hs.keyed h.groupId g hg
  have hcnt := hs.fragmentCnt_of_bare hg hbare
  rw [groupOf_of_bare hg hbare]
  obtain ⟨cnt, fid, cap, key, first, nack, fec, frags, parity⟩ := g
  simp only at hcnt hid hfirst hcapture hkey hbare
  simp [openGroup, hcount, hcnt, hid, hfirst, hcapture, hkey, hbare]

/-- The packet was out of range, and the entry is the group that it found. -/
theorem passesBy_of_found (hu : rx.updated h payload now = none)
    (hentry : rx.groups[h.groupId]? = some (rx.groupOf h rx.lastCaptureUs now)) :
    PassesBy rx h payload now := by
  set g := rx.groupOf h rx.lastCaptureUs now with hg
  by_cases hfrags : g.frags = []
  · have hopen : g = openGroup g h rx.lastCaptureUs now :=
      hg.trans (groupOf_of_bare hentry hfrags rx.lastCaptureUs now)
    have hfec : h.fragmentSeq ≠ UdpHeader.kFecSeq := by
      intro hfec
      rw [updated_of_fec h payload now hfec] at hu
      cases hu
    have hcount : (dataCount h.fragmentCnt).toNat = 0 := by
      have hlength := (hs.pending h.groupId g hentry).length_frags
      rw [hfrags, hopen] at hlength
      exact hlength.symm
    refine .reopens g hentry hfrags hfec (UInt16.toNat_inj.1 hcount) ?_ ?_ ?_ <;> rw [hopen] <;> rfl
  · exact .outOfRange g hentry hfrags ((updated_eq_none_iff hentry hfrags).1 hu)

theorem passesBy_of_waits {g : Group} (hu : rx.updated h payload now = some g)
    (hf : finalized g = none) (hrecent : now - g.firstRecvUs ≤ 250 * 1000)
    (hentry : rx.groups[h.groupId]? = some { g with lastNackUs := nackedAt g now }) :
    PassesBy rx h payload now := by
  set e : Group := { g with lastNackUs := nackedAt g now } with he
  have hfrags : e.frags ≠ [] := by
    intro hbare
    have hc := (finalized_eq_none_iff.1 hf).1
    rw [complete, show g.frags = [] from hbare] at hc
    cases hc
  have hlast : g.lastNackUs = nackedAt g now := by
    have hsame := congrArg Group.lastNackUs (updated_eq h payload now hu)
    rwa [groupOf_of_frags hentry hfrags] at hsame
  have hasked : now - g.lastNackUs < 10 * 1000 := by
    by_contra hask
    rw [nackedAt, if_pos (Int.not_lt.1 hask)] at hlast
    omega
  refine .repeats e hentry hfrags ?_ (by rw [he, ← hlast]; exact hasked) hrecent
  exact has_of_updated hentry hfrags (hs.pending h.groupId e hentry) hu rfl

theorem passesBy_of_finished {g g' : Group} (hu : rx.updated h payload now = some g)
    (hf : finalized g = some g') (hnone : rx.groups[h.groupId]? = none)
    (hbase : extendLow32 rx.lastCaptureUs now h.captureUsLo = rx.lastCaptureUs)
    (hpush : (rx.jb.push h.groupId g.captureUs (some (assembled g')) now).1 = rx.jb) :
    PassesBy rx h payload now := by
  have hcapture : g.captureUs = rx.lastCaptureUs := by
    rw [updated_eq h payload now hu, groupOf_of_none hnone, hbase]
    rfl
  rw [hs.push_eq_self_iff, hcapture] at hpush
  exact .ignored hnone ((makesFrame_iff hnone).1 ⟨g, hu, by rw [hf]; rfl⟩) hpush

end Passes

section Inert

variable (hs : Steady rx) {buf : Bytes} (hm : IsMedia buf) (now : Int)
include hs hm

theorem unnoticed_of_inert (hi : Inert rx (.datagram buf now)) :
    Unnoticed rx (UdpHeader.read buf) (buf.drop UdpHeader.kSize) now := by
  obtain ⟨hgroups, hjb, hlast⟩ := hi
  set h := UdpHeader.read buf
  set payload := buf.drop UdpHeader.kSize
  rw [show step rx (.datagram buf now) = rx.onMedia h payload now from recv_of_media rx hm now]
    at hgroups hjb hlast
  have hown := hgroups h.groupId
  have hbase : extendLow32 rx.lastCaptureUs now h.captureUsLo = rx.lastCaptureUs := by
    rcases onMedia_cases hs.keyed h payload now with
      ⟨-, hr⟩ | ⟨g, g', -, -, hr⟩ | ⟨g, -, -, hr⟩ | ⟨g, -, -, -, hr⟩ <;> rw [hr] at hlast <;>
      exact hlast
  obtain ⟨hlow, hclock⟩ := (extendLow32_eq_last_iff _ _ _).1 hbase
  refine ⟨hlow, hclock, ?_⟩
  rcases onMedia_cases hs.keyed h payload now with
    ⟨hu, hr⟩ | ⟨g, g', hu, hf, hr⟩ | ⟨g, hu, hold, hr⟩ | ⟨g, hu, hf, hrecent, hr⟩ <;>
    rw [hr] at hown
  · rw [TreeMap.getElem?_insert_self, hbase] at hown
    exact passesBy_of_found hs hu hown.symm
  · rw [TreeMap.getElem?_erase_self] at hown
    rw [hr] at hjb
    exact passesBy_of_finished hs hu hf hown.symm hbase hjb
  · -- A group that is given up had an entry.
    rw [TreeMap.getElem?_erase_self] at hown
    have hfirst := firstRecvUs_of_updated h payload now hu
    rw [groupOf_of_none hown.symm] at hfirst
    have hnow : g.firstRecvUs = now := hfirst
    omega
  · rw [TreeMap.getElem?_insert_self] at hown
    exact passesBy_of_waits hs hu hf hrecent hown.symm

omit hs in
theorem inert_of_groups {gs : TreeMap UInt32 Group}
    (hr : (rx.onMedia (UdpHeader.read buf) (buf.drop UdpHeader.kSize) now).1 =
      { rx with groups := gs })
    (hgs : ∀ k : UInt32, gs[k]? = rx.groups[k]?) : Inert rx (.datagram buf now) := by
  have hstep : (step rx (.datagram buf now)).1 = { rx with groups := gs } := by
    rw [← hr]
    exact congrArg Prod.fst (recv_of_media rx hm now)
  constructor <;> rw [hstep]
  exact hgs

theorem inert_of_unnoticed
    (hun : Unnoticed rx (UdpHeader.read buf) (buf.drop UdpHeader.kSize) now) :
    Inert rx (.datagram buf now) := by
  obtain ⟨hlow, hclock, hpasses⟩ := hun
  set h := UdpHeader.read buf
  set payload := buf.drop UdpHeader.kSize
  have hbase := (extendLow32_eq_last_iff rx.lastCaptureUs now h.captureUsLo).2 ⟨hlow, hclock⟩
  -- The group is found as it is, and nothing is done with it.
  have hfound : ∀ g, rx.groups[h.groupId]? = some g → rx.groupOf h rx.lastCaptureUs now = g →
      rx.updated h payload now = none → Inert rx (.datagram buf now) := by
    intro g hg hsame hu
    have hr := congrArg Prod.fst (onMedia_of_not_updated h payload now hu)
    simp only [hbase, hsame] at hr
    exact inert_of_groups hm now hr (OrderedMap.getElem?_insert_of_entry hg)
  cases hpasses with
  | outOfRange g hg hfrags hseq =>
    exact hfound g hg (groupOf_of_frags hg hfrags _ now) ((updated_eq_none_iff hg hfrags).2 hseq)
  | repeats g hg hfrags hhas hasked hrecent =>
    have hf := finalized_eq_none_iff.2 ((hs.pending h.groupId g hg).stuck hfrags)
    have hr := onMedia_of_recent hs.keyed (updated_of_has hg hfrags hhas) hf hrecent
    rw [nackedAt, if_neg (Int.not_le.2 hasked), hbase] at hr
    exact inert_of_groups hm now hr (OrderedMap.getElem?_insert_of_entry hg)
  | reopens g hg hbare hseq hcount hfirst hcapture hkey =>
    have hopen := hs.groupOf_of_reopened hg hbare hcount hfirst hcapture hkey
    refine hfound g hg hopen ?_
    have hcnt : g.fragmentCnt = 0 := hs.fragmentCnt_of_bare hg hbare
    simp only [updated, hbase, hopen, if_neg hseq]
    exact if_neg (by rw [hcnt]; exact UInt16.not_lt_zero)
  | ignored hnone hframe hpush =>
    obtain ⟨g, hu, hsome⟩ := (makesFrame_iff hnone).2 hframe
    obtain ⟨g', hf⟩ := Option.isSome_iff_exists.1 hsome
    have hcapture : g.captureUs = rx.lastCaptureUs := by
      rw [updated_eq h payload now hu, groupOf_of_none hnone, hbase]
      rfl
    have hr := onMedia_of_finalized hs.keyed hu hf
    rw [hcapture, (hs.push_eq_self_iff _ _ _ _).2 hpush, hbase] at hr
    exact inert_of_groups hm now hr (OrderedMap.getElem?_erase_of_none hnone)

/-- **Which media packets leave no mark**: those that carry the low bits of the time base and pass
by. -/
theorem inert_iff : Inert rx (.datagram buf now) ↔
    Unnoticed rx (UdpHeader.read buf) (buf.drop UdpHeader.kSize) now :=
  ⟨unnoticed_of_inert hs hm now, inert_of_unnoticed hs hm now⟩

end Inert

/-! ## What is finished has bytes -/

theorem flatten_ne_nil {frags : List Bytes} (hne : frags ≠ []) (hfull : ∀ f ∈ frags, f ≠ []) :
    frags.flatten ≠ [] := by
  rw [ne_eq, List.flatten_eq_nil_iff, not_forall]
  exact ⟨frags.head hne, fun hnil => hfull _ (List.head_mem hne) (hnil (List.head_mem hne))⟩

/-- A frame that has fragments has bytes. -/
theorem annexb_of_finalized {g g' : Group} (hlength : g.frags.length = g.fragmentCnt.toNat)
    (hne : g.frags ≠ []) (hf : finalized g = some g') : (assembled g').annexb ≠ [] := by
  rw [finalized] at hf
  split_ifs at hf with hc
  · rw [← Option.some.inj hf]
    exact flatten_ne_nil hne fun f hmem => by simpa using List.all_eq_true.1 hc f hmem
  · simp only [recoverGroup] at hf
    split_ifs at hf with hfec hr
    have hone := (fecRecover_fst _ _).1 hr
    -- The one empty slot is a fragment, so the parity is not.
    have hparity : 0 < g.parity.length := by
      rw [List.countP_append, List.countP_singleton] at hone
      rw [complete_iff, missingCount] at hc
      rw [List.length_pos_iff]
      intro hnil
      simp only [hnil, List.isEmpty_nil, if_true] at hone
      omega
    rw [← Option.some.inj hf]
    refine flatten_ne_nil (List.ne_nil_of_length_pos ?_) fun f hmem =>
      fecRecover_ne_nil hone (by omega) f (List.mem_of_mem_take hmem)
    have hpos := List.length_pos_of_ne_nil hne
    simp only [List.length_take, length_fecRecover, List.length_append]
    omega

theorem frags_of_updated (hcnt : 2 ≤ h.fragmentCnt.toNat) {g : Group}
    (hu : rx.updated h payload now = some g) : g.frags ≠ [] := by
  have hfound : ∀ capture, (rx.groupOf h capture now).frags ≠ [] := by
    intro capture
    rw [groupOf]
    split_ifs with hbare
    · have hpos : 0 < (dataCount h.fragmentCnt).toNat := by
        have hcount : dataCount h.fragmentCnt = h.fragmentCnt - 1 := by
          rw [dataCount, if_pos (UInt16.lt_iff_toNat_lt.2 (by simp; omega))]
        have hle : (1 : UInt16) ≤ h.fragmentCnt := UInt16.le_iff_toNat_le.2 (by simp; omega)
        rw [hcount, UInt16.toNat_sub_of_le _ _ hle]
        simp
        omega
      exact List.ne_nil_of_length_pos (by simpa [openGroup] using hpos)
    · simpa using hbare
  have hkept : ∀ g seq, g.frags ≠ [] → (fillFragment g seq payload).frags ≠ [] := by
    intro g seq hne
    unfold fillFragment
    split
    · simpa using hne
    · exact hne
  simp only [updated] at hu
  split_ifs at hu
  · rw [← Option.some.inj hu]
    exact hfound _
  · rw [← Option.some.inj hu]
    exact hkept _ _ (hfound _)

/-! ## Runs -/

/-- A malformed datagram goes unnoticed. -/
def MalformedUnnoticed (rx : UdpReceiver) : UdpInput → Prop
  | .datagram buf now => Malformed buf →
      Unnoticed rx (UdpHeader.read buf) (buf.drop UdpHeader.kSize) now
  | .pop _ => True

/-- Every frame in the jitter buffer has bytes; a frame of no fragments has none. -/
def NoEmptyFrames (rx : UdpReceiver) : Prop :=
  ∀ (k : UInt32) (u : JbUnit UdpAssembled) (a : UdpAssembled),
    rx.jb.buf[k]? = some u → u.data = some a → a.annexb ≠ []

theorem NoEmptyFrames.onMedia (hs : Steady rx) (hno : NoEmptyFrames rx)
    (hcnt : 2 ≤ h.fragmentCnt.toNat) : NoEmptyFrames (rx.onMedia h payload now).1 := by
  rcases onMedia_cases hs.keyed h payload now with
    ⟨-, hr⟩ | ⟨g, g', hu, hf, hr⟩ | ⟨g, -, -, hr⟩ | ⟨g, -, -, -, hr⟩ <;> rw [hr]
  · exact hno
  · intro k u a hk hdata
    rcases JitterBuffer.getElem?_push _ hk with hk | ⟨-, rfl⟩
    · exact hno k u a hk hdata
    · rw [← Option.some.inj hdata]
      exact annexb_of_finalized (hs.length_updated hu) (frags_of_updated hcnt hu) hf
  · exact hno
  · exact hno

theorem NoEmptyFrames.step (hs : Steady rx) (hno : NoEmptyFrames rx) {i : UdpInput}
    (hi : MalformedUnnoticed rx i) : NoEmptyFrames (UdpReceiver.step rx i).1 := by
  cases i with
  | pop now => exact fun k u a hk => hno k u a (JitterBuffer.getElem?_pop _ hk)
  | datagram buf now =>
    rw [show UdpReceiver.step rx (.datagram buf now) = rx.recv buf now from rfl]
    by_cases hm : IsMedia buf
    · by_cases hmal : Malformed buf
      · have hjb := (inert_of_unnoticed hs hm now (hi hmal)).jb
        rw [show UdpReceiver.step rx (.datagram buf now) = rx.recv buf now from rfl] at hjb
        rw [NoEmptyFrames, hjb]
        exact hno
      · have hcnt : 2 ≤ (UdpHeader.read buf).fragmentCnt.toNat := by
          by_contra hlt
          exact hmal ⟨hm, Or.inr (Or.inl (by omega))⟩
        rw [recv_of_media rx hm]
        exact hno.onMedia hs hcnt
    · rcases recv_of_not_media_eq hm now with hr | ⟨ms, hr⟩
      · rwa [hr]
      · rw [hr]
        exact hno

theorem noEmptyFrames_run {is : List UdpInput}
    (halong : Runs.Along UdpReceiver.step MalformedUnnoticed {} is) :
    NoEmptyFrames (Runs.after UdpReceiver.step {} is) :=
  (Runs.Along.invariant (I := fun rx => Steady rx ∧ NoEmptyFrames rx)
    (fun _ i hI hi => ⟨hI.1.step i, hI.2.step hI.1 hi⟩) halong
    ⟨steady_fresh, fun k u a hk => by simp [JitterBuffer.create] at hk⟩).2

/-- **When malformed datagrams leave no mark.** In every reachable state a malformed datagram leaves
the groups, the jitter buffer and the time base as they were if and only if it carries the low bits
of the time base and passes by; and in a run in which all of them do, every frame in the jitter
buffer has bytes. -/
theorem malformed_inert_iff (is : List UdpInput) {buf : Bytes} (hmal : Malformed buf) (now : Int) :
    (Inert (Runs.after step {} is) (.datagram buf now) ↔
        Unnoticed (Runs.after step {} is) (UdpHeader.read buf) (buf.drop UdpHeader.kSize) now) ∧
      (Runs.Along step MalformedUnnoticed {} is → NoEmptyFrames (Runs.after step {} is)) :=
  ⟨inert_iff (steady_run is) hmal.1 now, noEmptyFrames_run⟩

/-- A fourth fragment of three. -/
def outside (gid : UInt32) : Bytes :=
  UdpHeader.write { groupId := gid, fragmentSeq := 3, fragmentCnt := 4, frameId := gid } ++ [1]

theorem outside_inert :
    Inert (Runs.after step {} [.datagram (firstFragment 7) 0]) (.datagram (outside 7) 1000) ∧
      NoEmptyFrames (Runs.after step {} [.datagram (firstFragment 7) 0]) := by
  have hentry : ((Runs.after step {} [.datagram (firstFragment 7) 0]).groups[(7 : UInt32)]?).any
      (fun g => decide (g.frags ≠ [] ∧ ¬ (3 : UInt16) < g.fragmentCnt)) = true := by decide +kernel
  obtain ⟨g, hg, hp⟩ := (Option.any_eq_true _ _).1 hentry
  rw [decide_eq_true_iff] at hp
  have hread : UdpHeader.read (outside 7) =
      { groupId := 7, fragmentSeq := 3, fragmentCnt := 4, frameId := 7 } := by decide +kernel
  have hmal : Malformed (outside 7) := by decide +kernel
  have hiff := malformed_inert_iff [.datagram (firstFragment 7) 0] hmal 1000
  refine ⟨hiff.1.2 ⟨by decide +kernel, by decide +kernel, ?_⟩, hiff.2 ⟨?_, trivial⟩⟩
  · rw [hread]
    exact .outOfRange g hg hp.1 (not_or.2 ⟨by decide, hp.2⟩)
  · exact fun hmal => absurd hmal (by decide +kernel)

/-- The parity of no fragments. -/
def phantom (gid : UInt32) : Bytes :=
  UdpHeader.write
    { groupId := gid, fragmentSeq := UdpHeader.kFecSeq, fragmentCnt := 1, frameId := gid }

/-- The first datagram is the parity of no fragments, and the jitter buffer gets a frame of none. -/
theorem phantom_frame :
    Malformed (phantom 9) ∧ ¬ Inert {} (.datagram (phantom 9) 1000) ∧
      ¬ NoEmptyFrames (Runs.after step {} [.datagram (phantom 9) 1000]) := by
  refine ⟨by decide +kernel, ?_, ?_⟩
  · intro hinert
    have hin : (step {} (.datagram (phantom 9) 1000)).1.jb.buf.contains 9 = true := by
      decide +kernel
    rw [hinert.jb] at hin
    exact absurd hin (by decide)
  · intro hno
    have hframe : ((Runs.after step {} [.datagram (phantom 9) 1000]).jb.buf[(9 : UInt32)]?).any
        (fun u => u.data.any fun a => a.annexb.isEmpty) = true := by decide +kernel
    obtain ⟨u, hu, hdata⟩ := (Option.any_eq_true _ _).1 hframe
    obtain ⟨a, ha, hempty⟩ := (Option.any_eq_true _ _).1 hdata
    exact hno 9 u a hu ha (List.isEmpty_iff.1 hempty)

end UdpReceiver

end Rtstream
