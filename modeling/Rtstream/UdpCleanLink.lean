import Rtstream.JitterBufferSpec
import Rtstream.UdpFragments

/-!
# Clean links

The server sends the parity of every frame last, and on a clean link the frame is finished by
then. So its group is opened again (`parity_alarm`): the receiver recovers a frame that was not
damaged, or asks for fragments that have arrived, and keeps the entry.

`clean_link_iff` says when this does not happen: when every frame has exactly 65535 fragments.
Their count and the parity's wrap to 0 in the header, so the receiver drops all fragments and
finishes an empty frame when the parity arrives.
-/

namespace Rtstream.UdpReceiver

open Std (TreeMap)
open UdpServer

variable {rx : UdpReceiver}

/-! ## What a clean link looks like -/

/-- Nothing of this should happen on a clean link. -/
def Alarm : UdpEffect → Prop
  | .nack _ | .fecRecovered | .lost _ | .jb (.lost _) => True
  | _ => False

/-- What a clean link should look like, frame by frame: while the datagrams of a frame arrive
there is no alarm and one frame is finished, the one sent, and after them there is no group. -/
def CleanLink (rx : UdpReceiver) : List (EncodedFrame × List UdpInput) → Prop
  | [] => True
  | (f, arrivals) :: link =>
      (∀ e ∈ Runs.trace step rx arrivals, ¬ Alarm e) ∧
        (finishes (Runs.trace step rx arrivals)).map (·.frameId) = [toUInt32 f.frameId] ∧
        (Runs.after step rx arrivals).groups.isEmpty = true ∧
        CleanLink (Runs.after step rx arrivals) link

/-- The datagrams arrive one by one, in order. -/
def Delivers (ds : List Bytes) (arrivals : List UdpInput) : Prop :=
  List.Forall₂ (fun i d => ∃ now, i = .datagram d now) arrivals ds

/-- Should a frame of this group be finished now, the jitter buffer has room for it. -/
def HasRoom (rx : UdpReceiver) : UdpInput → Prop
  | .datagram buf _ => rx.jb.RoomFor (UdpHeader.read buf).groupId
  | .pop _ => True

/-! ## Every entry is incomplete -/

/-- Every entry that knows its fragments lacks one of them. -/
def Incomplete (rx : UdpReceiver) : Prop :=
  ∀ (k : UInt32) (g : Group), rx.groups[k]? = some g → g.frags ≠ [] → complete g = false

theorem tryFinalize_incomplete (hi : Incomplete rx) (g : Group) (now : Int) :
    Incomplete (rx.tryFinalize g now).1 := by
  have herase : ∀ (id : UInt32) {k : UInt32} {g' : Group}, (rx.groups.erase id)[k]? = some g' →
      rx.groups[k]? = some g' := fun id {k g'} h => by
    rw [TreeMap.getElem?_erase] at h
    split_ifs at h
    exact h
  intro k g' hg'
  cases hc : complete g with
  | true =>
    rw [tryFinalize_of_complete rx now hc] at hg'
    exact hi k g' (herase _ hg')
  | false =>
    cases hr : recoverGroup g with
    | some g₁ =>
      rw [tryFinalize_of_recovered rx now hc hr] at hg'
      exact hi k g' (herase _ hg')
    | none =>
      rw [tryFinalize_of_missing rx now hc hr] at hg'
      simp only [requestMissing] at hg'
      split_ifs at hg'
      all_goals first
        | exact hi k g' (herase _ hg')
        | rw [TreeMap.getElem?_insert] at hg'
          split_ifs at hg'
          · rw [← Option.some.inj hg']
            exact fun _ => hc
          · exact hi k g' hg'

theorem groupOf_incomplete (hi : Incomplete rx) (h : UdpHeader) (capture now : Int)
    (hne : (rx.groupOf h capture now).frags ≠ []) :
    complete (rx.groupOf h capture now) = false := by
  simp only [groupOf] at hne ⊢
  split_ifs at hne ⊢ with hf
  · -- A group that was just opened has none of its fragments.
    simp only [openGroup] at hne ⊢
    obtain ⟨n, hn⟩ := Nat.exists_eq_succ_of_ne_zero
      (fun h0 : (dataCount h.fragmentCnt).toNat = 0 => hne (by rw [h0]; rfl))
    rw [hn]
    rfl
  · cases hg : rx.groups[h.groupId]? with
    | none => simp [hg] at hf
    | some g =>
      rw [hg] at hne
      exact hi h.groupId g hg hne

theorem Incomplete.step (hi : Incomplete rx) (i : UdpInput) : Incomplete (step rx i).1 := by
  cases i with
  | pop now => exact hi
  | datagram buf now =>
    show Incomplete (rx.recv buf now).1
    by_cases hm : IsMedia buf
    · rw [recv_of_media rx hm]
      cases hu : rx.updated (UdpHeader.read buf) (buf.drop UdpHeader.kSize) now with
      | some g =>
        rw [onMedia_of_updated _ _ _ hu]
        exact tryFinalize_incomplete (by exact hi) g now
      | none =>
        rw [onMedia_of_not_updated _ _ _ hu]
        intro k g' hg' hne
        simp only [TreeMap.getElem?_insert] at hg'
        split_ifs at hg'
        · rw [← Option.some.inj hg'] at hne ⊢
          exact groupOf_incomplete hi _ _ _ hne
        · exact hi k g' hg' hne
    · intro k g' hg'
      rw [(recv_of_not_media rx hm now).1] at hg'
      exact hi k g' hg'

theorem Incomplete.run (hi : Incomplete rx) (is : List UdpInput) :
    Incomplete (Runs.after UdpReceiver.step rx is) :=
  Runs.invariant (fun _ i h => h.step i) hi is

/-- **The parity sets off an alarm**, or leaves an entry, unless the count in the header says
that there are no fragments. -/
theorem parity_alarm (hi : Incomplete rx) {d : Bytes} (hm : IsMedia d)
    (hseq : (UdpHeader.read d).fragmentSeq = UdpHeader.kFecSeq)
    (hcnt : (dataCount (UdpHeader.read d).fragmentCnt).toNat ≠ 0) (now : Int) :
    (∃ e ∈ (step rx (.datagram d now)).2, Alarm e) ∨
      (step rx (.datagram d now)).1.groups.isEmpty = false := by
  have hstep : step rx (.datagram d now) =
      rx.onMedia (UdpHeader.read d) (d.drop UdpHeader.kSize) now := recv_of_media rx hm now
  have hu := @updated_of_fec rx _ (d.drop UdpHeader.kSize) now hseq
  rw [hstep, onMedia_of_updated _ _ _ hu]
  set g := rx.groupOf (UdpHeader.read d)
    (extendLow32 rx.lastCaptureUs now (UdpHeader.read d).captureUsLo) now with hg
  have hne : g.frags ≠ [] := by
    rw [hg, groupOf]
    split_ifs with hf
    · simpa [openGroup] using hcnt
    · simpa using hf
  have hc : complete (setParity g (d.drop UdpHeader.kSize)) = false :=
    groupOf_incomplete hi _ _ _ hne
  cases hr : recoverGroup (setParity g (d.drop UdpHeader.kSize)) with
  | some g' =>
    rw [tryFinalize_of_recovered _ now hc hr]
    exact .inl ⟨.fecRecovered, List.mem_cons_self, trivial⟩
  | none =>
    rw [tryFinalize_of_missing _ now hc hr]
    simp only [requestMissing]
    split_ifs
    all_goals first
      | exact .inl ⟨.lost _, List.mem_append_right _ (List.mem_singleton.2 rfl), trivial⟩
      | exact .inr (by simp)

/-! ## A count of zero -/

/-- The entry of group `gid`, if there is one, has no fragments. -/
def Bare (gid : UInt32) (rx : UdpReceiver) : Prop :=
  ∀ g, rx.groups[gid]? = some g → g.frags = []

section Zero

variable {d : Bytes} {now : Int}

theorem groupOf_bare {h : UdpHeader} (hb : Bare h.groupId rx)
    (hcnt : (dataCount h.fragmentCnt).toNat = 0) (capture now : Int) :
    (rx.groupOf h capture now).frags = [] ∧
      (rx.groupOf h capture now).fragmentCnt.toNat = 0 ∧
      (rx.groupOf h capture now).frameId = h.groupId := by
  have hempty : (rx.groups[h.groupId]?.getD {}).frags.isEmpty = true := by
    cases hg : rx.groups[h.groupId]? with
    | none => rfl
    | some g => simpa using hb g hg
  simp only [groupOf, hempty, if_true]
  exact ⟨by simp [openGroup, hcnt], hcnt, rfl⟩

variable (now) in
theorem step_zero_fec (hb : Bare (UdpHeader.read d).groupId rx) (hm : IsMedia d)
    (hcnt : (dataCount (UdpHeader.read d).fragmentCnt).toNat = 0)
    (hseq : (UdpHeader.read d).fragmentSeq = UdpHeader.kFecSeq) :
    ∃ capture a, a.frameId = (UdpHeader.read d).groupId ∧
      (step rx (.datagram d now)).1.groups = rx.groups.erase (UdpHeader.read d).groupId ∧
      (step rx (.datagram d now)).2 =
        .finish a (rx.jb.push a.frameId capture (some a) now).2.1 ::
          (rx.jb.push a.frameId capture (some a) now).2.2.map .jb := by
  have hstep : step rx (.datagram d now) =
      rx.onMedia (UdpHeader.read d) (d.drop UdpHeader.kSize) now := recv_of_media rx hm now
  obtain ⟨hfrags, -, hid⟩ := groupOf_bare hb hcnt
    (extendLow32 rx.lastCaptureUs now (UdpHeader.read d).captureUsLo) now
  have hu := @updated_of_fec rx _ (d.drop UdpHeader.kSize) now hseq
  set g := rx.groupOf (UdpHeader.read d)
    (extendLow32 rx.lastCaptureUs now (UdpHeader.read d).captureUsLo) now
  have hc : complete (setParity g (d.drop UdpHeader.kSize)) = true := by
    simp [complete, setParity, hfrags]
  rw [hstep, onMedia_of_updated _ _ _ hu, tryFinalize_of_complete _ now hc]
  refine ⟨g.captureUs, assembled (setParity g (d.drop UdpHeader.kSize)), hid, ?_, rfl⟩
  rw [finish_groups, setParity_frameId, hid]

variable (now) in
/-- A data fragment is out of range, and leaves an entry without fragments. -/
theorem step_zero_data (hb : Bare (UdpHeader.read d).groupId rx) (hm : IsMedia d)
    (hcnt : (dataCount (UdpHeader.read d).fragmentCnt).toNat = 0)
    (hseq : (UdpHeader.read d).fragmentSeq ≠ UdpHeader.kFecSeq) :
    (step rx (.datagram d now)).2 = [] ∧ (step rx (.datagram d now)).1.jb = rx.jb ∧
      ∃ g : Group, g.frags = [] ∧ (step rx (.datagram d now)).1.groups =
        rx.groups.insert (UdpHeader.read d).groupId g := by
  have hstep : step rx (.datagram d now) =
      rx.onMedia (UdpHeader.read d) (d.drop UdpHeader.kSize) now := recv_of_media rx hm now
  obtain ⟨hfrags, hzero, -⟩ := groupOf_bare hb hcnt
    (extendLow32 rx.lastCaptureUs now (UdpHeader.read d).captureUsLo) now
  have hu : rx.updated (UdpHeader.read d) (d.drop UdpHeader.kSize) now = none := by
    simp only [updated, if_neg hseq]
    rw [if_neg]
    rw [UInt16.lt_iff_toNat_lt, hzero]
    exact Nat.not_lt_zero _
  rw [hstep, onMedia_of_not_updated _ _ _ hu]
  exact ⟨rfl, rfl, _, hfrags, rfl⟩

/-- Either kind of datagram leaves the group without fragments. -/
theorem Bare.step (hb : Bare (UdpHeader.read d).groupId rx) (hm : IsMedia d)
    (hcnt : (dataCount (UdpHeader.read d).fragmentCnt).toNat = 0) (now : Int) :
    Bare (UdpHeader.read d).groupId (UdpReceiver.step rx (.datagram d now)).1 := by
  by_cases hseq : (UdpHeader.read d).fragmentSeq = UdpHeader.kFecSeq
  · obtain ⟨-, -, -, hgr, -⟩ := step_zero_fec now hb hm hcnt hseq
    intro g hg
    rw [hgr, TreeMap.getElem?_erase_self] at hg
    cases hg
  · obtain ⟨-, -, g', hfrags, hgr⟩ := step_zero_data now hb hm hcnt hseq
    intro g hg
    rw [hgr, TreeMap.getElem?_insert_self] at hg
    rw [← Option.some.inj hg, hfrags]

end Zero

section ZeroRun

variable {gid : UInt32} {ds : List Bytes} {is : List UdpInput}

/-- Datagrams of one group whose header counts no fragments. -/
def ZeroCount (gid : UInt32) (ds : List Bytes) : Prop :=
  ∀ d ∈ ds, IsMedia d ∧ (UdpHeader.read d).groupId = gid ∧
    (dataCount (UdpHeader.read d).fragmentCnt).toNat = 0

theorem length_finishes_zero (hb : Bare gid rx) (hz : ZeroCount gid ds) (hd : Delivers ds is) :
    (finishes (Runs.trace step rx is)).length =
      ds.countP fun d => (UdpHeader.read d).fragmentSeq == UdpHeader.kFecSeq := by
  induction hd generalizing rx with
  | nil => rfl
  | @cons i d is ds hi _ ih =>
    obtain ⟨now, rfl⟩ := hi
    obtain ⟨hm, rfl, hcnt⟩ := hz d List.mem_cons_self
    have hrest := ih (hb.step hm hcnt now) fun e he => hz e (List.mem_cons_of_mem d he)
    rw [Runs.trace_cons, finishes_append, List.length_append, hrest, List.countP_cons]
    by_cases hseq : (UdpHeader.read d).fragmentSeq = UdpHeader.kFecSeq
    · obtain ⟨_, a, -, -, heff⟩ := step_zero_fec now hb hm hcnt hseq
      rw [heff]
      simp [hseq, Nat.add_comm]
    · rw [(step_zero_data now hb hm hcnt hseq).1]
      simp [hseq]

/-- Data fragments are dropped without a sound. -/
theorem trace_zero (hb : Bare gid rx) (hz : ZeroCount gid ds) (hd : Delivers ds is)
    (hseq : ∀ d ∈ ds, (UdpHeader.read d).fragmentSeq ≠ UdpHeader.kFecSeq) :
    Runs.trace step rx is = [] ∧ (Runs.after step rx is).jb = rx.jb ∧
      Bare gid (Runs.after step rx is) ∧
      (∀ k : UInt32, k ≠ gid → (Runs.after step rx is).groups[k]? = rx.groups[k]?) ∧
      (rx.jb.RoomFor gid → Runs.Along step HasRoom rx is) := by
  induction hd generalizing rx with
  | nil => exact ⟨rfl, rfl, hb, fun _ _ => rfl, fun _ => trivial⟩
  | @cons i d is ds hi _ ih =>
    obtain ⟨now, rfl⟩ := hi
    obtain ⟨hm, rfl, hcnt⟩ := hz d List.mem_cons_self
    obtain ⟨heff, hjb, g, -, hgr⟩ :=
      step_zero_data now hb hm hcnt (hseq d List.mem_cons_self)
    obtain ⟨htr, hjb', hb', hother, hroom⟩ := ih (hb.step hm hcnt now)
      (fun e he => hz e (List.mem_cons_of_mem d he)) fun e he => hseq e (List.mem_cons_of_mem d he)
    rw [Runs.trace_cons, Runs.after_cons, heff, htr, hjb', hjb]
    refine ⟨rfl, rfl, hb', fun k hk => ?_, fun h => ⟨h, hroom (by rw [hjb]; exact h)⟩⟩
    rw [hother k hk, hgr, TreeMap.getElem?_insert]
    simp [Ne.symm hk]

end ZeroRun

/-! ## Frame by frame -/

theorem Delivers.append {ds es : List Bytes} {is : List UdpInput} (h : Delivers (ds ++ es) is) :
    ∃ is₁ is₂, is = is₁ ++ is₂ ∧ Delivers ds is₁ ∧ Delivers es is₂ :=
  ⟨_, _, (List.take_append_drop ds.length is).symm, List.forall₂_take_append is ds es h,
    List.forall₂_drop_append is ds es h⟩

theorem delivers_map (ds : List Bytes) (now : Int) : Delivers ds (ds.map (.datagram · now)) :=
  List.forall₂_map_left_iff.2 (List.forall₂_same.2 fun _ _ => ⟨now, rfl⟩)

theorem Delivers.singleton {d : Bytes} {is : List UdpInput} (h : Delivers [d] is) :
    ∃ now, is = [.datagram d now] := by
  obtain ⟨i, is', ⟨now, rfl⟩, hnil, rfl⟩ := List.forall₂_cons_right_iff.1 h
  exact ⟨now, by rw [List.forall₂_nil_right_iff.1 hnil]⟩

section Frame

variable {cfg : ServerConfig} {f : EncodedFrame} {arrivals : List UdpInput}

/-- The header counts no fragments when the count, or the count and the parity's, is a multiple
of `2 ^ 16`. -/
theorem zeroCount_datagrams
    (hK : fragmentCount cfg f.data.length % 65536 = 0 ∨
      fragmentCount cfg f.data.length % 65536 = 65535) :
    ZeroCount (toUInt32 f.frameId) (datagrams cfg f) := fun d hd => by
  refine ⟨isMedia_of_mem_datagrams hd, groupId_of_mem_datagrams hd, ?_⟩
  rw [fragmentCnt_of_mem_datagrams hd, toNat_dataCount]
  split_ifs <;> omega

theorem bare_of_isEmpty (hempty : rx.groups.isEmpty = true) (gid : UInt32) : Bare gid rx :=
  fun g hg => by
    rw [TreeMap.getElem?_of_isEmpty hempty] at hg
    cases hg

theorem fragmentSeq_ne_fec (hK : fragmentCount cfg f.data.length ≤ 65535) :
    ∀ d ∈ (List.range (fragmentCount cfg f.data.length)).map (dataDatagram cfg f),
      (UdpHeader.read d).fragmentSeq ≠ UdpHeader.kFecSeq := by
  intro d hd
  obtain ⟨i, hi, rfl⟩ := List.mem_map.1 hd
  rw [fragmentSeq_dataDatagram, Ne, ← UInt16.toNat_inj, UInt16.toNat_ofNat',
    show UdpHeader.kFecSeq.toNat = 65535 from rfl]
  have := List.mem_range.1 hi
  omega

theorem trace_of_65535 (hempty : rx.groups.isEmpty = true)
    (hK : fragmentCount cfg f.data.length = 65535) (hd : Delivers (datagrams cfg f) arrivals) :
    (∃ capture a now, a.frameId = toUInt32 f.frameId ∧
      Runs.trace step rx arrivals = .finish a (rx.jb.push a.frameId capture (some a) now).2.1 ::
          (rx.jb.push a.frameId capture (some a) now).2.2.map .jb) ∧
      (Runs.after step rx arrivals).groups.isEmpty = true ∧
      (Runs.Along step HasRoom rx arrivals ↔ rx.jb.RoomFor (toUInt32 f.frameId)) := by
  have hz : ZeroCount (toUInt32 f.frameId) (datagrams cfg f) :=
    zeroCount_datagrams (.inr (by rw [hK]))
  obtain ⟨is, last, rfl, hdata, hlast⟩ := hd.append
  obtain ⟨now, rfl⟩ := hlast.singleton
  obtain ⟨hm, hgid, hcnt⟩ := hz (fecDatagram cfg f) (mem_datagrams.2 (.inr rfl))
  obtain ⟨htr, hjb, hbare, hother, hroom⟩ := trace_zero (bare_of_isEmpty hempty _)
    (fun d h => hz d (List.mem_append_left _ h)) hdata (fragmentSeq_ne_fec hK.le)
  rw [← hgid] at hbare
  obtain ⟨capture, a, hid, hgr, heff⟩ :=
    step_zero_fec now hbare hm hcnt fragmentSeq_fecDatagram
  rw [hgid] at hid hgr
  rw [hjb] at heff
  refine ⟨⟨capture, a, now, hid, ?_⟩, ?_, ?_⟩
  · rw [Runs.trace_append, htr, List.nil_append, Runs.trace_cons, Runs.trace_nil,
      List.append_nil, heff]
  · rw [Runs.after_append, Runs.after_cons, Runs.after_nil, hgr,
      TreeMap.isEmpty_iff_forall_not_mem]
    intro k hk
    rw [TreeMap.mem_iff_isSome_getElem?, TreeMap.getElem?_erase] at hk
    split_ifs at hk with hkid
    · cases hk
    · rw [hother k (fun e => hkid (by simp [e])), TreeMap.getElem?_of_isEmpty hempty] at hk
      cases hk
  · rw [Runs.along_append, Runs.along_cons]
    constructor
    · intro h
      obtain ⟨-, hlast, -⟩ := h
      simp only [HasRoom, hgid, hjb] at hlast
      exact hlast
    · intro h
      refine ⟨hroom h, ?_, trivial⟩
      simp only [HasRoom, hgid, hjb]
      exact h

/-- A frame of `2 ^ 16` fragments or more has a fragment that is taken for the parity, and is
finished by both. -/
theorem two_finishes (hempty : rx.groups.isEmpty = true)
    (hz : ZeroCount (toUInt32 f.frameId) (datagrams cfg f))
    (hK : 65536 ≤ fragmentCount cfg f.data.length) (hd : Delivers (datagrams cfg f) arrivals) :
    2 ≤ (finishes (Runs.trace step rx arrivals)).length := by
  rw [length_finishes_zero (bare_of_isEmpty hempty _) hz hd, datagrams, List.countP_append,
    List.countP_singleton, fragmentSeq_fecDatagram, beq_self_eq_true, if_pos rfl]
  have : 0 < ((List.range (fragmentCount cfg f.data.length)).map (dataDatagram cfg f)).countP
      fun d => (UdpHeader.read d).fragmentSeq == UdpHeader.kFecSeq := by
    refine List.countP_pos_iff.2 ⟨dataDatagram cfg f 65535, ?_, ?_⟩
    · exact List.mem_map.2 ⟨65535, List.mem_range.2 (by omega), rfl⟩
    · rw [fragmentSeq_dataDatagram]
      rfl
  omega

theorem clean_frame_iff (hi : Incomplete rx) (hempty : rx.groups.isEmpty = true)
    (hd : Delivers (datagrams cfg f) arrivals) :
    ((∀ e ∈ Runs.trace step rx arrivals, ¬ Alarm e) ∧
      (finishes (Runs.trace step rx arrivals)).map (·.frameId) = [toUInt32 f.frameId] ∧
      (Runs.after step rx arrivals).groups.isEmpty = true) ↔
    fragmentCount cfg f.data.length = 65535 ∧ Runs.Along step HasRoom rx arrivals := by
  by_cases hK : fragmentCount cfg f.data.length = 65535
  · obtain ⟨⟨capture, a, now, hid, htr⟩, hgr, hroom⟩ := trace_of_65535 hempty hK hd
    rw [hroom, JitterBuffer.roomFor_iff _ capture now (some a), ← hid,
      htr, finishes_finish, finishes_jb]
    simp only [hgr, hK, hid, and_true, true_and, List.map_cons, List.map_nil]
    constructor
    · intro h n hn
      exact h (.jb (.lost n)) (List.mem_cons_of_mem _ (List.mem_map.2 ⟨_, hn, rfl⟩)) trivial
    · intro h e he halarm
      rcases List.mem_cons.1 he with rfl | he
      · exact halarm
      · obtain ⟨ev, hev, rfl⟩ := List.mem_map.1 he
        cases ev with
        | lost n => exact h n hev
        | missing s => exact halarm
        | nackRequested => exact halarm
  · refine iff_of_false ?_ fun h => hK h.1
    intro h
    obtain ⟨hquiet, hfin, hgroups⟩ := h
    have hfec : fecDatagram cfg f ∈ datagrams cfg f := mem_datagrams.2 (.inr rfl)
    by_cases hzero : fragmentCount cfg f.data.length % 65536 = 0 ∨
        fragmentCount cfg f.data.length % 65536 = 65535
    · have hpos := fragmentCount_pos cfg f.data.length
      have htwo := two_finishes hempty (zeroCount_datagrams hzero) (by omega) hd
      have hone := congrArg List.length hfin
      simp only [List.length_map, List.length_singleton] at hone
      omega
    · -- The header counts fragments, so the parity opens the group again.
      have hcnt : (dataCount (UdpHeader.read (fecDatagram cfg f)).fragmentCnt).toNat ≠ 0 := by
        rw [fragmentCnt_of_mem_datagrams hfec, toNat_dataCount]
        split_ifs <;> omega
      obtain ⟨is, last, rfl, -, hlast⟩ := hd.append
      obtain ⟨now, rfl⟩ := hlast.singleton
      rcases parity_alarm (hi.run is) (isMedia_of_mem_datagrams hfec) fragmentSeq_fecDatagram hcnt
        now with ⟨e, he, halarm⟩ | hne
      · refine hquiet e ?_ halarm
        rw [Runs.trace_append]
        exact List.mem_append_right _ (by simpa using he)
      · rw [Runs.after_append, Runs.after_cons, Runs.after_nil, hne] at hgroups
        cases hgroups

theorem cleanLink_iff_of_empty (hi : Incomplete rx) (hempty : rx.groups.isEmpty = true)
    {link : List (EncodedFrame × List UdpInput)}
    (hd : ∀ x ∈ link, Delivers (datagrams cfg x.1) x.2) :
    CleanLink rx link ↔ (∀ x ∈ link, fragmentCount cfg x.1.data.length = 65535) ∧
      Runs.Along step HasRoom rx (link.flatMap Prod.snd) := by
  induction link generalizing rx with
  | nil => simp [CleanLink]
  | cons x link ih =>
    obtain ⟨f, arrivals⟩ := x
    have hframe := clean_frame_iff hi hempty (hd (f, arrivals) List.mem_cons_self)
    have ih' := fun hgr => ih (hi.run arrivals) hgr fun y hy => hd y (List.mem_cons_of_mem _ hy)
    rw [List.flatMap_cons, Runs.along_append, List.forall_mem_cons]
    constructor
    · intro h
      obtain ⟨hquiet, hfin, hgr, hrest⟩ := h
      obtain ⟨hK, hroom⟩ := hframe.1 ⟨hquiet, hfin, hgr⟩
      obtain ⟨hKs, hrooms⟩ := (ih' hgr).1 hrest
      exact ⟨⟨hK, hKs⟩, hroom, hrooms⟩
    · intro h
      obtain ⟨⟨hK, hKs⟩, hroom, hrooms⟩ := h
      obtain ⟨hquiet, hfin, hgr⟩ := hframe.2 ⟨hK, hroom⟩
      exact ⟨hquiet, hfin, hgr, (ih' hgr).2 ⟨hKs, hrooms⟩⟩

end Frame

/-- **When a clean link is quiet.** Frames are sent one after the other, and their datagrams
arrive in order, each once: there is no alarm, every frame is finished once and no group is left
behind, if and only if every frame is cut into 65535 fragments and there is room for it in the
jitter buffer. -/
theorem clean_link_iff (srv srv' : UdpServer) (link : List (EncodedFrame × List UdpInput))
    (outs : List (List Bytes)) (hsend : srv.sendFrames (link.map Prod.fst) = some (srv', outs))
    (hdel : List.Forall₂ (fun out x => Delivers out x.2) outs link) :
    CleanLink {} link ↔
      (∀ x ∈ link, fragmentCount srv.cfg x.1.data.length = 65535) ∧
        Runs.Along step HasRoom {} (link.flatMap Prod.snd) := by
  apply cleanLink_iff_of_empty (fun k g hg => by simp at hg) rfl
  intro x hx
  rw [sendFrames_eq_some hsend, List.map_map, List.forall₂_map_left_iff,
    List.forall₂_same] at hdel
  exact hdel x hx

/-- A frame of one fragment is finished twice. -/
theorem clean_link_one_fragment :
    ¬ CleanLink {} [(abc, (datagrams ⟨27, 8⟩ abc).map (.datagram · 1000))] := by
  obtain ⟨srv', hsend, -⟩ := exists_sendFrame (s := .start ⟨27, 8⟩) (by decide) abc
  rw [clean_link_iff (.start ⟨27, 8⟩) srv' _ [datagrams ⟨27, 8⟩ abc]
    (by simp only [List.map_cons, List.map_nil, sendFrames, hsend]; rfl)
    (.cons (delivers_map _ 1000) .nil)]
  exact fun h => absurd (h.1 _ (List.mem_singleton.2 rfl)) (by decide)

/-- A frame of two fragments leaves an entry behind: its parity opens the finished group again. -/
theorem clean_link_two_fragments :
    ∃ srv' out, (UdpServer.start ⟨26, 8⟩).sendFrame abc = some (srv', out) ∧
      (Runs.after step {} (out.map (.datagram · 1000))).groups.isEmpty = false ∧
      ¬ CleanLink {} [(abc, out.map (.datagram · 1000))] := by
  obtain ⟨srv', hsend, -⟩ := exists_sendFrame (s := .start ⟨26, 8⟩) (by decide) abc
  have hleft : (Runs.after step {}
      ((datagrams ⟨26, 8⟩ abc).map (.datagram · 1000))).groups.isEmpty = false := by
    decide +kernel
  exact ⟨srv', _, hsend, hleft, fun h => Bool.false_ne_true (hleft.symm.trans h.2.2.1)⟩

end Rtstream.UdpReceiver
