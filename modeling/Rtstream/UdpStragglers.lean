import Rtstream.UdpFragments
import Rtstream.NackManager

/-!
# Datagrams of a group that is finished

`finish` erases the group, and with it the only record that there was one. A datagram of the
group that arrives later is taken for the first one of a new group: it opens an entry, asks for
the fragments that are missing from it, or, when there is one fragment only, finishes the frame
a second time.

`stays_finished_iff`: a finished group stays finished as long as no datagram of it arrives, and no
longer.
-/

namespace Rtstream.UdpReceiver

open Std (TreeMap)
open UdpServer

variable {rx : UdpReceiver}

/-! ## What a request asks for -/

/-- The numbers of the missing fragments. -/
def missingFragments (g : Group) : List ℕ :=
  (List.range g.fragmentCnt.toNat).filter fun i => (g.frags.getD i []).isEmpty

theorem nackRecords_eq (g : Group) : nackRecords g =
    ((missingFragments g).map fun i =>
      BigEndian.store 4 g.frameId.toNat ++ BigEndian.store 2 i).flatten := by
  unfold nackRecords missingFragments
  induction List.range g.fragmentCnt.toNat with
  | nil => rfl
  | cons i is ih =>
    rw [List.map_cons, List.flatten_cons, ih, List.filter_cons]
    split <;> simp

/-- Record `k` of a request asks for the `k`-th missing fragment. -/
theorem record_nackRecords (g : Group) {k : ℕ} (hk : k < (missingFragments g).length) :
    NackManager.record (nackRecords g) k =
      (g.frameId, UInt16.ofNat (missingFragments g)[k]) := by
  have hlen : ∀ x ∈ (missingFragments g).map fun i =>
      BigEndian.store 4 g.frameId.toNat ++ BigEndian.store 2 i, x.length = 6 := by simp
  have hrec := Slices.slice_flatten hlen (k := k) (by simpa using hk)
  rw [← nackRecords_eq, List.getElem_map] at hrec
  have hgid : Slices.slice (nackRecords g) (k * 6) 4 = BigEndian.store 4 g.frameId.toNat := by
    have := congrArg (List.take 4) hrec
    rwa [Slices.slice, List.take_take, List.take_left' (by simp)] at this
  have hseq : Slices.slice (nackRecords g) (k * 6 + 4) 2 =
      BigEndian.store 2 (missingFragments g)[k] := by
    have := congrArg (List.drop 4) hrec
    rwa [Slices.slice, List.drop_take, List.drop_drop, List.drop_left' (by simp)] at this
  simp only [NackManager.record, UdpHeader.field, hgid, hseq, BigEndian.uint32_load_store]
  exact Prod.ext rfl (UInt16.toNat_inj.1 (by simp [BigEndian.load_store]))

theorem length_nackRecords (g : Group) :
    (nackRecords g).length = (missingFragments g).length * 6 := by
  rw [nackRecords_eq, Slices.length_flatten_of_length (n := 6) (by simp), List.length_map]

/-! ## After the end of a group -/

/-- The NACK datagram has a record for group `gid`. -/
def asksFor (gid : UInt32) (pkt : Bytes) : Prop :=
  ∃ k < (pkt.drop UdpHeader.kSize).length / 6,
    (NackManager.record (pkt.drop UdpHeader.kSize) k).1 = gid

/-- A step brings group `gid` back: it finishes it, recovers it, asks for it or leaves an entry
for it. -/
def Revives (gid : UInt32) (rx : UdpReceiver) (i : UdpInput) : Prop :=
  (∃ a ∈ finishes (step rx i).2, a.frameId = gid) ∨
    (MediaOf gid i ∧ .fecRecovered ∈ (step rx i).2) ∨
    (∃ pkt, .nack pkt ∈ (step rx i).2 ∧ asksFor gid pkt) ∨
    (step rx i).1.groups[gid]? ≠ none

/-- A group asks for its own fragments only. -/
theorem asksFor_sendNack {g : Group} {pkt : Bytes} (h : UdpEffect.nack pkt ∈ sendNack g)
    {gid : UInt32} (hgid : asksFor gid pkt) : g.frameId = gid := by
  simp only [sendNack] at h
  split at h
  · cases h
  · obtain rfl := UdpEffect.nack.inj (List.mem_singleton.1 h)
    obtain ⟨k, hk, hrec⟩ := hgid
    rw [UdpHeader.drop_write, length_nackRecords, Nat.mul_div_cancel _ (by omega)] at hk
    rw [UdpHeader.drop_write, record_nackRecords g hk] at hrec
    exact hrec

theorem tryFinalize_erases (g : Group) (now : Int)
    (h : finishes (rx.tryFinalize g now).2 ≠ []) :
    (rx.tryFinalize g now).1.groups[g.frameId]? = none := by
  cases hc : complete g with
  | true =>
    rw [tryFinalize_of_complete rx now hc, finish_groups]
    exact TreeMap.getElem?_erase_self
  | false =>
    cases hr : recoverGroup g with
    | some g' =>
      rw [tryFinalize_of_recovered rx now hc hr, finish_groups, recoverGroup_frameId hr]
      exact TreeMap.getElem?_erase_self
    | none =>
      rw [tryFinalize_of_missing rx now hc hr, finishes_requestMissing] at h
      exact absurd rfl h

theorem step_erases (hk : rx.Keyed) {i : UdpInput} {a : UdpAssembled}
    (h : a ∈ finishes (step rx i).2) : (step rx i).1.groups[a.frameId]? = none := by
  cases i with
  | pop now =>
    rw [show finishes (step rx (.pop now)).2 = [] from finishes_popUnit rx now] at h
    cases h
  | datagram buf now =>
    change a ∈ finishes (rx.recv buf now).2 at h
    show (rx.recv buf now).1.groups[a.frameId]? = none
    by_cases hm : IsMedia buf
    · rw [recv_of_media rx hm] at h ⊢
      rw [onMedia_finishes _ _ now hk h]
      cases hu : rx.updated (UdpHeader.read buf) (buf.drop UdpHeader.kSize) now with
      | none =>
        rw [onMedia_of_not_updated _ _ _ hu] at h
        cases h
      | some g =>
        rw [onMedia_of_updated _ _ _ hu] at h ⊢
        rw [← updated_frameId _ _ _ hk hu]
        exact tryFinalize_erases g now (List.ne_nil_of_mem h)
    · rcases (recv_of_not_media rx hm now).2 with he | ⟨json, he⟩ <;> rw [he] at h <;> cases h

theorem updated_firstRecvUs {h : UdpHeader} {payload : Bytes} {now : Int}
    (hnone : rx.groups[h.groupId]? = none) {g : Group}
    (hu : rx.updated h payload now = some g) : g.firstRecvUs = now := by
  rw [firstRecvUs_of_updated h payload now hu]
  simp [groupOf, hnone, openGroup]

theorem media_revives (hk : rx.Keyed) {gid : UInt32} (hnone : rx.groups[gid]? = none)
    {i : UdpInput} (hm : MediaOf gid i) : Revives gid rx i := by
  cases i with
  | pop now => exact absurd hm id
  | datagram buf now =>
    obtain ⟨hmedia, rfl⟩ := hm
    have hstep : step rx (.datagram buf now) =
        rx.onMedia (UdpHeader.read buf) (buf.drop UdpHeader.kSize) now :=
      recv_of_media rx hmedia now
    unfold Revives
    rw [hstep]
    cases hu : rx.updated (UdpHeader.read buf) (buf.drop UdpHeader.kSize) now with
    | none =>
      -- Out of range: the entry stays.
      rw [onMedia_of_not_updated _ _ _ hu]
      refine .inr (.inr (.inr ?_))
      simp
    | some g =>
      have hid := updated_frameId _ _ _ hk hu
      rw [onMedia_of_updated _ _ _ hu]
      cases hc : complete g with
      | true =>
        rw [tryFinalize_of_complete _ now hc, finishes_finish_step]
        exact .inl ⟨assembled g, List.mem_singleton.2 rfl, hid⟩
      | false =>
        cases hr : recoverGroup g with
        | some g' =>
          rw [tryFinalize_of_recovered _ now hc hr, finishes_fecRecovered, finishes_finish_step]
          exact .inl ⟨assembled g', List.mem_singleton.2 rfl, (recoverGroup_frameId hr).trans hid⟩
        | none =>
          -- The group is new, so it is not given up.
          rw [tryFinalize_of_missing _ now hc hr]
          have hrecent : now - g.firstRecvUs ≤ 250 * 1000 := by
            rw [updated_firstRecvUs hnone hu]
            omega
          rw [requestMissing_of_recent _ hrecent, hid]
          refine .inr (.inr (.inr ?_))
          simp

theorem other_not_revives (hk : rx.Keyed) {gid : UInt32} (hnone : rx.groups[gid]? = none)
    {i : UdpInput} (hm : ¬ MediaOf gid i) : ¬ Revives gid rx i := by
  obtain ⟨hgr, hfin⟩ := step_other hk hm
  intro h
  obtain ⟨a, ha, hid⟩ | ⟨hmedia, -⟩ | ⟨pkt, hpkt, hasks⟩ | hne := h
  · exact hfin a ha hid
  · exact hm hmedia
  · cases i with
    | pop now =>
      rcases popUnit_effects rx hpkt with ⟨f, hf⟩ | ⟨ev, hev⟩
      · cases hf
      · cases hev
    | datagram buf now =>
      change UdpEffect.nack pkt ∈ (rx.recv buf now).2 at hpkt
      by_cases hmedia : IsMedia buf
      · rw [recv_of_media rx hmedia] at hpkt
        obtain ⟨g, hid, hmem⟩ := onMedia_nack _ _ now hk hpkt
        exact hm ⟨hmedia, hid.symm.trans (asksFor_sendNack hmem hasks)⟩
      · rcases (recv_of_not_media rx hmedia now).2 with he | ⟨json, he⟩ <;> rw [he] at hpkt <;>
          simp at hpkt
  · exact hne (hgr.trans hnone)

theorem along_not_revives_iff (hk : rx.Keyed) {gid : UInt32} (hnone : rx.groups[gid]? = none)
    (is : List UdpInput) :
    Runs.Along step (fun rx i => ¬ Revives gid rx i) rx is ↔ ∀ i ∈ is, ¬ MediaOf gid i := by
  induction is generalizing rx with
  | nil => simp
  | cons i is ih =>
    rw [Runs.along_cons, List.forall_mem_cons]
    by_cases hm : MediaOf gid i
    · exact iff_of_false (fun h => h.1 (media_revives hk hnone hm)) fun h => h.1 hm
    · rw [ih (hk.step i) ((step_other hk hm).1.trans hnone)]
      exact and_congr_left' (iff_of_true (other_not_revives hk hnone hm) hm)

/-- **A finished group stays finished** as long as none of its datagrams arrives, and no
longer. -/
theorem stays_finished_iff (history : List UdpInput) (i : UdpInput) (a : UdpAssembled)
    (hfin : a ∈ finishes (step (Runs.after step {} history) i).2) (is : List UdpInput) :
    Runs.Along step (fun rx j => ¬ Revives a.frameId rx j)
      (Runs.after step {} (history ++ [i])) is ↔
      ∀ j ∈ is, ¬ MediaOf a.frameId j := by
  have hk := keyed_fresh.run history
  refine along_not_revives_iff (keyed_fresh.run _) ?_ is
  rw [Runs.after_append]
  exact step_erases hk hfin

/-- The parity of a frame of one fragment arrives after the fragment. -/
theorem parity_revives :
    ¬ Runs.Along step (fun rx j => ¬ Revives 7 rx j)
      (Runs.after step {} [.datagram (dataDatagram ⟨27, 8⟩ abc 0) 1000])
      [.datagram (fecDatagram ⟨27, 8⟩ abc) 1000] := by
  have h := stays_finished_iff [] (.datagram (dataDatagram ⟨27, 8⟩ abc 0) 1000)
    ⟨7, 5000000, true, [1, 2, 3]⟩ (by decide +kernel) [.datagram (fecDatagram ⟨27, 8⟩ abc) 1000]
  exact fun halong => h.1 halong _ (List.mem_singleton.2 rfl) (by unfold MediaOf; decide +kernel)

/-- The datagrams of one frame, delivered once and in order, finish it twice. -/
theorem finished_twice :
    ∃ srv' out, (UdpServer.start ⟨27, 8⟩).sendFrame abc = some (srv', out) ∧
      (finishes (Runs.trace step {} (out.map (.datagram · 1000)))).map (·.frameId) = [7, 7] ∧
      .fecRecovered ∈ Runs.trace step {} (out.map (.datagram · 1000)) := by
  obtain ⟨srv', hsend, -⟩ := exists_sendFrame (s := .start ⟨27, 8⟩) (by decide) abc
  exact ⟨srv', _, hsend, by decide +kernel, by decide +kernel⟩

end Rtstream.UdpReceiver
