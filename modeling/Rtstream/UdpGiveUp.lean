import Rtstream.UdpReceiverSpec
import Rtstream.Lib.OrderedMap

/-!
# Giving up stale groups

A group that lacks fragments is given up 250 ms after its first datagram. The receiver looks at
the time only when it handles a datagram of the group itself, and only when it tries to finish it.
So a group none of whose datagrams arrives any more stays for good.

* `gives_up_iff`: after every media packet no stale group is left if and only if, before it, no
  other group was stale, and its own was not or the packet is one that it can use. What is given up
  is counted as lost exactly once. And where no stale group is left, no more groups are held than
  frames were started in the last 250 ms.

All of this is said of the groups of some kind `p`: of all of them, or of those that are incomplete.
-/

namespace Rtstream

open Std (TreeMap)

/-- The group was first heard of more than 250 ms ago. -/
def Group.Stale (g : Group) (now : Int) : Prop := now - g.firstRecvUs > 250 * 1000

instance (g : Group) (now : Int) : Decidable (g.Stale now) := inferInstanceAs (Decidable (_ > _))

namespace UdpReceiver

/-- After a media packet no stale group of kind `p` is left. -/
def GivesUp (p : Group → Bool) (rx : UdpReceiver) : UdpInput → Prop
  | .datagram buf now => IsMedia buf →
      ∀ (k : UInt32) (g : Group), (step rx (.datagram buf now)).1.groups[k]? = some g →
        p g = true → ¬ g.Stale now
  | .pop _ => True

/-- When a media packet arrives, no other group of kind `p` is stale; and when its own is, the
packet is the parity or a fragment of it. -/
def Timely (p : Group → Bool) (rx : UdpReceiver) : UdpInput → Prop
  | .datagram buf now => IsMedia buf →
      ∀ (k : UInt32) (g : Group), rx.groups[k]? = some g → p g = true → g.Stale now →
        k = (UdpHeader.read buf).groupId ∧
          (g.frags = [] ∨ (UdpHeader.read buf).fragmentSeq = UdpHeader.kFecSeq ∨
            (UdpHeader.read buf).fragmentSeq < g.fragmentCnt)
  | .pop _ => True

/-- `Metrics::net_lost += n` in `try_finalize`. -/
def lostCount : UdpEffect → Option ℕ
  | .lost n => some n
  | _ => none

/-- The group that a step gives up: its entry goes, and no frame is finished. -/
def givenUp (rx : UdpReceiver) : UdpInput → List Group
  | .datagram buf now =>
    if IsMedia buf ∧ (step rx (.datagram buf now)).1.groups[(UdpHeader.read buf).groupId]? = none ∧
        finishes (step rx (.datagram buf now)).2 = [] then
      (rx.updated (UdpHeader.read buf) (buf.drop UdpHeader.kSize) now).toList
    else []
  | .pop _ => []

/-- The frame that a media packet starts, with the time: its group has no fragments yet. -/
def startedBy (rx : UdpReceiver) : UdpInput → List (UInt32 × Int)
  | .datagram buf now =>
    if IsMedia buf ∧ (rx.groups[(UdpHeader.read buf).groupId]?.getD {}).frags = [] then
      [((UdpHeader.read buf).groupId, now)]
    else []
  | .pop _ => []

/-- How many groups of kind `p` are held. -/
def held (p : Group → Bool) (rx : UdpReceiver) : ℕ := rx.groups.toList.countP fun kg => p kg.2

/-- How many frames a run started in the 250 ms before `now`. -/
def startedWithin (is : List UdpInput) (now : Int) : ℕ :=
  (Runs.collect step startedBy {} is).countP fun s => now - s.2 ≤ 250 * 1000

variable {rx : UdpReceiver} {p : Group → Bool}

/-! ## One media packet -/

/-- A group that was just opened is not stale. -/
theorem groupOf_not_stale {h : UdpHeader} {capture now : Int}
    (hopen : (rx.groups[h.groupId]?.getD {}).frags = []) :
    ¬ (rx.groupOf h capture now).Stale now := by
  simp only [groupOf, hopen, List.isEmpty_nil, if_true, Group.Stale, openGroup]
  omega

theorem groupOf_of_frags {h : UdpHeader} {g : Group} (hg : rx.groups[h.groupId]? = some g)
    (hfrags : g.frags ≠ []) (capture now : Int) : rx.groupOf h capture now = g := by
  rw [groupOf, hg, Option.getD_some, if_neg (by simpa using hfrags)]

section OnMedia

variable (hk : rx.Keyed) {h : UdpHeader} {payload : Bytes} {now : Int}

theorem entry_of_not_updated (hu : rx.updated h payload now = none) :
    (rx.onMedia h payload now).1.groups[h.groupId]? =
      some (rx.groupOf h (extendLow32 rx.lastCaptureUs now h.captureUsLo) now) := by
  rw [onMedia_of_not_updated h payload now hu]
  exact TreeMap.getElem?_insert_self

/-- When is a packet out of range of a group that has its fragments? -/
theorem updated_eq_none_iff {g : Group} (hg : rx.groups[h.groupId]? = some g)
    (hfrags : g.frags ≠ []) : rx.updated h payload now = none ↔
      ¬ (h.fragmentSeq = UdpHeader.kFecSeq ∨ h.fragmentSeq < g.fragmentCnt) := by
  rw [updated, groupOf_of_frags hg hfrags]
  split_ifs with hfec hrange
  · simp [hfec]
  · simp [hrange]
  · simp [hfec, hrange]

include hk

theorem entry_not_stale {g g' : Group} (hu : rx.updated h payload now = some g)
    (hg' : (rx.onMedia h payload now).1.groups[h.groupId]? = some g') : ¬ g'.Stale now := by
  rw [onMedia_of_updated h payload now hu, ← updated_frameId h payload now hk hu] at hg'
  obtain ⟨-, -, hrecent, rfl⟩ := kept_of_tryFinalize _ hg'
  exact Int.not_lt.2 hrecent

theorem firstRecvUs_of_entry {g : Group}
    (hg : (rx.onMedia h payload now).1.groups[h.groupId]? = some g) : g.firstRecvUs =
      (rx.groupOf h (extendLow32 rx.lastCaptureUs now h.captureUsLo) now).firstRecvUs := by
  cases hu : rx.updated h payload now with
  | none =>
    rw [entry_of_not_updated hu] at hg
    rw [Option.some.inj hg]
  | some g₁ =>
    rw [onMedia_of_updated h payload now hu, ← updated_frameId h payload now hk hu] at hg
    obtain ⟨-, -, -, hkept⟩ := kept_of_tryFinalize _ hg
    rw [← firstRecvUs_of_updated h payload now hu, hkept]

/-- **The packet's own group is stale afterwards** if and only if it was, and the packet is out of
range of it. -/
theorem own_stale_iff {g : Group} :
    (rx.onMedia h payload now).1.groups[h.groupId]? = some g ∧ g.Stale now ↔
      rx.groups[h.groupId]? = some g ∧ g.Stale now ∧ g.frags ≠ [] ∧
        ¬ (h.fragmentSeq = UdpHeader.kFecSeq ∨ h.fragmentSeq < g.fragmentCnt) := by
  constructor
  · intro hafter
    obtain ⟨hg, hstale⟩ := hafter
    cases hu : rx.updated h payload now with
    | some g₀ => exact absurd hstale (entry_not_stale hk hu hg)
    | none =>
      rw [entry_of_not_updated hu] at hg
      obtain rfl := Option.some.inj hg
      cases hg₀ : rx.groups[h.groupId]? with
      | none => exact absurd hstale (groupOf_not_stale (by rw [hg₀]; rfl))
      | some g₀ =>
        by_cases hfrags : g₀.frags = []
        · exact absurd hstale (groupOf_not_stale (by rw [hg₀]; exact hfrags))
        · rw [groupOf_of_frags hg₀ hfrags] at hstale ⊢
          exact ⟨rfl, hstale, hfrags, (updated_eq_none_iff hg₀ hfrags).1 hu⟩
  · intro hbefore
    obtain ⟨hg, hstale, hfrags, hout⟩ := hbefore
    refine ⟨?_, hstale⟩
    rw [entry_of_not_updated ((updated_eq_none_iff hg hfrags).2 hout), groupOf_of_frags hg hfrags]

end OnMedia

/-- **One media packet** leaves no stale group if and only if it is timely. -/
theorem gives_up_step_iff (hk : rx.Keyed) (i : UdpInput) : GivesUp p rx i ↔ Timely p rx i := by
  cases i with
  | pop now => exact Iff.rfl
  | datagram buf now =>
    refine imp_congr_right fun hm => ?_
    set h := UdpHeader.read buf
    have hothers := (onMedia_groups h (buf.drop UdpHeader.kSize) now hk).1
    rw [show step rx (.datagram buf now) = rx.onMedia h (buf.drop UdpHeader.kSize) now from
      recv_of_media rx hm now]
    constructor
    · intro hgone k g hg hp hstale
      have hkid : k = h.groupId := by
        by_contra hne
        exact hgone k g ((hothers k hne).trans hg) hp hstale
      refine ⟨hkid, ?_⟩
      rw [hkid] at hg
      by_contra hout
      obtain ⟨hfrags, hrange⟩ := not_or.1 hout
      obtain ⟨hafter, -⟩ := (own_stale_iff hk).2 ⟨hg, hstale, hfrags, hrange⟩
      exact hgone h.groupId g hafter hp hstale
    · intro htimely k g hg hp hstale
      by_cases hkid : k = h.groupId
      · subst hkid
        obtain ⟨hbefore, -, hfrags, hout⟩ := (own_stale_iff hk).1 ⟨hg, hstale⟩
        obtain ⟨-, hempty | hin⟩ := htimely h.groupId g hbefore hp hstale
        · exact hfrags hempty
        · exact hout hin
      · exact hkid (htimely k g ((hothers k hkid).symm.trans hg) hp hstale).1

/-! ## What is given up is counted as lost -/

theorem lostCount_sendNack (g : Group) : (sendNack g).filterMap lostCount = [] := by
  simp only [sendNack]
  split <;> rfl

theorem lostCount_finish (g : Group) (now : Int) :
    (rx.finish g now).2.filterMap lostCount = [] := by
  simp [finish, lostCount, List.filterMap_cons]

/-- What `try_finalize` counts as lost is what is missing from a group that it drops unfinished. -/
theorem lost_tryFinalize (g : Group) (now : Int) :
    (rx.tryFinalize g now).2.filterMap lostCount =
      if (rx.tryFinalize g now).1.groups[g.frameId]? = none ∧
        finishes (rx.tryFinalize g now).2 = [] then [missingCount g] else [] := by
  cases hc : complete g with
  | true =>
    rw [tryFinalize_of_complete rx now hc, lostCount_finish, finishes_finish_step, if_neg]
    exact fun h => List.cons_ne_nil _ _ h.2
  | false =>
    cases hr : recoverGroup g with
    | some g₁ =>
      rw [tryFinalize_of_recovered rx now hc hr, finishes_fecRecovered, finishes_finish_step,
        if_neg]
      · exact lostCount_finish g₁ now
      · exact fun h => List.cons_ne_nil _ _ h.2
    | none =>
      rw [tryFinalize_of_missing rx now hc hr, finishes_requestMissing]
      by_cases hstale : g.Stale now
      · obtain ⟨hgone, asks, hasks, heffects⟩ := requestMissing_of_old rx hstale
        have hnone : asks.filterMap lostCount = [] := by
          rcases hasks with rfl | rfl
          · rfl
          · exact lostCount_sendNack _
        rw [hgone, heffects, List.filterMap_append, hnone, if_pos]
        · rfl
        · exact ⟨TreeMap.getElem?_erase_self, rfl⟩
      · have hkept : ¬ ((rx.requestMissing g now).1.groups[g.frameId]? = none ∧
            ([] : List UdpAssembled) = []) := by
          rw [requestMissing_of_recent rx (Int.not_lt.1 hstale), TreeMap.getElem?_insert_self]
          exact fun h => Option.some_ne_none _ h.1
        have hrecent : ¬ now - g.firstRecvUs > 250 * 1000 := hstale
        rw [if_neg hkept]
        simp only [requestMissing]
        split_ifs
        · exact lostCount_sendNack _
        · rfl

/-- **What a step counts as lost** is what is missing from the group that it gives up. -/
theorem lost_step (hk : rx.Keyed) (i : UdpInput) :
    (step rx i).2.filterMap lostCount = (givenUp rx i).map missingCount := by
  cases i with
  | pop now =>
    rw [givenUp, List.map_nil, List.filterMap_eq_nil_iff]
    intro e he
    rcases popUnit_effects rx he with ⟨f, rfl⟩ | ⟨ev, rfl⟩ <;> rfl
  | datagram buf now =>
    by_cases hm : IsMedia buf
    · have hstep : step rx (.datagram buf now) =
          rx.onMedia (UdpHeader.read buf) (buf.drop UdpHeader.kSize) now := recv_of_media rx hm now
      rw [givenUp, hstep]
      cases hu : rx.updated (UdpHeader.read buf) (buf.drop UdpHeader.kSize) now with
      | none =>
        rw [onMedia_of_not_updated _ _ _ hu, Option.toList_none, ite_self]
        rfl
      | some g =>
        rw [onMedia_of_updated _ _ _ hu, lost_tryFinalize, updated_frameId _ _ _ hk hu]
        simp only [hm, true_and, Option.toList_some]
        split_ifs <;> rfl
    · rw [givenUp, if_neg fun h => hm h.1]
      rcases (recv_of_not_media rx hm now).2 with he | ⟨json, he⟩
      · rw [show (step rx (.datagram buf now)).2 = [] from he]
        rfl
      · rw [show (step rx (.datagram buf now)).2 = [.remoteJson json] from he]
        rfl

/-! ## How many groups are held -/

/-- Every group that is held was started at the time it remembers. -/
def Started (rx : UdpReceiver) (starts : List (UInt32 × Int)) : Prop :=
  ∀ (k : UInt32) (g : Group), rx.groups[k]? = some g → (k, g.firstRecvUs) ∈ starts

theorem Started.step (hk : rx.Keyed) {starts : List (UInt32 × Int)} (hs : Started rx starts)
    (i : UdpInput) : Started (UdpReceiver.step rx i).1 (starts ++ startedBy rx i) := by
  cases i with
  | pop now => exact fun k g hg => List.mem_append_left _ (hs k g hg)
  | datagram buf now =>
    intro k g hg
    by_cases hm : IsMedia buf
    · set h := UdpHeader.read buf with hh
      rw [show UdpReceiver.step rx (.datagram buf now) =
        rx.onMedia h (buf.drop UdpHeader.kSize) now from recv_of_media rx hm now] at hg
      by_cases hkid : k = h.groupId
      · subst hkid
        have hfirst := firstRecvUs_of_entry hk hg
        by_cases hopen : (rx.groups[h.groupId]?.getD {}).frags = []
        · have hnow : g.firstRecvUs = now := by
            rw [hfirst]
            simp [groupOf, hopen, openGroup]
          rw [startedBy, if_pos ⟨hm, hopen⟩, hnow]
          exact List.mem_append_right _ (List.mem_singleton.2 rfl)
        · cases hg₀ : rx.groups[h.groupId]? with
          | none => exact absurd (by rw [hg₀]; rfl) hopen
          | some g₀ =>
            rw [hg₀] at hopen
            rw [groupOf_of_frags hg₀ hopen] at hfirst
            rw [hfirst]
            exact List.mem_append_left _ (hs h.groupId g₀ hg₀)
      · rw [(onMedia_groups h (buf.drop UdpHeader.kSize) now hk).1 k hkid] at hg
        exact List.mem_append_left _ (hs k g hg)
    · rw [show (UdpReceiver.step rx (.datagram buf now)).1.groups = rx.groups from
        (recv_of_not_media rx hm now).1] at hg
      exact List.mem_append_left _ (hs k g hg)

theorem started_run (is : List UdpInput) :
    Started (Runs.after step {} is) (Runs.collect step startedBy {} is) := by
  have hfresh : ({} : UdpReceiver).Keyed ∧ Started {} [] :=
    ⟨keyed_fresh, fun k g hg => by simp at hg⟩
  exact (Runs.collect_history (I := fun rx starts => rx.Keyed ∧ Started rx starts)
    (fun rx starts i hs => ⟨hs.1.step i, hs.2.step hs.1 i⟩) hfresh is).2

/-- **Where no stale group is left**, no more are held than frames were started in the last
250 ms. -/
theorem held_le {is : List UdpInput} {now : Int}
    (h : ∀ (k : UInt32) (g : Group), (Runs.after step {} is).groups[k]? = some g → p g = true →
      ¬ g.Stale now) : held p (Runs.after step {} is) ≤ startedWithin is now := by
  rw [startedWithin, List.countP_eq_length_filter]
  refine OrderedMap.countP_le_length (f := fun kg : UInt32 × Group => (kg.1, kg.2.firstRecvUs))
    (fun kg kg' heq => (Prod.mk.inj heq).1) ?_
  intro k g hg hp
  refine List.mem_filter.2 ⟨started_run is k g hg, ?_⟩
  exact decide_eq_true (Int.not_lt.1 (h k g hg hp))

/-- **Stale groups are given up** in a run if and only if every media packet is timely. What is
given up is counted as lost exactly once, and where no stale group is left, no more are held than
frames were started in the last 250 ms. -/
theorem gives_up_iff (p : Group → Bool) (is : List UdpInput) :
    (Runs.Along step (GivesUp p) {} is ↔ Runs.Along step (Timely p) {} is) ∧
      (Runs.trace step {} is).filterMap lostCount =
        (Runs.collect step givenUp {} is).map missingCount ∧
      (Runs.Along step (GivesUp p) {} is → ∀ (js : List UdpInput) (buf : Bytes) (now : Int),
        js ++ [.datagram buf now] <+: is → IsMedia buf →
          held p (Runs.after step {} (js ++ [.datagram buf now])) ≤
            startedWithin (js ++ [.datagram buf now]) now) := by
  refine ⟨?_, ?_, ?_⟩
  · exact Runs.along_congr (I := Keyed) (fun _ i hk => hk.step i)
      (fun _ i hk => gives_up_step_iff hk i) keyed_fresh is
  · exact Runs.trace_filterMap_eq (I := Keyed) (fun _ i hk => ⟨hk.step i, lost_step hk i⟩)
      keyed_fresh is
  · rintro halong js buf now ⟨rest, rfl⟩ hm
    rw [Runs.along_append, Runs.along_append] at halong
    apply held_le
    rw [Runs.after_append]
    exact halong.1.2.1 hm

/-- The first of three fragments of a frame. -/
def firstFragment (gid : UInt32) : Bytes :=
  UdpHeader.write { groupId := gid, fragmentCnt := 4, frameId := gid } ++ [1]

/-- Nothing more arrives of frame 7; 300 ms later frame 8 starts. -/
def deserted : List UdpInput := [.datagram (firstFragment 7) 0, .datagram (firstFragment 8) 300000]

/-- Frame 7 is still held, and not counted as lost. -/
theorem deserted_stays :
    ¬ Runs.Along step (GivesUp fun g => !complete g) {} deserted ∧
      startedWithin deserted 300000 < held (fun g => !complete g) (Runs.after step {} deserted) ∧
      (Runs.trace step {} deserted).filterMap lostCount = [] := by
  have hstale : ((Runs.after step {} deserted).groups[(7 : UInt32)]?).any
      (fun g => !complete g && decide (g.Stale 300000)) = true := by decide +kernel
  refine ⟨?_, by decide +kernel, by decide +kernel⟩
  obtain ⟨g, hg, hp⟩ := (Option.any_eq_true _ _).1 hstale
  rw [Bool.and_eq_true, decide_eq_true_iff] at hp
  have hm : IsMedia (firstFragment 8) := by decide +kernel
  exact fun halong => halong.2.1 hm 7 g hg hp.1 hp.2

end UdpReceiver

end Rtstream
