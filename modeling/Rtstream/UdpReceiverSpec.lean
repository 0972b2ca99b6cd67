import Rtstream.UdpReceiver
import Mathlib.Tactic.Common

/-!
# What one step of the UDP receiver does

A datagram is either a media packet, which `on_media` handles, or it leaves the groups alone. A
media packet works on the entry of its own group only (`onMedia_groups`), and what it finishes or
asks for carries that group's number (`onMedia_finishes`, `onMedia_nack`). Every entry knows the
key it is stored under (`Keyed`).
-/

namespace Rtstream.UdpReceiver

open Std (TreeMap)

/-! ## Effects -/

/-- The frames that were finished, in order. -/
def finishes (es : List UdpEffect) : List UdpAssembled :=
  es.filterMap fun
    | .finish a _ => some a
    | _ => none

@[simp] theorem finishes_nil : finishes [] = [] := rfl

@[simp] theorem finishes_finish (a : UdpAssembled) (b : Bool) (es : List UdpEffect) :
    finishes (.finish a b :: es) = a :: finishes es := rfl

@[simp] theorem finishes_fecRecovered (es : List UdpEffect) :
    finishes (.fecRecovered :: es) = finishes es := rfl

@[simp] theorem finishes_append (es es' : List UdpEffect) :
    finishes (es ++ es') = finishes es ++ finishes es' := List.filterMap_append

@[simp] theorem finishes_jb (evs : List JbEvent) : finishes (evs.map .jb) = [] := by
  induction evs with
  | nil => rfl
  | cons e evs ih => exact ih

@[simp] theorem finishes_lost (n : ℕ) : finishes [.lost n] = [] := rfl

@[simp] theorem finishes_sendNack (g : Group) : finishes (sendNack g) = [] := by
  simp only [sendNack]
  split <;> rfl

theorem mem_finishes {a : UdpAssembled} {es : List UdpEffect} :
    a ∈ finishes es ↔ ∃ b, UdpEffect.finish a b ∈ es := by
  simp only [finishes, List.mem_filterMap]
  constructor
  · intro h
    obtain ⟨e, he, ha⟩ := h
    cases e with
    | finish a' b =>
      obtain rfl : a' = a := Option.some.inj ha
      exact ⟨b, he⟩
    | _ => cases ha
  · intro h
    obtain ⟨b, hb⟩ := h
    exact ⟨_, hb, rfl⟩

/-! ## Which datagrams are media packets -/

/-- A datagram that `recv_loop` hands to `on_media`. -/
def IsMedia (buf : Bytes) : Prop :=
  UdpHeader.kSize ≤ buf.length ∧ UdpHeader.magicOk buf = true ∧
    (UdpHeader.read buf).payloadType ≠ PayloadType.statsJson.code ∧
    (UdpHeader.read buf).payloadType ≠ PayloadType.statsPong.code

instance : DecidablePred IsMedia := fun _ => inferInstanceAs (Decidable (_ ∧ _ ∧ _ ∧ _))

/-- A step on a media packet of group `gid`. -/
def MediaOf (gid : UInt32) : UdpInput → Prop
  | .datagram buf _ => IsMedia buf ∧ (UdpHeader.read buf).groupId = gid
  | .pop _ => False

variable (rx : UdpReceiver)

theorem recv_of_media {buf : Bytes} (h : IsMedia buf) (now : Int) :
    rx.recv buf now = rx.onMedia (UdpHeader.read buf) (buf.drop UdpHeader.kSize) now := by
  obtain ⟨hlen, hmagic, hjson, hpong⟩ := h
  simp only [recv, if_neg (Nat.not_lt.2 hlen), hmagic, Bool.not_true, Bool.false_eq_true,
    if_false, if_neg hjson, if_neg hpong]

/-- What is no media packet leaves the groups alone and finishes nothing. -/
theorem recv_of_not_media {buf : Bytes} (h : ¬ IsMedia buf) (now : Int) :
    (rx.recv buf now).1.groups = rx.groups ∧
      ((rx.recv buf now).2 = [] ∨ ∃ json, (rx.recv buf now).2 = [.remoteJson json]) := by
  simp only [recv]
  split_ifs with hlen hmagic hjson hpong h8
  · exact ⟨rfl, .inl rfl⟩
  · exact ⟨rfl, .inl rfl⟩
  · exact ⟨rfl, .inr ⟨_, rfl⟩⟩
  · exact ⟨rfl, .inl rfl⟩
  · exact ⟨rfl, .inl rfl⟩
  · exact absurd ⟨Nat.le_of_not_lt hlen, by simpa using hmagic, hjson, hpong⟩ h

theorem isMedia_write {h : UdpHeader} {payload : Bytes}
    (hjson : h.payloadType ≠ PayloadType.statsJson.code)
    (hpong : h.payloadType ≠ PayloadType.statsPong.code) : IsMedia (h.write ++ payload) := by
  refine ⟨?_, UdpHeader.magicOk_write h payload, ?_, ?_⟩
  · simp
  · rwa [UdpHeader.read_write]
  · rwa [UdpHeader.read_write]

theorem popUnit_effects {now : Int} {e : UdpEffect} (h : e ∈ (rx.popUnit now).2) :
    (∃ f, e = .out f) ∨ ∃ ev, e = .jb ev := by
  simp only [popUnit, List.mem_append, List.mem_map] at h
  rcases h with ⟨a, -, rfl⟩ | ⟨ev, -, rfl⟩
  · exact .inl ⟨_, rfl⟩
  · exact .inr ⟨_, rfl⟩

@[simp] theorem finishes_popUnit (now : Int) : finishes (rx.popUnit now).2 = [] := by
  apply List.eq_nil_iff_forall_not_mem.2
  intro a ha
  obtain ⟨b, hb⟩ := mem_finishes.1 ha
  rcases popUnit_effects rx hb with ⟨f, hf⟩ | ⟨ev, hev⟩
  · cases hf
  · cases hev

/-! ## `try_finalize` -/

section TryFinalize

variable (g : Group) (now : Int)

@[simp] theorem finish_groups : (rx.finish g now).1.groups = rx.groups.erase g.frameId := rfl

@[simp] theorem finishes_finish_step : finishes (rx.finish g now).2 = [assembled g] := by
  simp [finish]

@[simp] theorem finishes_requestMissing : finishes (rx.requestMissing g now).2 = [] := by
  simp only [requestMissing]
  split_ifs <;> simp

theorem recoverGroup_eq {g g' : Group} (hr : recoverGroup g = some g') :
    g' = { g with frags := g'.frags } := by
  simp only [recoverGroup] at hr
  split_ifs at hr
  rw [← Option.some.inj hr]

theorem recoverGroup_frameId {g g' : Group} (hr : recoverGroup g = some g') :
    g'.frameId = g.frameId := by
  rw [recoverGroup_eq hr]

theorem tryFinalize_of_complete {g : Group} (h : complete g = true) :
    rx.tryFinalize g now = rx.finish g now := by
  rw [tryFinalize, if_pos h]

theorem tryFinalize_of_recovered {g g' : Group} (h : complete g = false)
    (hr : recoverGroup g = some g') :
    rx.tryFinalize g now = ((rx.finish g' now).1, .fecRecovered :: (rx.finish g' now).2) := by
  rw [tryFinalize, h, if_neg Bool.false_ne_true, hr]

theorem tryFinalize_of_missing {g : Group} (h : complete g = false)
    (hr : recoverGroup g = none) : rx.tryFinalize g now = rx.requestMissing g now := by
  rw [tryFinalize, h, if_neg Bool.false_ne_true, hr]

/-- When a group was last asked for, after `try_finalize` has seen to that. -/
def nackedAt (g : Group) (now : Int) : Int :=
  if now - g.lastNackUs ≥ 10 * 1000 then now else g.lastNackUs

theorem requestMissing_of_recent {g : Group} {now : Int} (h : now - g.firstRecvUs ≤ 250 * 1000) :
    (rx.requestMissing g now).1 =
      { rx with groups := rx.groups.insert g.frameId { g with lastNackUs := nackedAt g now } } := by
  simp only [requestMissing, nackedAt]
  split_ifs with ha ho ho
  · exact absurd h (Int.not_le.2 ho)
  · rfl
  · exact absurd h (Int.not_le.2 ho)
  · rfl

/-- An old group is given up, and what it lacks is counted as lost. -/
theorem requestMissing_of_old {g : Group} {now : Int} (h : now - g.firstRecvUs > 250 * 1000) :
    (rx.requestMissing g now).1 = { rx with groups := rx.groups.erase g.frameId } ∧
      ∃ asks, (asks = [] ∨ asks = sendNack { g with lastNackUs := now }) ∧
        (rx.requestMissing g now).2 = asks ++ [.lost (missingCount g)] := by
  simp only [requestMissing]
  split_ifs
  · exact ⟨rfl, _, Or.inr rfl, rfl⟩
  · exact ⟨rfl, [], Or.inl rfl, rfl⟩

/-- **What `try_finalize` keeps** lacks fragments, cannot be recovered and is not old. -/
theorem kept_of_tryFinalize {g g' : Group} {now : Int}
    (h : (rx.tryFinalize g now).1.groups[g.frameId]? = some g') :
    complete g = false ∧ recoverGroup g = none ∧ now - g.firstRecvUs ≤ 250 * 1000 ∧
      g' = { g with lastNackUs := nackedAt g now } := by
  have herased : ∀ {gs : TreeMap UInt32 Group}, (gs.erase g.frameId)[g.frameId]? ≠ some g' := by
    intro gs hgs
    rw [TreeMap.getElem?_erase_self] at hgs
    cases hgs
  cases hc : complete g with
  | true =>
    rw [tryFinalize_of_complete rx now hc, finish_groups] at h
    exact absurd h herased
  | false =>
    cases hr : recoverGroup g with
    | some g₁ =>
      rw [tryFinalize_of_recovered rx now hc hr, finish_groups, recoverGroup_frameId hr] at h
      exact absurd h herased
    | none =>
      rw [tryFinalize_of_missing rx now hc hr] at h
      rcases Int.lt_or_le (250 * 1000) (now - g.firstRecvUs) with hold | hrecent
      · rw [(requestMissing_of_old rx hold).1] at h
        exact absurd h herased
      · rw [requestMissing_of_recent rx hrecent, TreeMap.getElem?_insert_self] at h
        exact ⟨rfl, rfl, hrecent, (Option.some.inj h).symm⟩

theorem tryFinalize_groups :
    (∀ k : UInt32, k ≠ g.frameId → (rx.tryFinalize g now).1.groups[k]? = rx.groups[k]?) ∧
      ∀ g', (rx.tryFinalize g now).1.groups[g.frameId]? = some g' → g'.frameId = g.frameId := by
  constructor
  · intro k hk
    have herase : (rx.groups.erase g.frameId)[k]? = rx.groups[k]? := by
      simp [TreeMap.getElem?_erase, Ne.symm hk]
    cases hc : complete g with
    | true => rwa [tryFinalize_of_complete rx now hc]
    | false =>
      cases hr : recoverGroup g with
      | some g₁ =>
        rwa [tryFinalize_of_recovered rx now hc hr, finish_groups, recoverGroup_frameId hr]
      | none =>
        rw [tryFinalize_of_missing rx now hc hr]
        rcases Int.lt_or_le (250 * 1000) (now - g.firstRecvUs) with hold | hrecent
        · rwa [(requestMissing_of_old rx hold).1]
        · rw [requestMissing_of_recent rx hrecent]
          simp [TreeMap.getElem?_insert, Ne.symm hk]
  · intro g' hg'
    obtain ⟨-, -, -, rfl⟩ := kept_of_tryFinalize rx hg'
    rfl

theorem tryFinalize_finishes {a : UdpAssembled}
    (h : a ∈ finishes (rx.tryFinalize g now).2) : a.frameId = g.frameId := by
  cases hc : complete g with
  | true =>
    rw [tryFinalize_of_complete rx now hc, finishes_finish_step] at h
    rw [List.mem_singleton.1 h]
    rfl
  | false =>
    cases hr : recoverGroup g with
    | some g₁ =>
      rw [tryFinalize_of_recovered rx now hc hr, finishes_fecRecovered, finishes_finish_step] at h
      rw [List.mem_singleton.1 h]
      exact recoverGroup_frameId hr
    | none =>
      rw [tryFinalize_of_missing rx now hc hr, finishes_requestMissing] at h
      cases h

theorem tryFinalize_nack {pkt : Bytes} (h : UdpEffect.nack pkt ∈ (rx.tryFinalize g now).2) :
    ∃ g' : Group, g'.frameId = g.frameId ∧ UdpEffect.nack pkt ∈ sendNack g' := by
  have hfin : ∀ g' : Group, UdpEffect.nack pkt ∉ (rx.finish g' now).2 := fun g' h => by
    simp [finish] at h
  cases hc : complete g with
  | true =>
    rw [tryFinalize_of_complete rx now hc] at h
    exact absurd h (hfin g)
  | false =>
    cases hr : recoverGroup g with
    | some g₁ =>
      rw [tryFinalize_of_recovered rx now hc hr] at h
      rcases List.mem_cons.1 h with h | h
      · cases h
      · exact absurd h (hfin g₁)
    | none =>
      rw [tryFinalize_of_missing rx now hc hr] at h
      simp only [requestMissing] at h
      split_ifs at h
      · exact ⟨{ g with lastNackUs := now }, rfl, by simpa using h⟩
      · exact ⟨{ g with lastNackUs := now }, rfl, h⟩
      · simp at h
      · simp at h

end TryFinalize

/-! ## `on_media` -/

/-- Every entry knows the key it is stored under. -/
def Keyed : Prop := ∀ (k : UInt32) (g : Group), rx.groups[k]? = some g → g.frameId = k

section OnMedia

variable {rx} (h : UdpHeader) (payload : Bytes) (now : Int)

theorem groupOf_frameId (hk : rx.Keyed) (capture : Int) :
    (rx.groupOf h capture now).frameId = h.groupId := by
  simp only [groupOf]
  split_ifs with hf
  · rfl
  · cases hg : rx.groups[h.groupId]? with
    | none => simp [hg] at hf
    | some g => exact hk h.groupId g hg

@[simp] theorem setParity_frameId (g : Group) : (setParity g payload).frameId = g.frameId := rfl

@[simp] theorem fillFragment_frameId (g : Group) (seq : UInt16) :
    (fillFragment g seq payload).frameId = g.frameId := by
  unfold fillFragment
  split <;> rfl

/-- The group `on_media` tries to finish; none when the fragment is out of range. -/
def updated (rx : UdpReceiver) (h : UdpHeader) (payload : Bytes) (now : Int) : Option Group :=
  let g := rx.groupOf h (extendLow32 rx.lastCaptureUs now h.captureUsLo) now
  if h.fragmentSeq = UdpHeader.kFecSeq then some (setParity g payload)
  else if h.fragmentSeq < g.fragmentCnt then some (fillFragment g h.fragmentSeq payload)
  else none

theorem updated_of_fec (hseq : h.fragmentSeq = UdpHeader.kFecSeq) :
    rx.updated h payload now = some (setParity
      (rx.groupOf h (extendLow32 rx.lastCaptureUs now h.captureUsLo) now) payload) := by
  simp only [updated, if_pos hseq]

theorem updated_of_data (hseq : h.fragmentSeq ≠ UdpHeader.kFecSeq)
    (hlt : h.fragmentSeq <
      (rx.groupOf h (extendLow32 rx.lastCaptureUs now h.captureUsLo) now).fragmentCnt) :
    rx.updated h payload now = some (fillFragment
      (rx.groupOf h (extendLow32 rx.lastCaptureUs now h.captureUsLo) now)
      h.fragmentSeq payload) := by
  simp only [updated, if_neg hseq, if_pos hlt]

theorem onMedia_of_updated {g : Group} (hu : rx.updated h payload now = some g) :
    rx.onMedia h payload now =
      ({ rx with lastCaptureUs := extendLow32 rx.lastCaptureUs now h.captureUsLo } :
        UdpReceiver).tryFinalize g now := by
  simp only [updated] at hu
  simp only [onMedia]
  split_ifs at hu ⊢
  · rw [Option.some.inj hu]
  · rw [Option.some.inj hu]

theorem onMedia_of_not_updated (hu : rx.updated h payload now = none) :
    rx.onMedia h payload now =
      let capture := extendLow32 rx.lastCaptureUs now h.captureUsLo
      ({ rx with lastCaptureUs := capture,
                 groups := rx.groups.insert h.groupId (rx.groupOf h capture now) }, []) := by
  simp only [updated] at hu
  simp only [onMedia]
  split_ifs at hu ⊢
  rfl

/-- A packet changes the fragments and the parity of its group, and nothing else. -/
theorem updated_eq {g : Group} (hu : rx.updated h payload now = some g) :
    g = { rx.groupOf h (extendLow32 rx.lastCaptureUs now h.captureUsLo) now with
      fecSeen := g.fecSeen, frags := g.frags, parity := g.parity } := by
  simp only [updated] at hu
  split_ifs at hu
  · rw [← Option.some.inj hu]
    rfl
  · rw [← Option.some.inj hu]
    unfold fillFragment
    split <;> rfl

theorem updated_frameId (hk : rx.Keyed) {g : Group} (hu : rx.updated h payload now = some g) :
    g.frameId = h.groupId := by
  rw [updated_eq h payload now hu]
  exact groupOf_frameId h now hk _

theorem firstRecvUs_of_updated {g : Group} (hu : rx.updated h payload now = some g) :
    g.firstRecvUs =
      (rx.groupOf h (extendLow32 rx.lastCaptureUs now h.captureUsLo) now).firstRecvUs := by
  rw [updated_eq h payload now hu]

/-- **A media packet touches the entry of its own group only.** -/
theorem onMedia_groups (hk : rx.Keyed) :
    (∀ k : UInt32, k ≠ h.groupId → (rx.onMedia h payload now).1.groups[k]? = rx.groups[k]?) ∧
      (rx.onMedia h payload now).1.Keyed := by
  have key : ∀ {gs : TreeMap UInt32 Group},
      (∀ k : UInt32, k ≠ h.groupId → gs[k]? = rx.groups[k]?) →
      (∀ g', gs[h.groupId]? = some g' → g'.frameId = h.groupId) →
      ∀ (k : UInt32) (g' : Group), gs[k]? = some g' → g'.frameId = k := fun hne heq k g' hg => by
    by_cases hkid : k = h.groupId
    · subst hkid
      exact heq g' hg
    · exact hk k g' (hne k hkid ▸ hg)
  cases hu : rx.updated h payload now with
  | some g =>
    have hid := updated_frameId h payload now hk hu
    obtain ⟨hne, heq⟩ := tryFinalize_groups
      { rx with lastCaptureUs := extendLow32 rx.lastCaptureUs now h.captureUsLo } g now
    rw [hid] at hne heq
    rw [onMedia_of_updated h payload now hu]
    exact ⟨hne, key hne heq⟩
  | none =>
    have hne : ∀ k : UInt32, k ≠ h.groupId →
        (rx.onMedia h payload now).1.groups[k]? = rx.groups[k]? := fun k hkid => by
      simp [onMedia_of_not_updated h payload now hu, TreeMap.getElem?_insert, Ne.symm hkid]
    refine ⟨hne, key hne fun g' hg => ?_⟩
    rw [onMedia_of_not_updated h payload now hu, TreeMap.getElem?_insert_self] at hg
    rw [← Option.some.inj hg]
    exact groupOf_frameId h now hk _

theorem onMedia_finishes (hk : rx.Keyed) {a : UdpAssembled}
    (ha : a ∈ finishes (rx.onMedia h payload now).2) : a.frameId = h.groupId := by
  cases hu : rx.updated h payload now with
  | some g =>
    rw [onMedia_of_updated h payload now hu] at ha
    rw [tryFinalize_finishes _ g now ha, updated_frameId h payload now hk hu]
  | none =>
    rw [onMedia_of_not_updated h payload now hu] at ha
    cases ha

theorem onMedia_nack (hk : rx.Keyed) {pkt : Bytes}
    (hn : UdpEffect.nack pkt ∈ (rx.onMedia h payload now).2) :
    ∃ g : Group, g.frameId = h.groupId ∧ UdpEffect.nack pkt ∈ sendNack g := by
  cases hu : rx.updated h payload now with
  | some g =>
    rw [onMedia_of_updated h payload now hu] at hn
    obtain ⟨g', hid, hmem⟩ := tryFinalize_nack _ g now hn
    exact ⟨g', hid.trans (updated_frameId h payload now hk hu), hmem⟩
  | none =>
    rw [onMedia_of_not_updated h payload now hu] at hn
    cases hn

end OnMedia

/-! ## Steps and runs -/

section Steps

variable {rx}

theorem Keyed.step (hk : rx.Keyed) (i : UdpInput) : (UdpReceiver.step rx i).1.Keyed := by
  cases i with
  | pop now => exact hk
  | datagram buf now =>
    show (rx.recv buf now).1.Keyed
    by_cases hm : IsMedia buf
    · rw [recv_of_media rx hm]
      exact (onMedia_groups _ _ now hk).2
    · intro k g hg
      rw [(recv_of_not_media rx hm now).1] at hg
      exact hk k g hg

theorem keyed_fresh : ({} : UdpReceiver).Keyed := fun k g hg => by simp at hg

theorem Keyed.run (hk : rx.Keyed) (is : List UdpInput) :
    (Runs.after UdpReceiver.step rx is).Keyed :=
  Runs.invariant (fun _ i h => h.step i) hk is

theorem step_other (hk : rx.Keyed) {gid : UInt32} {i : UdpInput} (h : ¬ MediaOf gid i) :
    (step rx i).1.groups[gid]? = rx.groups[gid]? ∧
      (∀ a ∈ finishes (step rx i).2, a.frameId ≠ gid) := by
  cases i with
  | pop now =>
    refine ⟨rfl, ?_⟩
    intro a ha
    rw [show finishes (step rx (.pop now)).2 = [] from finishes_popUnit rx now] at ha
    cases ha
  | datagram buf now =>
    show (rx.recv buf now).1.groups[gid]? = _ ∧ ∀ a ∈ finishes (rx.recv buf now).2, _
    by_cases hm : IsMedia buf
    · have hne : (UdpHeader.read buf).groupId ≠ gid := fun hg => h ⟨hm, hg⟩
      rw [recv_of_media rx hm]
      refine ⟨(onMedia_groups _ _ now hk).1 gid hne.symm, ?_⟩
      intro a ha
      rw [onMedia_finishes _ _ now hk ha]
      exact hne
    · obtain ⟨hgr, heff⟩ := recv_of_not_media rx hm now
      refine ⟨by rw [hgr], ?_⟩
      intro a ha
      rcases heff with heff | ⟨json, heff⟩ <;> rw [heff] at ha <;> cases ha

end Steps

end Rtstream.UdpReceiver
