import Rtstream.UdpStragglers
import Mathlib.Data.List.DropRight
import Mathlib.Data.List.Zip

/-!
# Asking for fragments, and getting them

A group that lacks fragments asks the server for them, six bytes for each. The server answers
from a cache that holds the packets it remembered last, and takes the newest one under a number.

`nack_exchange`: the answer to a request is, for each missing fragment in ascending order, the
newest packet remembered under its number, if that is among the last `cache_` ones, and nothing
else.
-/

namespace Rtstream.NackManager

/-! ## The cache after a history -/

/-- The cache of a server that has remembered these packets, oldest first. -/
def remembered (cache : ℕ) (history : List RetransPacket) : NackManager :=
  history.foldl (fun n p => n.remember p.groupId p.fragmentSeq p.raw) { cache := cache }

theorem popOld_eq {cache : ℕ} (h : 0 < cache) (items : List RetransPacket) :
    popOld cache items = items.rtake (cache - 1) := by
  induction items with
  | nil => simp [popOld]
  | cons p items ih =>
    rw [popOld, List.rtake, List.length_cons]
    split_ifs with hlen
    · rw [ih, List.rtake,
        show items.length + 1 - (cache - 1) = items.length - (cache - 1) + 1 by omega,
        List.drop_succ_cons]
    · rw [show items.length + 1 - (cache - 1) = 0 by omega, List.drop_zero]

theorem rtake_rtake {α : Type*} (xs : List α) (m n : ℕ) :
    (xs.rtake n).rtake m = xs.rtake (min m n) := by
  simp only [List.rtake_eq_reverse_take_reverse, List.reverse_reverse, List.take_take]

/-- **The cache holds the packets remembered last.** -/
theorem remembered_eq {cache : ℕ} (h : 0 < cache) (history : List RetransPacket) :
    remembered cache history = { cache := cache, items := history.rtake cache } := by
  obtain ⟨c, rfl⟩ : ∃ c, cache = c + 1 := Nat.exists_eq_succ_of_ne_zero (by omega)
  induction history using List.reverseRecOn with
  | nil => simp [remembered]
  | append_singleton history p ih =>
    rw [remembered, List.foldl_append, ← remembered, ih, List.foldl_cons, List.foldl_nil, remember,
      if_neg (by simp)]
    simp only [popOld_eq h, rtake_rtake, Nat.add_sub_cancel]
    rw [min_eq_left (Nat.le_succ c), List.rtake_concat_succ]

/-! ## The newest packet under a number -/

/-- The newest packet remembered under a number, and how many were remembered after it. -/
def newest? (history : List RetransPacket) (groupId : UInt32) (fragmentSeq : UInt16) :
    Option (RetransPacket × ℕ) :=
  history.reverse.zipIdx.find? fun x =>
    x.1.groupId == groupId && x.1.fragmentSeq == fragmentSeq

/-- What a server that has remembered `history` sends for a number: the newest packet under it,
if fewer than `cache` were remembered after that one. -/
def cached? (cache : ℕ) (history : List RetransPacket) (groupId : UInt32) (fragmentSeq : UInt16) :
    Option Bytes :=
  (newest? history groupId fragmentSeq).bind fun x =>
    if x.2 < cache then some x.1.raw else none

theorem find?_take {α : Type*} (P : α → Bool) (xs : List α) (n k : ℕ) :
    (xs.take n).find? P =
      ((xs.zipIdx k).find? fun x => P x.1).bind fun x =>
        if x.2 < k + n then some x.1 else none := by
  induction xs generalizing n k with
  | nil => simp
  | cons x xs ih =>
    rw [List.zipIdx_cons, List.find?_cons]
    cases n with
    | zero =>
      rw [List.take_zero, List.find?_nil]
      cases hf : P x with
      | true => simp
      | false =>
        cases hfind : (xs.zipIdx (k + 1)).find? fun x => P x.1 with
        | none => rfl
        | some y =>
          obtain ⟨y, j⟩ := y
          have := List.le_snd_of_mem_zipIdx (List.mem_of_find?_eq_some hfind)
          simp only [Option.bind_some]
          rw [if_neg (by simp at this; omega)]
    | succ n =>
      rw [List.take_succ_cons, List.find?_cons]
      cases hf : P x with
      | true => simp
      | false => simpa [Nat.add_right_comm, Nat.add_assoc] using ih n (k + 1)

theorem find_remembered {cache : ℕ} (h : 0 < cache) (history : List RetransPacket)
    (groupId : UInt32) (fragmentSeq : UInt16) :
    ((remembered cache history).find groupId fragmentSeq).map (·.raw) =
      cached? cache history groupId fragmentSeq := by
  rw [remembered_eq h, find, cached?, newest?]
  simp only [List.rtake_eq_reverse_take_reverse, List.reverse_reverse]
  rw [find?_take _ _ cache 0, zero_add, Option.map_bind]
  congr 1
  funext x
  rw [Function.comp_apply]
  split_ifs <;> rfl

end Rtstream.NackManager

namespace Rtstream.UdpReceiver

open NackManager

/-! ## The exchange -/

/-- The numbers a group asks for. -/
def requested (g : Group) : List (UInt32 × UInt16) :=
  (missingFragments g).map fun i => (g.frameId, UInt16.ofNat i)

theorem map_record_nackRecords (g : Group) :
    (List.range ((nackRecords g).length / 6)).map (record (nackRecords g)) = requested g := by
  unfold requested
  apply List.ext_getElem
  · rw [List.length_map, List.length_map, List.length_range, length_nackRecords,
      Nat.mul_div_cancel _ (by omega)]
  · intro k hk hk'
    rw [List.getElem_map, List.getElem_map, List.getElem_range,
      record_nackRecords g (by simpa using hk')]

theorem sendNack_of_missing {g : Group} (h : missingFragments g ≠ []) :
    ∃ h : UdpHeader, h.payloadType = PayloadType.nack.code ∧
      sendNack g = [.nack (h.write ++ nackRecords g)] := by
  have hne : nackRecords g ≠ [] := by
    apply List.ne_nil_of_length_pos
    rw [length_nackRecords]
    have := List.length_pos_of_ne_nil h
    omega
  refine ⟨_, rfl, if_neg ?_⟩
  simpa using hne

/-- **The answer to a request.** A group that lacks fragments asks for them with one datagram. A
server with room for `cache` packets, which has remembered `history`, answers with the newest
packet under the number of each missing fragment that it still has, in ascending order, and with
nothing else; it counts the records of the request, and the packets it sends. -/
theorem nack_exchange (g : Group) (hmissing : missingFragments g ≠ []) (cache : ℕ)
    (hcache : 0 < cache) (history : List RetransPacket) :
    ∃ pkt, sendNack g = [.nack pkt] ∧ (UdpHeader.read pkt).payloadType = PayloadType.nack.code ∧
      let es := (remembered cache history).onNackEffects (pkt.drop UdpHeader.kSize)
      let answers := (missingFragments g).filterMap fun i =>
        cached? cache history g.frameId (UInt16.ofNat i)
      sends es = answers ∧ es.count .received = (missingFragments g).length ∧
        es.count .retransmitted = answers.length := by
  obtain ⟨h, htype, hsend⟩ := sendNack_of_missing hmissing
  refine ⟨_, hsend, by rw [UdpHeader.read_write, htype], ?_⟩
  intro es answers
  obtain ⟨hsends, hreceived, hretransmitted⟩ :=
    (remembered cache history).flatMap_answer (requested g)
  have hes : es = (requested g).flatMap (remembered cache history).answer := by
    show onNackEffects _ ((h.write ++ nackRecords g).drop UdpHeader.kSize) = _
    rw [UdpHeader.drop_write, onNackEffects, ← map_record_nackRecords, List.flatMap_map]
  have hfound : (requested g).filterMap (fun key =>
      ((remembered cache history).find key.1 key.2).map (·.raw)) = answers := by
    simp only [find_remembered hcache, requested, List.filterMap_map]
    rfl
  rw [hfound] at hsends hretransmitted
  rw [hes]
  exact ⟨hsends, by rw [hreceived, requested, List.length_map], hretransmitted⟩

/-- Two fragments of three are missing; the cache holds two packets, and of fragment 0 the newer
one. -/
theorem nack_exchange_two :
    ∃ pkt, sendNack { fragmentCnt := 3, frameId := 7, frags := [[], [1], []] } = [.nack pkt] ∧
      sends ((remembered 2 [⟨7, 0, [9]⟩, ⟨7, 2, [8]⟩, ⟨7, 0, [6]⟩]).onNackEffects
        (pkt.drop UdpHeader.kSize)) = [[6], [8]] := by
  obtain ⟨pkt, hsend, -, hsends, -⟩ :=
    nack_exchange { fragmentCnt := 3, frameId := 7, frags := [[], [1], []] } (by decide) 2
      (by decide) [⟨7, 0, [9]⟩, ⟨7, 2, [8]⟩, ⟨7, 0, [6]⟩]
  exact ⟨pkt, hsend, hsends.trans (by decide)⟩

end Rtstream.UdpReceiver
