import Rtstream.RtpHoles

/-!
# What a recovery needs

`finalize_frame` and `expire_zombies` rebuild a packet when one is missing and the frame's parity is
stored. `recover_eq_some_iff`: the packet that they rebuild is `raw` exactly when one packet is
missing and none lies outside the span, the parity is that of the frame's packets with `raw` among
them, and none of them is longer than `raw`.
-/

namespace Rtstream.FrameState

open Std (TreeMap)
open RaggedXor

variable {f : FrameState} {parity raw : Bytes}

/-- No packet is an empty string. -/
def Solid (f : FrameState) : Prop :=
  ∀ (k : UInt16) (r : Bytes), f.raws[k]? = some r → r ≠ []

/-- **The parity gives back the packet**: one packet is missing and none is outside the span, the
parity is that of the packets with it, and none of them is longer. -/
structure Restores (f : FrameState) (parity raw : Bytes) : Prop where
  one : f.holes.length = 1
  size : f.raws.size + 1 = f.span.toNat
  stored : parity ≠ []
  longest : raw.length = max (maxLen f.known) parity.length
  xor : ∀ j, byteAt parity j = column (raw :: f.known) j

theorem countP_known (h : f.Solid) : f.known.countP (·.isEmpty) = f.holes.length := by
  rw [known, List.countP_map, holes, List.range'_eq_map_range, List.filter_map, List.length_map,
    List.countP_eq_length_filter]
  congr 1
  refine List.filter_congr fun i _ => ?_
  simp only [Function.comp, UInt16.ofNat_add, UInt16.ofNat_toNat]
  rw [Bool.eq_iff_iff, List.isEmpty_iff, Bool.not_eq_true', Bool.eq_false_iff, ne_eq,
    TreeMap.contains_eq_isSome_getElem?]
  cases hk : f.raws[f.firstSeq + UInt16.ofNat i]? with
  | none => simp
  | some r => simpa using h _ r hk

theorem isEmpty_known (h : f.Solid) {i : ℕ} (hi : i < f.known.length) :
    f.known[i].isEmpty = !f.raws.contains (f.firstSeq + UInt16.ofNat i) := by
  rw [getElem_known, TreeMap.contains_eq_isSome_getElem?]
  cases hk : f.raws[f.firstSeq + UInt16.ofNat i]? with
  | none => rfl
  | some r => simpa using h _ r hk

theorem exists_place (h : f.Solid) (hone : f.holes.length = 1) :
    ∃ as bs, f.known = as ++ [] :: bs ∧ f.missingIdx = some as.length ∧
      (∀ d ∈ as, d ≠ []) ∧ ∀ d ∈ bs, d ≠ [] := by
  have hcount := countP_known h
  rw [hone] at hcount
  obtain ⟨as, bs, hknown, has, hbs⟩ := exists_empty_slot hcount
  refine ⟨as, bs, hknown, ?_, has, hbs⟩
  have hplace : as.length < f.known.length := by
    rw [hknown]
    simp
  cases hm : f.missingIdx with
  | none =>
    have hnone := List.find?_eq_none.1 hm as.length (by simpa using hplace)
    rw [← isEmpty_known h hplace] at hnone
    simp [hknown] at hnone
  | some i =>
    have hi := missingIdx_lt hm
    have hfound := List.find?_some hm
    rw [← isEmpty_known h hi] at hfound
    simp only [hknown] at hi hfound
    replace hfound := List.isEmpty_iff.1 hfound
    rcases Nat.lt_trichotomy i as.length with hlt | heq | hgt
    · rw [List.getElem_append_left hlt] at hfound
      exact absurd hfound (has _ (List.getElem_mem hlt))
    · rw [heq]
    · rw [List.getElem_append_right hgt.le, List.getElem_cons, dif_neg (by omega)] at hfound
      exact absurd hfound (hbs _ (List.getElem_mem _))

theorem rebuild_eq_none (h : f.Solid) (hnot : ¬ (f.holes.length = 1 ∧ parity ≠ [])) :
    f.rebuild parity = none := by
  unfold rebuild
  cases hm : f.missingIdx with
  | none => rfl
  | some i =>
    have hcount : (f.known ++ [parity]).countP (·.isEmpty) ≠ 1 := by
      -- The place that was found is empty, so the parity is not the only empty slot.
      have hi := missingIdx_lt hm
      have hfound := List.find?_some hm
      rw [← isEmpty_known h hi] at hfound
      have hpos : 0 < f.holes.length := by
        rw [← countP_known h]
        exact List.countP_pos_iff.mpr ⟨_, List.getElem_mem hi, hfound⟩
      rw [List.countP_append, countP_known h, List.countP_singleton]
      split_ifs with hpar
      · omega
      · have : parity ≠ [] := by simpa using hpar
        intro hone
        exact hnot ⟨by omega, this⟩
    simp only [fecRecover_of_count_ne_one _ hcount, Bool.false_eq_true, if_false]

/-- What is rebuilt is as long as the longest packet, and the parity is that of all of them. -/
theorem rebuild_eq_some_iff (h : f.Solid) :
    f.rebuild parity = some raw ↔ f.holes.length = 1 ∧ parity ≠ [] ∧
      raw.length = max (maxLen f.known) parity.length ∧
      ∀ j, byteAt parity j = column (raw :: f.known) j := by
  by_cases hcan : f.holes.length = 1 ∧ parity ≠ []
  · rw [← and_assoc, and_iff_right hcan]
    obtain ⟨hone, hpar⟩ := hcan
    obtain ⟨as, bs, hknown, hmiss, has, hbs⟩ := exists_place h hone
    have hslots : f.known ++ [parity] = as ++ [] :: (bs ++ [parity]) := by simp [hknown]
    have hbs' : ∀ d ∈ bs ++ [parity], d ≠ [] := by
      rw [List.forall_mem_append, List.forall_mem_singleton]
      exact ⟨hbs, hpar⟩
    have hcol : ∀ j, column (as ++ (bs ++ [parity])) j = column f.known j ^^^ byteAt parity j := by
      intro j
      simp [hknown, column_append, UInt8.xor_assoc]
    have hlen : max parity.length (maxLen (f.known ++ [parity])) =
        max (maxLen f.known) parity.length := by
      rw [maxLen_concat]
      omega
    have hrebuild : f.rebuild parity = some ((as ++ (bs ++ [parity])).foldl xorInto
        (List.replicate (max (maxLen f.known) parity.length) 0)) := by
      simp only [rebuild, hmiss, hlen]
      rw [hslots, fecRecover_split has hbs']
      simp
    rw [hrebuild, Option.some_inj, eq_comm, eq_foldl_xorInto_iff]
    refine and_congr_right fun hlength => ⟨fun hraw j => ?_, fun hparity j _ => ?_⟩
    · by_cases hj : j < max (maxLen f.known) parity.length
      · rw [column_cons, hraw j hj, hcol, UInt8.xor_comm, ← UInt8.xor_assoc, UInt8.xor_self,
          UInt8.zero_xor]
      · -- Behind the longest one there are zeros only.
        rw [Nat.not_lt, max_le_iff] at hj
        rw [column_cons, byteAt_of_le hj.2, byteAt_of_le (by omega), column_of_le hj.1,
          UInt8.zero_xor]
    · rw [hcol, hparity j, column_cons, UInt8.xor_comm, UInt8.xor_assoc, UInt8.xor_self,
        UInt8.xor_zero]
  · rw [rebuild_eq_none h hcan]
    exact iff_of_false nofun fun hr => hcan ⟨hr.1, hr.2.1⟩

/-- **What is recovered** is the packet that the stored parity gives back. -/
theorem recover_eq_some_iff (h : f.Solid) (hmark : f.markerSeen = true)
    {fec : TreeMap UInt32 Bytes} :
    f.recover fec = some raw ↔
      ∃ parity, fec[toUInt32 f.captureMs]? = some parity ∧ f.Restores parity raw := by
  have hsize : f.holes.length = 1 →
      (f.raws.size = (f.span - 1).toNat ↔ f.raws.size + 1 = f.span.toNat) := by
    intro hone
    have hpos : 0 < f.span.toNat := by
      have hle := List.length_filter_le (fun x => !f.raws.contains (UInt16.ofNat x))
        (List.range' f.firstSeq.toNat f.span.toNat)
      rw [List.length_range'] at hle
      rw [holes] at hone
      omega
    have hlt := f.span.toNat_lt
    rw [UInt32.toNat_sub, UInt32.toNat_one]
    omega
  unfold recover
  cases hfec : fec[toUInt32 f.captureMs]? with
  | none => simp
  | some parity =>
    simp only [Option.some.injEq, exists_eq_left', hmark, and_true]
    constructor
    · intro hrec
      split_ifs at hrec with hs
      obtain ⟨hone, hpar, hlength, hxor⟩ := (rebuild_eq_some_iff h).mp hrec
      exact ⟨hone, (hsize hone).mp hs, hpar, hlength, hxor⟩
    · rintro ⟨hone, hs, hpar, hlength, hxor⟩
      rw [if_pos ((hsize hone).mpr hs)]
      exact (rebuild_eq_some_iff h).mpr ⟨hone, hpar, hlength, hxor⟩

end Rtstream.FrameState
