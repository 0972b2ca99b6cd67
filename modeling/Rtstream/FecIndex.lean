import Rtstream.Fec
import Mathlib.Data.List.GetD

/-!
# `fec.h`: the empty slot's index is an `int`

`fec_recover` counts the slots with a `size_t`, but keeps the index of the empty one in an `int`,
which is made a `size_t` again by `known[miss_idx]`. An index below 2^31 comes back as it was
(`slotIndex_of_lt`), so `fecRecover` is what the code does to every group a server can announce; an
index from 2^31 on comes back as a smaller one, or as one behind the end of every vector.

`fec_pair_iff`: a lost packet is put back exactly when its index is below 2^31.
-/

namespace Rtstream

open RaggedXor

/-- The index in `known[miss_idx]`, after `miss_idx = static_cast<int>(i)`. -/
def slotIndex (i : ℕ) : ℕ := ((BitVec.ofNat 32 i).toInt % 2 ^ 64).toNat

/-- `fec_recover` with its `int`. There is no result when the slot it writes to does not exist. -/
def fecRecoverInt (known : List Bytes) (expectLen : ℕ) : Option (Bool × List Bytes) :=
  let (missing, missIdx) := missingSlots known 0 0 0
  if missing ≠ 1 then some (false, known)
  else if slotIndex missIdx < known.length then
    some (true, known.set (slotIndex missIdx)
      ((known.filter fun d => !d.isEmpty).foldl xorInto (List.replicate expectLen 0)))
  else none

/-- Packet `i` of `data` is lost, and comes back filled with zeros to the longest length, with
everything else in its place. -/
def Restored (data : List Bytes) (i : ℕ) : Prop :=
  fecRecoverInt (data.set i [] ++ [fecGenerate data]) (maxLen data) =
    some (true, data.set i (pad (maxLen data) (data.getD i [])) ++ [fecGenerate data])

/-! ## The index -/

theorem slotIndex_of_lt {i : ℕ} (h : i < 2 ^ 31) : slotIndex i = i := by
  rw [slotIndex, BitVec.toInt_eq_toNat_cond, BitVec.toNat_ofNat]
  split_ifs <;> omega

/-- An index from 2^31 on is smaller afterwards, or behind the end of every vector. -/
theorem slotIndex_of_le {i : ℕ} (h : 2 ^ 31 ≤ i) : slotIndex i < i ∨ 2 ^ 63 ≤ slotIndex i := by
  rw [slotIndex, BitVec.toInt_eq_toNat_cond, BitVec.toNat_ofNat]
  split_ifs <;> omega

theorem fecRecoverInt_of_count_ne_one {known : List Bytes} (n : ℕ)
    (h : known.countP (·.isEmpty) ≠ 1) : fecRecoverInt known n = some (false, known) := by
  have hfst : (missingSlots known 0 0 0).1 ≠ 1 := by rw [missingSlots_fst]; omega
  simp [fecRecoverInt, hfst]

theorem fecRecoverInt_of_scan {known : List Bytes} {k : ℕ}
    (hscan : missingSlots known 0 0 0 = (1, k)) (n : ℕ) :
    fecRecoverInt known n =
      if slotIndex k < known.length then some (true, known.set (slotIndex k)
        ((known.filter fun d => !d.isEmpty).foldl xorInto (List.replicate n 0)))
      else none := by
  simp [fecRecoverInt, hscan]

/-- **An index below 2^31 does not feel the `int`.** -/
theorem fecRecoverInt_eq {known : List Bytes} {k : ℕ} (hscan : missingSlots known 0 0 0 = (1, k))
    (hk : k < known.length) (h : k < 2 ^ 31) (n : ℕ) :
    fecRecoverInt known n = some (fecRecover known n) := by
  rw [fecRecoverInt_of_scan hscan, slotIndex_of_lt h, if_pos hk]
  simp [fecRecover, hscan]

/-- The groups of the two links have fewer slots than that. -/
theorem fecRecoverInt_of_length_le {known : List Bytes} (h : known.length ≤ 2 ^ 31) (n : ℕ) :
    fecRecoverInt known n = some (fecRecover known n) := by
  by_cases hcount : known.countP (·.isEmpty) = 1
  · obtain ⟨as, bs, rfl, has, hbs⟩ := exists_empty_slot hcount
    have hlt : as.length < (as ++ [] :: bs).length := by simp
    exact fecRecoverInt_eq (missingSlots_split has hbs) hlt (by omega) n
  · rw [fecRecoverInt_of_count_ne_one n hcount, fecRecover_of_count_ne_one n hcount]

/-! ## A lost packet -/

section Lost

variable {data : List Bytes} (hne : ∀ d ∈ data, d ≠ []) {i : ℕ} (hi : i < data.length)
include hne hi

theorem missingSlots_set_nil :
    missingSlots (data.set i [] ++ [fecGenerate data]) 0 0 0 = (1, i) := by
  have hpar : fecGenerate data ≠ [] := fecGenerate_ne_nil hne (List.ne_nil_of_length_pos (by omega))
  have hsplit : data.set i [] ++ [fecGenerate data] =
      data.take i ++ [] :: (data.drop (i + 1) ++ [fecGenerate data]) := by
    rw [List.set_eq_take_append_cons_drop, if_pos hi, List.append_assoc]
    rfl
  have hbefore : ∀ d ∈ data.take i, d ≠ [] := fun d hd => hne d (List.mem_of_mem_take hd)
  have hbehind : ∀ d ∈ data.drop (i + 1) ++ [fecGenerate data], d ≠ [] := by
    intro d hd
    rcases List.mem_append.1 hd with hd | hd
    · exact hne d (List.mem_of_mem_drop hd)
    · rwa [List.mem_singleton.1 hd]
  rw [hsplit, missingSlots_split hbefore hbehind, List.length_take, min_eq_left hi.le]

theorem restored_iff (hlen : data.length < 2 ^ 63) : Restored data i ↔ i < 2 ^ 31 := by
  have hscan := missingSlots_set_nil hne hi
  have hknown : (data.set i [] ++ [fecGenerate data]).length = data.length + 1 := by simp
  rw [Restored, List.getD_eq_getElem _ _ hi]
  constructor
  · intro h
    by_contra hle
    rw [fecRecoverInt_of_scan hscan, hknown] at h
    rcases slotIndex_of_le (Nat.le_of_not_lt hle) with hlt | hlt
    · -- Another slot is filled, and slot `i` stays empty.
      rw [if_pos (by omega)] at h
      have hslot := congrArg (fun known => known[i]?) (Prod.mk.inj (Option.some.inj h)).2
      have hlength : (pad (maxLen data) data[i]).length = maxLen data :=
        length_pad (length_le_maxLen (List.getElem_mem hi))
      have hpos := List.length_pos_of_ne_nil (hne data[i] (List.getElem_mem hi))
      have hle := length_le_maxLen (List.getElem_mem hi)
      simp only [List.getElem?_set_ne hlt.ne] at hslot
      rw [List.getElem?_append_left (by simpa using hi),
        List.getElem?_append_left (by simpa using hi),
        List.getElem?_set_self hi, List.getElem?_set_self hi] at hslot
      rw [← Option.some.inj hslot, List.length_nil] at hlength
      omega
    · rw [if_neg (by omega)] at h
      cases h
  · intro h
    rw [fecRecoverInt_eq hscan (by omega) h, fecRecover_set_nil hne hi le_rfl]

end Lost

/-- **The pair of `fec.h`.** A lost packet is put back if and only if its index is below 2^31; and a
list that does not lack exactly one packet is left alone. The length of a vector is below 2^63. -/
theorem fec_pair_iff (packets : List Bytes) (i n : ℕ) :
    ((∀ d ∈ packets, d ≠ []) → i < packets.length → packets.length < 2 ^ 63 →
        (Restored packets i ↔ i < 2 ^ 31)) ∧
      (packets.countP (·.isEmpty) ≠ 1 → fecRecoverInt packets n = some (false, packets)) :=
  ⟨fun hne hi => restored_iff hne hi, fecRecoverInt_of_count_ne_one n⟩

theorem fec_pair_two :
    Restored [[1], [2, 3]] 0 ∧ fecRecoverInt [[1], [2]] 2 = some (false, [[1], [2]]) :=
  ⟨((fec_pair_iff [[1], [2, 3]] 0 2).1 (by decide) (by decide) (by decide)).2 (by decide),
    (fec_pair_iff [[1], [2]] 0 2).2 (by decide)⟩

/-- The packet with index 2^31 is not put back. -/
theorem far_packet_lost : ¬ Restored (List.replicate (2 ^ 31 + 1) [1]) (2 ^ 31) := by
  have hlen : (List.replicate (2 ^ 31 + 1) ([1] : Bytes)).length = 2 ^ 31 + 1 :=
    List.length_replicate
  intro h
  have hlt := (restored_iff (fun d hd => List.eq_of_mem_replicate hd ▸ List.cons_ne_nil 1 [])
    (by rw [hlen]; exact Nat.lt_succ_self _) (by rw [hlen]; decide)).1 h
  exact lt_irrefl _ hlt

end Rtstream
