import Rtstream.RtpAssembler
import Mathlib.Tactic.Common

/-!
# The packets of one frame, by position

When no packet is numbered below the frame's first one (`Within`), the vector that `emit` fills
has a place for every packet: nothing is written past its end (`badWrites_eq_nil`), and it is the
list of the packets by position, with empty strings for the missing ones (`ordered_none`), that
the recovery works on, too.
-/

namespace Rtstream.FrameState

open Std (TreeMap)

variable {f : FrameState}

/-- No packet is numbered below the first one. -/
def Within (f : FrameState) : Prop :=
  ∀ (k : UInt16) (raw : Bytes), f.raws[k]? = some raw → f.firstSeq.toNat ≤ k.toNat

/-! ## Spans and indices -/

theorem toNat_span (h : f.Within) {l : UInt16} {raw : Bytes}
    (hl : OrderedMap.last? f.raws = some (l, raw)) :
    f.span.toNat = l.toNat - f.firstSeq.toNat + 1 := by
  have hle := h l raw (OrderedMap.getElem?_last? hl)
  have h1 := l.toNat_lt
  have h2 := f.firstSeq.toNat_lt
  rw [span, hl]
  simp only [UInt32.toNat_add, UInt32.toNat_sub, UInt16.toNat_toUInt32, UInt32.toNat_one]
  omega

theorem toNat_span_of_last (h : f.Within) {l : UInt16} {raw : Bytes} (hl : f.raws[l]? = some raw)
    (hmax : ∀ (k : UInt16) (r : Bytes), f.raws[k]? = some r → k.toNat ≤ l.toNat) :
    f.span.toNat = l.toNat - f.firstSeq.toNat + 1 := by
  cases hlast : OrderedMap.last? f.raws with
  | none => rw [OrderedMap.last?_eq_none_iff.1 hlast l] at hl; cases hl
  | some kv =>
    have hle := OrderedMap.le_last? (k := kv.1) (v := kv.2) hlast hl
    rw [Std.isLE_compare, UInt16.le_iff_toNat_le] at hle
    have hge := hmax kv.1 kv.2 (OrderedMap.getElem?_last? hlast)
    rw [toNat_span h (l := kv.1) hlast]
    omega

theorem index_eq (h : f.Within) {k : UInt16} {raw : Bytes} (hk : f.raws[k]? = some raw) :
    f.index k = k.toNat - f.firstSeq.toNat := by
  have hle := h k raw hk
  have h1 := k.toNat_lt
  have h2 := f.firstSeq.toNat_lt
  simp only [index, UInt64.toNat_sub, UInt16.toNat_toUInt64]
  omega

theorem index_lt_span (h : f.Within) {k : UInt16} {raw : Bytes} (hk : f.raws[k]? = some raw) :
    f.index k < f.span.toNat := by
  cases hl : OrderedMap.last? f.raws with
  | none => rw [OrderedMap.last?_eq_none_iff.1 hl k] at hk; cases hk
  | some kv =>
    have hle := OrderedMap.le_last? (k := kv.1) (v := kv.2) hl hk
    rw [Std.isLE_compare, UInt16.le_iff_toNat_le] at hle
    rw [index_eq h hk, toNat_span h (l := kv.1) hl]
    omega

theorem badWrites_eq_nil (h : f.Within) : f.badWrites = [] := by
  apply List.filterMap_eq_nil_iff.2
  intro kv hkv
  rw [if_pos (index_lt_span h (OrderedMap.getElem?_of_mem_toList hkv))]

theorem toNat_seqAt (h : f.Within) {i : ℕ} (hi : i < f.span.toNat) :
    (f.firstSeq + UInt16.ofNat i).toNat = f.firstSeq.toNat + i := by
  cases hl : OrderedMap.last? f.raws with
  | none => rw [span, hl] at hi; cases hi
  | some kv =>
    have := toNat_span h (l := kv.1) hl
    have h1 := kv.1.toNat_lt
    have h2 := h kv.1 kv.2 (OrderedMap.getElem?_last? hl)
    rw [UInt16.toNat_add, UInt16.toNat_ofNat']
    omega

/-- The packets at a position are the one with its number. -/
theorem index_eq_iff (h : f.Within) {k : UInt16} {raw : Bytes} (hk : f.raws[k]? = some raw)
    {i : ℕ} (hi : i < f.span.toNat) : f.index k = i ↔ k = f.firstSeq + UInt16.ofNat i := by
  have hle := h k raw hk
  rw [index_eq h hk, ← UInt16.toNat_inj, toNat_seqAt h hi]
  omega

/-! ## The packets by position -/

@[simp] theorem length_known : f.known.length = f.span.toNat := by simp [known]

theorem getElem_known {i : ℕ} (hi : i < f.known.length) :
    f.known[i] = f.raws[f.firstSeq + UInt16.ofNat i]?.getD [] := by simp [known]

/-- Writes into a vector: a place that is written to, always with the same value, has it. -/
theorem getElem?_foldl_set {κ α : Type*} (idx : κ → ℕ) {l : List (κ × α)} {init : List α} {i : ℕ}
    {v : α} (hv : ∀ kv ∈ l, idx kv.1 = i → kv.2 = v) (hi : i < init.length)
    (h : init[i]? = some v ∨ ∃ kv ∈ l, idx kv.1 = i) :
    (l.foldl (fun acc kv => acc.set (idx kv.1) kv.2) init)[i]? = some v := by
  induction l generalizing init with
  | nil => exact h.resolve_right (by simp)
  | cons kv l ih =>
    rw [List.foldl_cons]
    apply ih (fun kv' hm => hv kv' (List.mem_cons_of_mem kv hm)) (by simpa using hi)
    by_cases hidx : idx kv.1 = i
    · left
      rw [← hidx, List.getElem?_set_self (by rw [hidx]; exact hi), hv kv List.mem_cons_self hidx]
    · rcases h with h | ⟨kv', hm, he⟩
      · left
        rw [List.getElem?_set_ne hidx, h]
      · rcases List.mem_cons.1 hm with rfl | hm
        · exact absurd he hidx
        · exact .inr ⟨kv', hm, he⟩

theorem length_foldl_set {κ α : Type*} (idx : κ → ℕ) (l : List (κ × α)) (init : List α) :
    (l.foldl (fun acc kv => acc.set (idx kv.1) kv.2) init).length = init.length := by
  induction l generalizing init with
  | nil => rfl
  | cons kv l ih => rw [List.foldl_cons, ih, List.length_set]

/-- **What `emit` puts in order are the packets by position.** -/
theorem ordered_none (h : f.Within) : f.ordered none = f.known := by
  have hlen : (f.ordered none).length = f.span.toNat := by
    simp only [ordered, length_foldl_set, List.length_replicate]
  apply List.ext_getElem?
  intro i
  by_cases hi : i < f.span.toNat
  · rw [List.getElem?_eq_getElem (l := f.known) (by simpa using hi), getElem_known]
    refine getElem?_foldl_set f.index (fun kv hkv hidx => ?_) (by simpa using hi) ?_
    · have hk := OrderedMap.getElem?_of_mem_toList hkv
      rw [← (index_eq_iff h hk hi).1 hidx, hk]
      rfl
    · cases hk : f.raws[f.firstSeq + UInt16.ofNat i]? with
      | none => left; simp [hi]
      | some raw =>
        exact .inr ⟨(_, raw), TreeMap.mem_toList_iff_getElem?_eq_some.2 hk,
          (index_eq_iff h hk hi).2 rfl⟩
  · rw [List.getElem?_eq_none (by omega), List.getElem?_eq_none (by simp; omega)]

theorem ordered_some (h : f.Within) {raw : Bytes} (hne : raw ≠ []) {i : ℕ}
    (hi : i < f.span.toNat) (hseq : UInt16.ofNat (UdpHeader.field raw 2 2) =
      f.firstSeq + UInt16.ofNat i) : f.ordered (some raw) = f.known.set i raw := by
  have hidx : (UInt16.ofNat (UdpHeader.field raw 2 2)).toUInt32 - f.firstSeq.toUInt32 =
      UInt32.ofNat i := by
    rw [hseq, ← UInt32.toNat_inj, UInt32.toNat_sub, UInt16.toNat_toUInt32, UInt16.toNat_toUInt32,
      toNat_seqAt h hi, UInt32.toNat_ofNat']
    have := f.firstSeq.toNat_lt
    omega
  have hi32 : (UInt32.ofNat i).toNat = i := by
    have := f.span.toNat_lt
    rw [UInt32.toNat_ofNat']
    omega
  have hemp : raw.isEmpty = false := by simpa using hne
  have hplaced := ordered_none h
  simp only [ordered] at hplaced ⊢
  rw [hplaced, hemp, if_neg Bool.false_ne_true, hidx,
    if_pos (by rw [UInt32.lt_iff_toNat_lt, hi32]; exact hi), hi32]

theorem emit_of_within (h : f.Within) {rawExtra : Option Bytes}
    (hne : (Depacketizer.run (f.ordered rawExtra)).annexb ≠ []) (now : Int) :
    f.emit rawExtra now =
      [.out f rawExtra (f.encoded (Depacketizer.run (f.ordered rawExtra)) now)] := by
  have hemp : (Depacketizer.run (f.ordered rawExtra)).annexb.isEmpty = false := by simpa using hne
  simp only [emit, badWrites_eq_nil h, hemp, List.nil_append, Bool.false_eq_true, if_false]

end Rtstream.FrameState
