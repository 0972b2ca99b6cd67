import Rtstream.RtpServer
import Mathlib.Tactic.Common

/-!
# The start-code scan finds the NALUs

An Annex-B stream is a sequence of NALUs, each behind a start code of three or four bytes. A
NALU that is escaped (`Escaped`: no start code and no run of three zeros inside, no zero at the
end) cannot be mistaken for a start code, nor run into the one behind it, so the scan stops
exactly where the next start code begins (`findEnd_append`). `nalus_annexB`: the scan gives the
NALUs back.
-/

namespace Rtstream.RtpServer

/-- A three- or four-byte start code. -/
def codeBytes (long : Bool) : Bytes := if long then [0, 0, 0, 1] else [0, 0, 1]

/-- NALUs behind their start codes. -/
def annexB (units : List (Bool × Bytes)) : Bytes := units.flatMap fun u => codeBytes u.1 ++ u.2

/-- Bytes that cannot be taken for a part of a start code. -/
structure Escaped (nal : Bytes) : Prop where
  no_code : ¬ [0, 0, 1] <:+: nal
  no_zeros : ¬ [0, 0, 0] <:+: nal
  last : nal.getLast? ≠ some 0

theorem Escaped.tail {b : UInt8} {nal : Bytes} (h : Escaped (b :: nal)) : Escaped nal where
  no_code := fun hi => h.no_code (hi.trans (List.suffix_cons b nal).isInfix)
  no_zeros := fun hi => h.no_zeros (hi.trans (List.suffix_cons b nal).isInfix)
  last := fun hl => h.last (by
    cases nal with
    | nil => cases hl
    | cons c nal => rw [List.getLast?_cons_cons]; exact hl)

/-! ## Start codes -/

@[simp] theorem startCode_codeBytes (long : Bool) (d : Bytes) :
    startCode (codeBytes long ++ d) = some (codeBytes long).length := by
  cases long <;> simp [startCode, codeBytes]

/-- A start code begins with two zeros, and a one or a third zero follows. -/
theorem startCode_isSome {d : Bytes} (h : (startCode d).isSome = true) :
    [0, 0, 1] <+: d ∨ [0, 0, 0] <+: d := by
  unfold startCode at h
  split_ifs at h with h3 h4
  · exact .inl (h3 ▸ List.take_prefix 3 d)
  · refine .inr ?_
    have : [0, 0, 0] <+: d.take 4 := h4 ▸ ⟨[1], rfl⟩
    exact this.trans (List.take_prefix 4 d)
  · cases h

/-- No start code begins inside an escaped NALU, whatever follows it. -/
theorem Escaped.startCode_append {nal : Bytes} (h : Escaped nal) (hne : nal ≠ []) (t : Bytes) :
    startCode (nal ++ t) = none := by
  rw [← Option.not_isSome_iff_eq_none]
  intro hs
  match nal, hne, h with
  | [a], _, h =>
    -- The one byte left would be a zero.
    rcases startCode_isSome hs with ⟨u, hu⟩ | ⟨u, hu⟩ <;>
      exact h.last (by simp at hu; simp [hu.1])
  | [a, b], _, h =>
    rcases startCode_isSome hs with ⟨u, hu⟩ | ⟨u, hu⟩ <;>
      exact h.last (by simp at hu; simp [hu.2.1])
  | a :: b :: c :: nal, _, h =>
    rcases startCode_isSome hs with ⟨u, hu⟩ | ⟨u, hu⟩
    · simp only [List.cons_append, List.cons.injEq] at hu
      obtain ⟨rfl, rfl, rfl, -⟩ := hu
      exact h.no_code (List.prefix_append [0, 0, 1] nal).isInfix
    · simp only [List.cons_append, List.cons.injEq] at hu
      obtain ⟨rfl, rfl, rfl, -⟩ := hu
      exact h.no_zeros (List.prefix_append [0, 0, 0] nal).isInfix

/-! ## The loops -/

theorem findEnd_append {nal t : Bytes} (h : Escaped nal) (ht : t = [] ∨ (startCode t).isSome)
    (j : ℕ) : findEnd (nal ++ t) j = j + nal.length := by
  induction nal generalizing j with
  | nil =>
    cases t with
    | nil => rfl
    | cons b t =>
      rw [List.nil_append, findEnd, if_pos (ht.resolve_left (List.cons_ne_nil b t))]
      rfl
  | cons b nal ih =>
    have hnone := h.startCode_append (List.cons_ne_nil b nal) t
    rw [List.cons_append] at hnone ⊢
    rw [findEnd, hnone, ih h.tail (j + 1), List.length_cons]
    simp only [Option.isSome_none, Bool.false_eq_true, if_false]
    omega

/-- The first loop stops at once when it stands at a start code. -/
theorem findStart_codeBytes (long : Bool) (d : Bytes) (i : ℕ) :
    findStart (codeBytes long ++ d) i = some (i, (codeBytes long).length) := by
  have hcode := startCode_codeBytes long d
  cases hd : codeBytes long ++ d with
  | nil => cases long <;> cases hd
  | cons b d' =>
    rw [hd] at hcode
    rw [findStart, hcode]

theorem startCode_annexB (units : List (Bool × Bytes)) :
    annexB units = [] ∨ (startCode (annexB units)).isSome := by
  cases units with
  | nil => exact .inl rfl
  | cons u units =>
    refine .inr ?_
    rw [annexB, List.flatMap_cons, List.append_assoc, startCode_codeBytes]
    rfl

/-- **The scan gives the NALUs back**, from any position at which an Annex-B stream stands. -/
theorem nalusFrom_annexB {d : Bytes} {units : List (Bool × Bytes)} {pos fuel : ℕ}
    (hunits : ∀ u ∈ units, u.2 ≠ [] ∧ Escaped u.2) (hd : d.drop pos = annexB units)
    (hfuel : units.length ≤ fuel) : nalusFrom d fuel pos = units.map Prod.snd := by
  induction units generalizing pos fuel with
  | nil =>
    have hpos : d.length ≤ pos := List.drop_eq_nil_iff.1 hd
    cases fuel with
    | zero => rfl
    | succ fuel => rw [nalusFrom, if_neg (Nat.not_lt.2 hpos)]; rfl
  | cons u units ih =>
    obtain ⟨long, nal⟩ := u
    obtain ⟨hne, hesc⟩ := hunits (long, nal) List.mem_cons_self
    obtain ⟨fuel, rfl⟩ := Nat.exists_eq_succ_of_ne_zero (by simp at hfuel; omega : fuel ≠ 0)
    have hd : d.drop pos = codeBytes long ++ (nal ++ annexB units) := by
      rw [hd, annexB, List.flatMap_cons, List.append_assoc]
      rfl
    have hlt : pos < d.length := by
      by_contra hle
      rw [List.drop_eq_nil_of_le (Nat.le_of_not_lt hle)] at hd
      cases long <;> cases hd
    set start := pos + (codeBytes long).length with hstart
    have hbody : d.drop start = nal ++ annexB units := by
      rw [hstart, ← List.drop_drop, hd, List.drop_left]
    have hend : findEnd (d.drop start) start = start + nal.length := by
      rw [hbody, findEnd_append hesc (startCode_annexB units)]
    have hlen : 0 < nal.length := List.length_pos_of_ne_nil hne
    have hnext : nextNalu d pos = some (start, nal.length) := by
      rw [nextNalu, hd, findStart_codeBytes]
      show (if findEnd (d.drop start) start ≤ start then none
        else some (start, findEnd (d.drop start) start - start)) = some (start, nal.length)
      rw [hend, if_neg (by omega), Nat.add_sub_cancel_left]
    rw [nalusFrom, if_pos hlt, hnext]
    simp only [List.map_cons]
    congr 1
    · rw [Slices.slice, hbody, List.take_left]
    · refine ih (fun v hv => hunits v (List.mem_cons_of_mem _ hv)) ?_ (by simpa using hfuel)
      rw [← List.drop_drop, hbody, List.drop_left]

theorem length_le_annexB (units : List (Bool × Bytes)) : units.length ≤ (annexB units).length := by
  induction units with
  | nil => exact le_rfl
  | cons u units ih =>
    have : 1 ≤ (codeBytes u.1).length := by cases u.1 <;> decide
    rw [annexB, List.flatMap_cons, List.length_append, List.length_append]
    have := ih
    rw [annexB] at this
    simp only [List.length_cons]
    omega

theorem nalus_annexB {units : List (Bool × Bytes)}
    (hunits : ∀ u ∈ units, u.2 ≠ [] ∧ Escaped u.2) :
    nalus (annexB units) = units.map Prod.snd :=
  nalusFrom_annexB hunits rfl (length_le_annexB units)

/-! ## Whatever the frame -/

theorem nextNalu_ne_nil {d : Bytes} {pos start len : ℕ} (h : nextNalu d pos = some (start, len)) :
    Slices.slice d start len ≠ [] := by
  unfold nextNalu at h
  cases hstart : findStart (d.drop pos) pos with
  | none => rw [hstart] at h; cases h
  | some sc =>
    simp only [hstart] at h
    split_ifs at h with hend
    obtain ⟨rfl, rfl⟩ := Prod.mk.inj (Option.some.inj h)
    cases hd : d.drop (sc.1 + sc.2) with
    | nil => rw [hd] at hend; exact absurd le_rfl hend
    | cons b rest =>
      rw [Slices.slice, hd]
      obtain ⟨n, hn⟩ := Nat.exists_eq_succ_of_ne_zero
        (Nat.sub_ne_zero_of_lt (Nat.lt_of_not_le hend))
      rw [hd] at hn
      rw [hn, List.take_succ_cons]
      exact List.cons_ne_nil _ _

theorem le_of_findStart {d : Bytes} {i start n : ℕ} (h : findStart d i = some (start, n)) :
    i ≤ start := by
  induction d generalizing i with
  | nil => cases h
  | cons b d ih =>
    rw [findStart] at h
    split at h
    · exact (Prod.mk.inj (Option.some.inj h)).1.le
    · exact (Nat.le_succ i).trans (ih h)

theorem nextNalu_advances {d : Bytes} {pos start len : ℕ} (h : nextNalu d pos = some (start, len)) :
    pos ≤ start ∧ 0 < len := by
  have hne := nextNalu_ne_nil h
  constructor
  · unfold nextNalu at h
    cases hstart : findStart (d.drop pos) pos with
    | none => rw [hstart] at h; cases h
    | some sc =>
      simp only [hstart] at h
      split_ifs at h
      rw [← (Prod.mk.inj (Option.some.inj h)).1]
      exact (le_of_findStart hstart).trans (Nat.le_add_right _ _)
  · have hlen := List.length_pos_of_ne_nil hne
    rw [Slices.length_slice] at hlen
    omega

theorem ne_nil_of_mem_nalusFrom {d : Bytes} {fuel pos : ℕ} :
    ∀ nal ∈ nalusFrom d fuel pos, nal ≠ [] := by
  induction fuel generalizing pos with
  | zero => simp [nalusFrom]
  | succ fuel ih =>
    rw [nalusFrom]
    split_ifs
    · cases hnext : nextNalu d pos with
      | none => simp
      | some nal =>
        intro x hx
        rcases List.mem_cons.1 hx with rfl | hx
        · exact nextNalu_ne_nil hnext
        · exact ih x hx
    · simp

theorem ne_nil_of_mem_nalus {d nal : Bytes} (h : nal ∈ nalus d) : nal ≠ [] :=
  ne_nil_of_mem_nalusFrom nal h

end Rtstream.RtpServer
