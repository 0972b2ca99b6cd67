import Rtstream.RtpScan

/-!
# `next_nalu` against the segments of a frame

Cut at its start codes, a frame is what stands before the first one and a segment behind each
(`segments`). `nalus` takes these segments up to the first empty one (`nalus_eq_takeWhile`):
`next_nalu` returns `false` for an empty segment as it does at the end of the frame, and
`send_frame` leaves its loop.

`scanNalus` is the scan with its reads: every `d[i + k]` is a read that may fail, made only when the
tests before it let it be made. No read fails and the loops end (`scanNalus_eq`).
-/

namespace Rtstream.RtpServer

/-! ## The scan with its reads -/

/-- `d[i] == x`. There is no result outside the data. -/
def byteIs (d : Bytes) (i : ℕ) (x : UInt8) : Option Bool := d[i]?.map (· == x)

/-- `a && b`: what is on the right is read only when the left side holds. -/
def andThen (a b : Option Bool) : Option Bool := a.bind fun x => if x then b else some false

/-- `a || b` -/
def orElse (a b : Option Bool) : Option Bool := a.bind fun x => if x then some true else b

/-- The tests of the first loop: the length of the start code at `i`. -/
def codeLength (d : Bytes) (i : ℕ) : Option (Option ℕ) := do
  if ← andThen (byteIs d i 0) (byteIs d (i + 1) 0) then
    if ← andThen (some (i + 2 < d.length)) (byteIs d (i + 2) 1) then return some 3
    if ← andThen (some (i + 3 < d.length)) (andThen (byteIs d (i + 2) 0) (byteIs d (i + 3) 1)) then
      return some 4
  return none

/-- `while (i + 2 < len + 1 && i < len)` -/
def scanStart (d : Bytes) (i : ℕ) : Option (Option (ℕ × ℕ)) :=
  if i + 2 < d.length + 1 ∧ i < d.length then
    match codeLength d i with
    | none => none
    | some (some n) => some (some (i, n))
    | some none => scanStart d (i + 1)
  else some none
termination_by d.length - i

/-- The test of the second loop. -/
def isCode (d : Bytes) (j : ℕ) : Option Bool :=
  andThen (byteIs d j 0) (andThen (byteIs d (j + 1) 0) (orElse (byteIs d (j + 2) 1)
    (andThen (some (j + 3 < d.length)) (andThen (byteIs d (j + 2) 0) (byteIs d (j + 3) 1)))))

/-- `for (size_t j = nal_start; j + 2 < len; ++j)` -/
def scanEnd (d : Bytes) (j : ℕ) : Option ℕ :=
  if j + 2 < d.length then
    match isCode d j with
    | none => none
    | some true => some j
    | some false => scanEnd d (j + 1)
  else some d.length
termination_by d.length - j

/-- `next_nalu`, with its reads. -/
def scanNext (d : Bytes) (pos : ℕ) : Option (Option (ℕ × ℕ)) := do
  match ← scanStart d pos with
  | none => return none
  | some (scStart, scLen) =>
    let nalStart := scStart + scLen
    let nalEnd ← scanEnd d nalStart
    return if nalStart ≥ nalEnd then none else some (nalStart, nalEnd - nalStart)

/-- The loop of `send_frame` over the NALUs. There is no result when a read fails, nor when the
turns given to the loop are not enough. -/
def scanNalus (d : Bytes) : ℕ → ℕ → Option (List Bytes)
  | 0, _ => none
  | turns + 1, pos =>
    if pos < d.length then do
      match ← scanNext d pos with
      | none => return []
      | some (nal, nalLen) =>
        return Slices.slice d nal nalLen :: (← scanNalus d turns (nal + nalLen))
    else some []

/-! ## Segments -/

theorem startCode_pos {d : Bytes} {n : ℕ} (h : startCode d = some n) : 0 < n := by
  unfold startCode at h
  split_ifs at h <;> cases h <;> decide

/-- What stands before the first start code, and the segments behind the start codes. -/
def cut : Bytes → Bytes × List Bytes
  | [] => ([], [])
  | b :: d =>
    match _h : startCode (b :: d) with
    | some n => ([], (cut ((b :: d).drop n)).1 :: (cut ((b :: d).drop n)).2)
    | none => (b :: (cut d).1, (cut d).2)
termination_by d => d.length
decreasing_by
  · have := startCode_pos ‹_›
    simp only [List.length_drop, List.length_cons]
    omega
  · simp

/-- The segments of a frame, from the first start code to the end. -/
def segments (d : Bytes) : List Bytes := (cut d).2

@[simp] theorem cut_nil : cut [] = ([], []) := by rw [cut]

theorem cut_of_code {d : Bytes} {n : ℕ} (h : startCode d = some n) :
    cut d = ([], (cut (d.drop n)).1 :: (cut (d.drop n)).2) := by
  cases d with
  | nil => cases h
  | cons b d =>
    rw [cut]
    split
    · next m hm =>
      obtain rfl := Option.some.inj (h.symm.trans hm)
      rfl
    · next hnone => cases h.symm.trans hnone

theorem cut_of_none {b : UInt8} {d : Bytes} (h : startCode (b :: d) = none) :
    cut (b :: d) = (b :: (cut d).1, (cut d).2) := by
  rw [cut]
  split
  · next m hm => cases h.symm.trans hm
  · rfl

theorem take_cut (d : Bytes) : d.take (cut d).1.length = (cut d).1 := by
  fun_induction cut d with
  | case1 => rfl
  | case2 b d n h ih => rfl
  | case3 b d h ih => rw [List.length_cons, List.take_succ_cons, ih]

theorem segments_drop (d : Bytes) : segments (d.drop (cut d).1.length) = segments d := by
  induction d with
  | nil => simp
  | cons b d ih =>
    cases h : startCode (b :: d) with
    | some n => simp [cut_of_code h]
    | none =>
      rw [segments, segments, cut_of_none h, List.length_cons, List.drop_succ_cons]
      exact ih

/-- What is behind `cut` begins with a start code, or the frame is over. -/
theorem drop_cut (d : Bytes) :
    d.drop (cut d).1.length = [] ∨ (startCode (d.drop (cut d).1.length)).isSome := by
  induction d with
  | nil => simp
  | cons b d ih =>
    cases h : startCode (b :: d) with
    | some n => simp [cut_of_code h, h]
    | none =>
      rw [cut_of_none h, List.length_cons, List.drop_succ_cons]
      exact ih

theorem exists_codeBytes {d : Bytes} {n : ℕ} (h : startCode d = some n) :
    ∃ long, d = codeBytes long ++ d.drop n := by
  unfold startCode at h
  split_ifs at h with h3 h4
  · obtain rfl := Option.some.inj h
    refine ⟨false, ?_⟩
    rw [codeBytes, if_neg Bool.false_ne_true, ← h3, List.take_append_drop]
  · obtain rfl := Option.some.inj h
    refine ⟨true, ?_⟩
    rw [codeBytes, if_pos rfl, ← h4, List.take_append_drop]

/-- **The segments are cut out of the frame**: with a start code before each they give it back, and
no start code begins in what stands before the first one (nor, as it is cut the same way, in a
segment). -/
theorem cut_spec (d : Bytes) :
    (∃ units, d = (cut d).1 ++ annexB units ∧ units.map Prod.snd = segments d) ∧
      ∀ i < (cut d).1.length, startCode (d.drop i) = none := by
  fun_induction cut d with
  | case1 => exact ⟨⟨[], rfl, by simp [segments]⟩, by simp⟩
  | case2 b d n h ih =>
    obtain ⟨long, hlong⟩ := exists_codeBytes h
    obtain ⟨⟨units, hd, hunits⟩, -⟩ := ih
    refine ⟨⟨(long, (cut ((b :: d).drop n)).1) :: units, ?_, ?_⟩, by simp⟩
    · rw [annexB, List.flatMap_cons, List.append_assoc, List.nil_append]
      exact hlong.trans (congrArg _ hd)
    · rw [List.map_cons, hunits, segments, segments, cut_of_code h]
  | case3 b d h ih =>
    obtain ⟨⟨units, hd, hunits⟩, hnone⟩ := ih
    refine ⟨⟨units, congrArg (b :: ·) hd, ?_⟩, ?_⟩
    · rw [hunits, segments, segments, cut_of_none h]
    · intro i hi
      cases i with
      | zero => exact h
      | succ i => exact hnone i (Nat.lt_of_succ_lt_succ hi)

theorem segments_of_code {d : Bytes} {n : ℕ} (h : startCode (d.drop (cut d).1.length) = some n) :
    segments d = (cut (d.drop ((cut d).1.length + n))).1 ::
      (cut (d.drop ((cut d).1.length + n))).2 := by
  rw [← segments_drop, segments, cut_of_code h, List.drop_drop]

theorem segments_of_none {d : Bytes} (h : startCode (d.drop (cut d).1.length) = none) :
    segments d = [] := by
  rcases drop_cut d with hnil | hsome
  · rw [← segments_drop, hnil, segments, cut_nil]
  · rw [h] at hsome
    cases hsome

/-! ## The loops against the segments -/

/-- The second loop goes over what stands before the next start code. -/
theorem findEnd_eq (d : Bytes) (j : ℕ) : findEnd d j = j + (cut d).1.length := by
  induction d generalizing j with
  | nil => simp [findEnd]
  | cons b d ih =>
    rw [findEnd]
    cases h : startCode (b :: d) with
    | some n => simp [cut_of_code h]
    | none =>
      rw [ih, cut_of_none h, List.length_cons]
      simp only [Option.isSome_none, Bool.false_eq_true, if_false]
      omega

/-- The first loop goes over it too, and stops at the start code. -/
theorem findStart_eq (d : Bytes) (i : ℕ) : findStart d i =
    (startCode (d.drop (cut d).1.length)).map fun n => (i + (cut d).1.length, n) := by
  induction d generalizing i with
  | nil => simp [findStart, startCode]
  | cons b d ih =>
    rw [findStart]
    cases h : startCode (b :: d) with
    | some n => simp [cut_of_code h, h]
    | none =>
      rw [cut_of_none h, List.length_cons, List.drop_succ_cons]
      simp only [ih, Nat.add_comm (cut d).1.length 1, Nat.add_assoc]

theorem nextNalu_of_none {d : Bytes} {pos : ℕ}
    (h : startCode ((d.drop pos).drop (cut (d.drop pos)).1.length) = none) :
    nextNalu d pos = none := by
  rw [nextNalu, findStart_eq, h]
  rfl

/-- Behind a start code, `next_nalu` finds what stands before the next one, unless it is empty. -/
theorem nextNalu_of_code {d : Bytes} {pos n start : ℕ}
    (h : startCode ((d.drop pos).drop (cut (d.drop pos)).1.length) = some n)
    (hstart : start = pos + (cut (d.drop pos)).1.length + n) :
    nextNalu d pos = if (cut (d.drop start)).1 = [] then none
      else some (start, (cut (d.drop start)).1.length) := by
  rw [nextNalu, findStart_eq, h, hstart]
  show (if findEnd (d.drop _) _ ≤ _ then none else some (_, findEnd (d.drop _) _ - _)) = _
  rw [findEnd_eq, Nat.add_sub_cancel_left]
  by_cases hempty : (cut (d.drop start)).1 = []
  · rw [hstart] at hempty
    rw [hempty, List.length_nil, Nat.add_zero, if_pos le_rfl, if_pos rfl]
  · rw [hstart] at hempty
    have hlen := List.length_pos_of_ne_nil hempty
    rw [if_neg (by omega), if_neg hempty]

/-- **`nalus` takes the segments up to the first empty one.** -/
theorem nalusFrom_eq_takeWhile {d : Bytes} {fuel pos : ℕ} (hfuel : d.length ≤ pos + fuel) :
    nalusFrom d fuel pos = (segments (d.drop pos)).takeWhile (· ≠ []) := by
  induction fuel generalizing pos with
  | zero =>
    rw [List.drop_eq_nil_of_le (by omega), segments, cut_nil]
    rfl
  | succ fuel ih =>
    rw [nalusFrom]
    split_ifs with hpos
    · cases hcode : startCode ((d.drop pos).drop (cut (d.drop pos)).1.length) with
      | none =>
        rw [nextNalu_of_none hcode, segments_of_none hcode]
        rfl
      | some n =>
        have hn := startCode_pos hcode
        generalize hstart : pos + (cut (d.drop pos)).1.length + n = start
        have hu : (d.drop pos).drop ((cut (d.drop pos)).1.length + n) = d.drop start := by
          rw [List.drop_drop, ← hstart, Nat.add_assoc]
        rw [nextNalu_of_code hcode hstart.symm, segments_of_code hcode, hu]
        by_cases hempty : (cut (d.drop start)).1 = []
        · rw [if_pos hempty, hempty]
          rfl
        · have hrest : segments (d.drop (start + (cut (d.drop start)).1.length)) =
              (cut (d.drop start)).2 := by
            rw [← List.drop_drop, segments_drop, segments]
          rw [if_neg hempty, List.takeWhile_cons_of_pos (by simpa using hempty)]
          simp only [ih (show d.length ≤ start + (cut (d.drop start)).1.length + fuel by omega),
            hrest, Slices.slice, take_cut]
    · rw [List.drop_eq_nil_of_le (by omega), segments, cut_nil]
      rfl

theorem nalus_eq_takeWhile (d : Bytes) : nalus d = (segments d).takeWhile (· ≠ []) :=
  nalusFrom_eq_takeWhile (by omega)

/-! ## The reads -/

theorem byteIs_drop (d : Bytes) (i k : ℕ) (x : UInt8) :
    byteIs d (i + k) x = byteIs (d.drop i) k x := by
  rw [byteIs, byteIs, List.getElem?_drop]

theorem codeLength_drop (d : Bytes) (i : ℕ) : codeLength d i = codeLength (d.drop i) 0 := by
  have hlt : ∀ k, i + k < d.length ↔ 0 + k < (d.drop i).length := by
    intro k
    rw [List.length_drop]
    omega
  have hzero := byteIs_drop d i 0 0
  rw [Nat.add_zero] at hzero
  simp only [codeLength, byteIs_drop d i, hzero, hlt, Nat.zero_add]

theorem isCode_drop (d : Bytes) (i : ℕ) : isCode d i = isCode (d.drop i) 0 := by
  have hlt : ∀ k, i + k < d.length ↔ 0 + k < (d.drop i).length := by
    intro k
    rw [List.length_drop]
    omega
  have hzero := byteIs_drop d i 0 0
  rw [Nat.add_zero] at hzero
  simp only [isCode, byteIs_drop d i, hzero, hlt, Nat.zero_add]

/-- With two bytes left, the tests of the first loop find the start code. -/
theorem codeLength_eq {d : Bytes} {i : ℕ} (h : i + 1 < d.length) :
    codeLength d i = some (startCode (d.drop i)) := by
  rw [codeLength_drop]
  have hlen : 2 ≤ (d.drop i).length := by
    rw [List.length_drop]
    omega
  generalize d.drop i = l at hlen
  match l, hlen with
  | [a, b], _ =>
    by_cases ha : a = 0 <;> by_cases hb : b = 0 <;>
      simp [codeLength, byteIs, andThen, startCode, ha, hb]
  | [a, b, c], _ =>
    by_cases ha : a = 0 <;> by_cases hb : b = 0 <;> by_cases hc : c = 1 <;>
      simp [codeLength, byteIs, andThen, startCode, ha, hb, hc]
  | a :: b :: c :: e :: l, _ =>
    by_cases ha : a = 0 <;> by_cases hb : b = 0 <;> by_cases hc : c = 1 <;>
      by_cases hz : c = 0 <;> by_cases he : e = 1 <;>
      simp [codeLength, byteIs, andThen, startCode, ha, hb, hc, hz, he]

theorem isCode_eq {d : Bytes} {j : ℕ} (h : j + 2 < d.length) :
    isCode d j = some (startCode (d.drop j)).isSome := by
  rw [isCode_drop]
  have hlen : 3 ≤ (d.drop j).length := by
    rw [List.length_drop]
    omega
  generalize d.drop j = l at hlen
  match l, hlen with
  | [a, b, c], _ =>
    by_cases ha : a = 0 <;> by_cases hb : b = 0 <;> by_cases hc : c = 1 <;>
      simp [isCode, byteIs, andThen, orElse, startCode, ha, hb, hc]
  | a :: b :: c :: e :: l, _ =>
    by_cases ha : a = 0 <;> by_cases hb : b = 0 <;> by_cases hc : c = 1 <;>
      by_cases hz : c = 0 <;> by_cases he : e = 1 <;>
      simp [isCode, byteIs, andThen, orElse, startCode, ha, hb, hc, hz, he]

theorem startCode_short {d : Bytes} (h : d.length ≤ 2) : startCode d = none := by
  rw [← Option.not_isSome_iff_eq_none]
  intro hs
  rcases startCode_isSome hs with hprefix | hprefix
  all_goals
    have := hprefix.length_le
    simp only [List.length_cons, List.length_nil] at this
    omega

theorem findStart_short {d : Bytes} (h : d.length ≤ 2) (i : ℕ) : findStart d i = none := by
  induction d generalizing i with
  | nil => rfl
  | cons b d ih =>
    rw [findStart, startCode_short h]
    exact ih (Nat.le_of_succ_le h) (i + 1)

theorem findEnd_short {d : Bytes} (h : d.length ≤ 2) (j : ℕ) : findEnd d j = j + d.length := by
  induction d generalizing j with
  | nil => rfl
  | cons b d ih =>
    rw [findEnd, startCode_short h, ih (Nat.le_of_succ_le h), List.length_cons]
    simp only [Option.isSome_none, Bool.false_eq_true, if_false]
    omega

theorem scanStart_eq (d : Bytes) (i : ℕ) : scanStart d i = some (findStart (d.drop i) i) := by
  fun_induction scanStart d i with
  | case1 i h hfail =>
    rw [codeLength_eq (by omega)] at hfail
    cases hfail
  | case2 i h n hcode =>
    rw [codeLength_eq (by omega), Option.some.injEq] at hcode
    rw [List.drop_eq_getElem_cons h.2] at hcode ⊢
    rw [findStart, hcode]
  | case3 i h hcode ih =>
    rw [codeLength_eq (by omega), Option.some.injEq] at hcode
    rw [ih, List.drop_eq_getElem_cons h.2]
    rw [List.drop_eq_getElem_cons h.2] at hcode
    rw [findStart, hcode]
  | case4 i h =>
    -- One byte is left at most.
    rw [findStart_short (by rw [List.length_drop]; omega)]

theorem scanEnd_eq (d : Bytes) {j : ℕ} (hj : j ≤ d.length) :
    scanEnd d j = some (findEnd (d.drop j) j) := by
  fun_induction scanEnd d j with
  | case1 j h hfail =>
    rw [isCode_eq h] at hfail
    cases hfail
  | case2 j h hcode =>
    rw [isCode_eq h, Option.some.injEq] at hcode
    rw [List.drop_eq_getElem_cons (by omega)] at hcode ⊢
    rw [findEnd, if_pos hcode]
  | case3 j h hcode ih =>
    rw [isCode_eq h, Option.some.injEq] at hcode
    rw [ih (by omega), List.drop_eq_getElem_cons (show j < d.length by omega)]
    rw [List.drop_eq_getElem_cons (by omega)] at hcode
    rw [findEnd, hcode]
    rfl
  | case4 j h =>
    -- Two bytes are left at most.
    rw [findEnd_short (by rw [List.length_drop]; omega), List.length_drop]
    congr 1
    omega

theorem startCode_le {d : Bytes} {n : ℕ} (h : startCode d = some n) : n ≤ d.length := by
  unfold startCode at h
  split_ifs at h with h3 h4
  · have := congrArg List.length h3
    simp only [List.length_take, List.length_cons, List.length_nil] at this
    cases h
    omega
  · have := congrArg List.length h4
    simp only [List.length_take, List.length_cons, List.length_nil] at this
    cases h
    omega

theorem findStart_bounds {d : Bytes} {pos start n : ℕ}
    (h : findStart (d.drop pos) pos = some (start, n)) :
    pos ≤ start ∧ 0 < n ∧ start + n ≤ d.length := by
  rw [findStart_eq, Option.map_eq_some_iff] at h
  obtain ⟨m, hcode, heq⟩ := h
  obtain ⟨rfl, rfl⟩ := Prod.mk.inj heq
  have hle := startCode_le hcode
  have hpos := startCode_pos hcode
  rw [List.drop_drop, List.length_drop] at hle
  omega

/-- **No read of `next_nalu` fails**, and its loops end. -/
theorem scanNext_eq (d : Bytes) (pos : ℕ) : scanNext d pos = some (nextNalu d pos) := by
  rw [scanNext, scanStart_eq, nextNalu]
  cases hstart : findStart (d.drop pos) pos with
  | none => rfl
  | some sc =>
    obtain ⟨start, n⟩ := sc
    have hbounds := findStart_bounds hstart
    show (scanEnd d (start + n)).bind _ = _
    rw [scanEnd_eq d hbounds.2.2]
    rfl

/-- **No read fails, and the loop needs no more turns than there are bytes left.** -/
theorem scanNalus_eq {d : Bytes} {turns pos : ℕ} (h : d.length ≤ pos + turns) :
    scanNalus d (turns + 1) pos = some (nalusFrom d turns pos) := by
  induction turns generalizing pos with
  | zero => rw [scanNalus, if_neg (by omega), nalusFrom]
  | succ turns ih =>
    rw [scanNalus, nalusFrom]
    split_ifs with hpos
    · rw [scanNext_eq]
      cases hnext : nextNalu d pos with
      | none => rfl
      | some sc =>
        obtain ⟨nal, len⟩ := sc
        have hlt := nextNalu_advances hnext
        show (scanNalus d (turns + 1) (nal + len)).bind _ = _
        rw [ih (by omega)]
        rfl
    · rfl

/-! ## What is left out -/

/-- No segment with bytes stands behind an empty one. -/
def EmptyLast (d : Bytes) : Prop :=
  ∀ before after, segments d = before ++ [] :: after → ∀ s ∈ after, s = []

theorem takeWhile_eq_filter_iff {α : Type*} (p : α → Bool) (l : List α) :
    l.takeWhile p = l.filter p ↔
      ∀ before a after, l = before ++ a :: after → p a = false → ∀ b ∈ after, p b = false := by
  induction l with
  | nil => simp
  | cons x l ih =>
    cases hx : p x with
    | true =>
      rw [List.takeWhile_cons_of_pos hx, List.filter_cons_of_pos hx, List.cons_inj_right, ih]
      constructor
      · intro h before a after heq ha
        rcases List.cons_eq_append_iff.1 heq with ⟨rfl, htail⟩ | ⟨before, rfl, rfl⟩
        · obtain ⟨rfl, rfl⟩ := List.cons.inj htail
          rw [hx] at ha
          cases ha
        · exact h before a after rfl ha
      · rintro h before a after rfl
        exact h (x :: before) a after rfl
    | false =>
      have hnone : ¬ p x = true := by simp [hx]
      rw [List.takeWhile_cons_of_neg hnone, List.filter_cons_of_neg hnone, eq_comm,
        List.filter_eq_nil_iff]
      constructor
      · rintro h before a after heq - b hb
        rcases List.cons_eq_append_iff.1 heq with ⟨rfl, htail⟩ | ⟨before, rfl, rfl⟩
        · obtain ⟨-, rfl⟩ := List.cons.inj htail
          simpa using h b hb
        · exact Bool.eq_false_iff.2 (h b (by simp [hb]))
      · intro h b hb
        simpa using h [] x l rfl hx b hb

/-- **The scan**, of any data: every read is in bounds and the loops end; and it takes exactly the
segments that are not empty, in order, if and only if none of them stands behind an empty one. -/
theorem scan_exact_iff (d : Bytes) :
    (scanNalus d (d.length + 1) 0).isSome ∧
      (scanNalus d (d.length + 1) 0 = some ((segments d).filter (· ≠ [])) ↔ EmptyLast d) := by
  have hscan : scanNalus d (d.length + 1) 0 = some (nalus d) := scanNalus_eq (by omega)
  refine ⟨by rw [hscan]; rfl, ?_⟩
  rw [hscan, Option.some.injEq, nalus_eq_takeWhile, takeWhile_eq_filter_iff]
  constructor
  · intro h before after heq s hs
    simpa using h before [] after heq (by simp) s hs
  · intro h before a after heq ha s hs
    obtain rfl : a = [] := by simpa using ha
    simp [h before after heq s hs]

/-- Two start codes, one right behind the other, and the NALU behind them is gone. -/
theorem nalu_dropped : scanNalus [0, 0, 1, 0, 0, 1, 0x65] 8 0 ≠
    some ((segments [0, 0, 1, 0, 0, 1, 0x65]).filter (· ≠ [])) := by
  decide +kernel

end Rtstream.RtpServer
