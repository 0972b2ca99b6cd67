import Rtstream.Lib.RingBuffer
import Rtstream.Lib.Selection
import Mathlib.Algebra.Order.Ring.Int

/-!
# `metrics.h`: the latency statistics

End-to-end latencies go into a ring of 1024 entries; `latency` copies its filled prefix and selects
four entries of it. The samples are from any linear order. `std::nth_element` is any selection
algorithm, and the products `0.95 * (size - 1)` and `0.99 * (size - 1)` are those of `double`s.

`latency_window`: the statistics are the order statistics of the last 1024 samples.
`percentiles_ordered_iff`: they are in ascending order, except for two different samples: the
median of two is the larger one, while the 95th percentile is the smaller.
-/

namespace Rtstream

open OrderStatistics

/-! ## The code -/

def kLatCapacity : ℕ := 1024

/-- The part of `Metrics` that `add_e2e_ms` and `latency` work on. -/
structure Metrics (α : Type*) where
  latencies : Vector α kLatCapacity
  latHead : Fin kLatCapacity
  latCount : ℕ
  latCount_le : latCount ≤ kLatCapacity

structure LatencyStats (α : Type*) where
  p50 : α
  p95 : α
  p99 : α
  max : α
  samples : ℕ
  deriving DecidableEq, Repr

/-- `static_cast<size_t>(q * (size - 1))` -/
def percentileIndex (q : Float) (size : ℕ) : ℕ :=
  (q * (UInt64.ofNat (size - 1)).toFloat).toUInt64.toNat

/-- The loop of `std::max_element`. -/
def maxElement {α : Type*} [LinearOrder α] : List α → Option α
  | [] => none
  | a :: l => some (l.foldl (fun best x => if best < x then x else best) a)

namespace Metrics

variable {α : Type*} [LinearOrder α] [Zero α]

/-- `double latencies_[kLatCapacity] = {0};` -/
def initial : Metrics α where
  latencies := Vector.replicate kLatCapacity 0
  latHead := ⟨0, by decide⟩
  latCount := 0
  latCount_le := Nat.zero_le _

/-- `add_e2e_ms` -/
def addE2eMs (m : Metrics α) (ms : α) : Metrics α where
  latencies := m.latencies.set m.latHead ms
  latHead := ⟨(m.latHead + 1) % kLatCapacity, Nat.mod_lt _ (by decide)⟩
  latCount := if m.latCount < kLatCapacity then m.latCount + 1 else m.latCount
  latCount_le := by
    have := m.latCount_le
    split_ifs <;> omega

/-- Select entry `i` of a copy. There is no result when the copy has no entry `i`. -/
def nth (sel : Selection α) (v : List α) (i : ℕ) : Option α := (sel.select v i)[i]?

/-- `latency` -/
def latency (sel : Selection α) (m : Metrics α) : Option (LatencyStats α) :=
  let v := m.latencies.toList.take m.latCount
  if v.isEmpty then some { p50 := 0, p95 := 0, p99 := 0, max := 0, samples := v.length }
  else do
    let p50 ← nth sel v (v.length / 2)
    let p95 ← nth sel v (percentileIndex 0.95 v.length)
    let p99 ← nth sel v (percentileIndex 0.99 v.length)
    let max ← maxElement v
    return { p50 := p50, p95 := p95, p99 := p99, max := max, samples := v.length }

/-- A run of calls of `add_e2e_ms`. -/
def record (samples : List α) : Metrics α := samples.foldl addE2eMs initial

/-- The last samples, as many as the ring holds. -/
def lastSamples (samples : List α) : List α := samples.drop (samples.length - kLatCapacity)

omit [LinearOrder α] [Zero α] in
theorem length_lastSamples (samples : List α) :
    (lastSamples samples).length = min samples.length kLatCapacity := by
  rw [lastSamples, List.length_drop]
  omega

omit [LinearOrder α] [Zero α] in
theorem lastSamples_of_length_le {samples : List α} (h : samples.length ≤ kLatCapacity) :
    lastSamples samples = samples := by
  rw [lastSamples, Nat.sub_eq_zero_of_le h, List.drop_zero]

/-! ## The window -/

omit [LinearOrder α] in
/-- The ring is a window over the samples, and the count says how much of it is filled. -/
theorem holds_record (samples : List α) :
    RingBuffer.Holds 0 (record samples).latencies.toList (record samples).latHead samples ∧
      (record samples).latCount = min samples.length kLatCapacity := by
  induction samples using List.reverseRecOn with
  | nil =>
    refine ⟨?_, rfl⟩
    have hfill := RingBuffer.holds_fill (0 : α) kLatCapacity
    rwa [← Vector.toList_replicate] at hfill
  | append_singleton samples ms ih =>
    obtain ⟨hholds, hcount⟩ := ih
    rw [record, List.foldl_concat, ← record]
    set m := record samples with hm
    constructor
    · have hwrite := hholds.write (by rw [Vector.length_toList]; decide) ms
      rw [Vector.length_toList, ← Vector.toList_set m.latHead.isLt] at hwrite
      exact hwrite
    · show (if m.latCount < kLatCapacity then m.latCount + 1 else m.latCount) = _
      rw [hcount, List.length_append, List.length_singleton]
      split_ifs <;> omega

omit [LinearOrder α] in
/-- **The prefix that `latency` copies has the last samples.** -/
theorem copied_perm (samples : List α) :
    ((record samples).latencies.toList.take (record samples).latCount).Perm
      (lastSamples samples) := by
  obtain ⟨hholds, hcount⟩ := holds_record samples
  have hperm := hholds.take_perm
  rw [Vector.length_toList] at hperm
  rw [hcount]
  exact hperm

/-! ## The four entries -/

/-- The products of `double`s, cut to integers, for every size of the window. -/
theorem percentileIndex_eq {size : ℕ} (h : size ≤ kLatCapacity) :
    percentileIndex 0.95 size = 95 * (size - 1) / 100 ∧
      percentileIndex 0.99 size = 99 * (size - 1) / 100 := by
  have h95 : ∀ k < 1024, (0.95 * (UInt64.ofNat k).toFloat).toUInt64.toNat = 95 * k / 100 := by
    decide +kernel
  have h99 : ∀ k < 1024, (0.99 * (UInt64.ofNat k).toFloat).toUInt64.toNat = 99 * k / 100 := by
    decide +kernel
  have hlt : size - 1 < 1024 := by
    rw [kLatCapacity] at h
    omega
  exact ⟨h95 _ hlt, h99 _ hlt⟩

omit [Zero α] in
theorem le_foldl_best (l : List α) (a : α) :
    a ≤ l.foldl (fun best x => if best < x then x else best) a ∧
      ∀ x ∈ l, x ≤ l.foldl (fun best x => if best < x then x else best) a := by
  induction l generalizing a with
  | nil => simp
  | cons y l ih =>
    obtain ⟨hbest, hrest⟩ := ih (if a < y then y else a)
    rw [List.foldl_cons, List.forall_mem_cons]
    split_ifs at hbest hrest ⊢ with hlt
    · exact ⟨hlt.le.trans hbest, hbest, hrest⟩
    · exact ⟨hbest, (not_lt.1 hlt).trans hbest, hrest⟩

omit [Zero α] in
theorem foldl_best_mem (l : List α) (a : α) :
    l.foldl (fun best x => if best < x then x else best) a ∈ a :: l := by
  induction l generalizing a with
  | nil => simp
  | cons y l ih =>
    rw [List.foldl_cons]
    split_ifs
    · exact List.mem_cons_of_mem a (ih y)
    · exact List.cons_subset_cons a (List.subset_cons_self y l) (ih a)

omit [Zero α] in
/-- `std::max_element` finds the last of the ascending order. -/
theorem maxElement_eq {l : List α} (hne : l ≠ []) :
    maxElement l = (ascending l)[l.length - 1]? := by
  obtain ⟨a, l, rfl⟩ := List.exists_cons_of_ne_nil hne
  obtain ⟨ha, hl⟩ := le_foldl_best l a
  have hmem := foldl_best_mem l a
  set best := l.foldl (fun best x => if best < x then x else best) a with hbest
  have hle : ∀ x ∈ a :: l, x ≤ best := List.forall_mem_cons.2 ⟨ha, hl⟩
  have hlast : (a :: l).length - 1 < (ascending (a :: l)).length := by
    rw [length_ascending, List.length_cons]
    omega
  have hget : (ascending (a :: l))[(a :: l).length - 1] = best := by
    apply le_antisymm (hle _ ((ascending_perm _).subset (List.getElem_mem hlast)))
    obtain ⟨i, hi, heq⟩ := List.getElem_of_mem ((ascending_perm (a :: l)).symm.subset hmem)
    rw [← heq]
    exact getElem_ascending_mono (by rw [length_ascending] at hi; omega) hlast
  rw [List.getElem?_eq_getElem hlast, hget]
  rfl

omit [Zero α] in
theorem exists_nth (sel : Selection α) {v w : List α} (h : v.Perm w) {i : ℕ} (hi : i < w.length) :
    ∃ a, nth sel v i = some a ∧ (ascending w)[i]? = some a := by
  have hlen : i < v.length := h.length_eq ▸ hi
  have hget : i < (ascending w).length := by rwa [length_ascending]
  refine ⟨_, ?_, List.getElem?_eq_getElem hget⟩
  rw [nth, sel.getElem?_select hlen, ascending_of_perm h, List.getElem?_eq_getElem hget]

theorem latency_record (sel : Selection α) {samples : List α} (hne : samples ≠ []) :
    ∃ s, (record samples).latency sel = some s ∧ s.samples = (lastSamples samples).length ∧
      (ascending (lastSamples samples))[(lastSamples samples).length / 2]? = some s.p50 ∧
      (ascending (lastSamples samples))[95 * ((lastSamples samples).length - 1) / 100]? =
        some s.p95 ∧
      (ascending (lastSamples samples))[99 * ((lastSamples samples).length - 1) / 100]? =
        some s.p99 ∧
      (ascending (lastSamples samples))[(lastSamples samples).length - 1]? = some s.max := by
  have hperm := copied_perm samples
  have hlen := length_lastSamples samples
  have hpos := List.length_pos_of_ne_nil hne
  generalize hv : (record samples).latencies.toList.take (record samples).latCount = v at hperm
  generalize lastSamples samples = w at hperm hlen ⊢
  have hcap : w.length ≤ kLatCapacity := hlen.trans_le (min_le_right _ _)
  have hwpos : 0 < w.length := by
    rw [hlen, kLatCapacity]
    omega
  have hvw : v.length = w.length := hperm.length_eq
  have hvne : v ≠ [] := List.ne_nil_of_length_pos (by omega)
  have hasc : ascending v = ascending w := ascending_of_perm hperm
  obtain ⟨h95, h99⟩ := percentileIndex_eq hcap
  obtain ⟨p50, hp50, hs50⟩ := exists_nth sel hperm (show w.length / 2 < w.length by omega)
  obtain ⟨p95, hp95, hs95⟩ :=
    exists_nth sel hperm (show 95 * (w.length - 1) / 100 < w.length by omega)
  obtain ⟨p99, hp99, hs99⟩ :=
    exists_nth sel hperm (show 99 * (w.length - 1) / 100 < w.length by omega)
  obtain ⟨top, -, hstop⟩ := exists_nth sel hperm (show w.length - 1 < w.length by omega)
  have hmax : maxElement v = some top := by rw [maxElement_eq hvne, hvw, hasc, hstop]
  have hempty : v.isEmpty = false := by simpa using hvne
  refine ⟨⟨p50, p95, p99, top, w.length⟩, ?_, rfl, hs50, hs95, hs99, hstop⟩
  rw [latency, hv]
  simp only [hempty, hvw, h95, h99, hp50, hp95, hp99, hmax]
  rfl

/-- **The statistics cover exactly the recent window**: after one sample or more, they are the order
statistics of the last 1024 samples. -/
theorem latency_window (sel : Selection α) (first : α) (rest : List α) :
    ∃ s, (record (first :: rest)).latency sel = some s ∧
      s.samples = min (first :: rest).length 1024 ∧
      let sorted := ascending (lastSamples (first :: rest))
      sorted[s.samples / 2]? = some s.p50 ∧
        sorted[95 * (s.samples - 1) / 100]? = some s.p95 ∧
        sorted[99 * (s.samples - 1) / 100]? = some s.p99 ∧
        sorted[s.samples - 1]? = some s.max := by
  obtain ⟨s, hs, hsamples, hrest⟩ := latency_record sel (List.cons_ne_nil first rest)
  refine ⟨s, hs, hsamples.trans (length_lastSamples _), ?_⟩
  rw [hsamples]
  exact hrest

omit [Zero α] in
theorem eq_of_last_le_first {a b lo hi : α} (hlo : (ascending [a, b])[0]? = some lo)
    (hhi : (ascending [a, b])[1]? = some hi) (h : hi ≤ lo) : a = b := by
  have hall : ∀ x ∈ [a, b], x = lo := by
    intro x hx
    obtain ⟨i, hlt, rfl⟩ := List.getElem_of_mem ((ascending_perm _).symm.subset hx)
    have hget := List.getElem?_eq_getElem hlt
    rw [length_ascending] at hlt
    apply le_antisymm
    · exact (ascending_le_of_le hget hhi (Nat.le_of_lt_succ hlt)).trans h
    · exact ascending_le_of_le hlo hget (Nat.zero_le i)
  rw [hall a (by simp), hall b (by simp)]

/-- **The percentiles are in ascending order** unless there are two samples that differ. -/
theorem percentiles_ordered_iff (sel : Selection α) (first : α) (rest : List α) :
    ∃ s, (record (first :: rest)).latency sel = some s ∧
      ((s.p50 ≤ s.p95 ∧ s.p95 ≤ s.p99 ∧ s.p99 ≤ s.max) ↔
        ∀ second, rest = [second] → first = second) := by
  obtain ⟨s, hs, -, h50, h95, h99, hmax⟩ := latency_record sel (List.cons_ne_nil first rest)
  refine ⟨s, hs, ?_⟩
  have hlen := length_lastSamples (first :: rest)
  rw [kLatCapacity, List.length_cons] at hlen
  constructor
  · rintro ⟨h5095, -, -⟩ second rfl
    -- The median is the larger of the two, the 95th percentile the smaller.
    have hw : lastSamples [first, second] = [first, second] :=
      lastSamples_of_length_le (Nat.le_add_left 2 1022)
    rw [hw, List.length_cons, List.length_singleton] at h50 h95
    exact eq_of_last_le_first h95 h50 h5095
  · intro hsame
    by_cases htwo : (lastSamples (first :: rest)).length = 2
    · obtain ⟨second, rfl⟩ := List.length_eq_one_iff.1 (by omega : rest.length = 1)
      obtain rfl := hsame second rfl
      have hall : ∀ x ∈ lastSamples [first, first], x = first := by
        intro x hx
        simpa using List.mem_of_mem_drop hx
      rw [hall _ (mem_of_ascending h50), hall _ (mem_of_ascending h95),
        hall _ (mem_of_ascending h99), hall _ (mem_of_ascending hmax)]
      exact ⟨le_rfl, le_rfl, le_rfl⟩
    · exact ⟨ascending_le_of_le h50 h95 (by omega), ascending_le_of_le h95 h99 (by omega),
        ascending_le_of_le h99 hmax (by omega)⟩

/-- Of the samples 0 and 1, the median is reported as 1 and the 95th percentile as 0. -/
theorem two_samples_disordered :
    (record [(0 : ℤ), 1]).latency .sorting =
      some { p50 := 1, p95 := 0, p99 := 0, max := 1, samples := 2 } ∧ ¬ (1 : ℤ) ≤ 0 := by
  decide +kernel

end Metrics

end Rtstream
