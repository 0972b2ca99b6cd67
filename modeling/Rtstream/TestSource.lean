import Rtstream.Lib.Runs
import Mathlib.Algebra.BigOperators.Group.List.Basic
import Mathlib.Tactic.Common
import Mathlib.Tactic.Linarith
import Mathlib.Tactic.Ring

/-!
# `test_source.h`: the cadence of the test source

The loop sleeps until a deadline, moves the deadline on by the interval and makes a frame. It is
meant to start a new cadence when it is too far behind. The interval is an unsigned 32-bit number,
and so is its negation, which the lateness is compared with: about 4·10⁹, not a negative number.
So a turn that does not start before its deadline is always too far behind (`turn_eq`), and the
deadlines drift by how late these turns are (`nextT_after`).

`cadence_iff`: no turn starts a new cadence exactly when each starts before its deadline. The first
turn of the loop never does, since the first deadline is the time that the loop starts at.
-/

namespace Rtstream

/-- What the loop keeps from turn to turn. -/
structure TestSource where
  fps : UInt32
  nextT : Int
  fid : Int := 0
  deriving DecidableEq, Repr

/-- The clock readings of a turn, in the order in which they are taken. The second one is taken only
when the deadline is reset. -/
structure SourceTurn where
  waitUs : Int
  resetUs : Int
  captureUs : Int
  deriving DecidableEq, Repr

inductive SourceEffect
  | sleep (us : Int)
  /-- `next_t = now_us();` -/
  | reset
  | frame (frameId captureUs : Int)
  deriving DecidableEq, Repr

namespace TestSource

/-! ## The code -/

/-- `1000000 / (cfg_.fps ? cfg_.fps : 30)` -/
def intervalUs (s : TestSource) : UInt32 := 1000000 / (if s.fps ≠ 0 then s.fps else 30)

/-- The end of a turn: the next deadline, and a frame. -/
def finishTurn (s : TestSource) (nextT captureUs : Int) : TestSource × SourceEffect :=
  ({ s with nextT := nextT + s.intervalUs.toNat, fid := s.fid + 1 }, .frame (s.fid + 1) captureUs)

/-- One turn of `loop`. -/
def turn (s : TestSource) (t : SourceTurn) : TestSource × List SourceEffect :=
  let wait := s.nextT - t.waitUs
  if wait > 0 then
    let r := s.finishTurn s.nextT t.captureUs
    (r.1, [.sleep wait, r.2])
  -- The negation of an unsigned number.
  else if wait < (-s.intervalUs).toNat then
    let r := s.finishTurn t.resetUs t.captureUs
    (r.1, [.reset, r.2])
  else
    let r := s.finishTurn s.nextT t.captureUs
    (r.1, [r.2])

/-- Where `loop` starts, with its first clock reading. -/
def started (fps : UInt32) (nowUs : Int) : TestSource := { fps := fps, nextT := nowUs }

/-! ## One turn -/

theorem intervalUs_toNat {s : TestSource} (h : 1 ≤ s.fps) :
    s.intervalUs.toNat = 1000000 / s.fps.toNat := by
  have hne : s.fps ≠ 0 := by
    rintro hzero
    rw [hzero] at h
    exact absurd h (by decide)
  rw [intervalUs, if_pos hne, UInt32.toNat_div]
  rfl

theorem intervalUs_pos {s : TestSource} (h : 1 ≤ s.fps) (h' : s.fps ≤ 1000000) :
    0 < s.intervalUs.toNat := by
  have hpos : 1 ≤ s.fps.toNat := UInt32.le_iff_toNat_le.1 h
  have hle : s.fps.toNat ≤ 1000000 := UInt32.le_iff_toNat_le.1 h'
  rw [intervalUs_toNat h]
  exact Nat.div_pos hle hpos

theorem turn_eq {s : TestSource} (hpos : 0 < s.intervalUs.toNat) (t : SourceTurn) :
    s.turn t = if t.waitUs < s.nextT then
        ((s.finishTurn s.nextT t.captureUs).1,
          [.sleep (s.nextT - t.waitUs), (s.finishTurn s.nextT t.captureUs).2])
      else ((s.finishTurn t.resetUs t.captureUs).1,
        [.reset, (s.finishTurn t.resetUs t.captureUs).2]) := by
  have hneg : 0 < (-s.intervalUs).toNat := by
    have hlt := s.intervalUs.toNat_lt
    rw [UInt32.toNat_neg, UInt32.size]
    omega
  by_cases hearly : t.waitUs < s.nextT
  · rw [if_pos hearly, turn]
    exact if_pos (by omega)
  · have hwait : ¬ s.nextT - t.waitUs > 0 := by omega
    have hbehind : s.nextT - t.waitUs < (-s.intervalUs).toNat := by omega
    rw [if_neg hearly, turn]
    simp only [if_neg hwait, if_pos hbehind]

@[simp] theorem intervalUs_turn (s : TestSource) (t : SourceTurn) :
    (s.turn t).1.intervalUs = s.intervalUs := by
  simp only [turn, finishTurn]
  split_ifs <;> rfl

/-- How late a turn is that resets the deadline, by the time it resets it. -/
def lateness (s : TestSource) (t : SourceTurn) : Int :=
  if t.waitUs < s.nextT then 0 else t.resetUs - s.nextT

theorem nextT_turn {s : TestSource} (hpos : 0 < s.intervalUs.toNat) (t : SourceTurn) :
    (s.turn t).1.nextT = s.nextT + s.intervalUs.toNat + s.lateness t := by
  rw [turn_eq hpos, lateness]
  split_ifs
  · simp only [finishTurn]
    ring
  · simp only [finishTurn]
    ring

theorem reset_not_mem_turn {s : TestSource} (hpos : 0 < s.intervalUs.toNat) (t : SourceTurn) :
    .reset ∉ (s.turn t).2 ↔ t.waitUs < s.nextT := by
  rw [turn_eq hpos]
  split_ifs with hearly <;> simp [finishTurn, hearly]

/-! ## Runs -/

variable {s : TestSource} (hpos : 0 < s.intervalUs.toNat)

include hpos

/-- **The deadlines drift** by what the turns are late. -/
theorem nextT_after (turns : List SourceTurn) :
    (Runs.after turn s turns).nextT = s.nextT + turns.length * s.intervalUs.toNat +
      (Runs.collect turn (fun s t => [s.lateness t]) s turns).sum := by
  induction turns generalizing s with
  | nil => simp [Runs.collect]
  | cons t turns ih =>
    have hnext : 0 < (s.turn t).1.intervalUs.toNat := by rwa [intervalUs_turn]
    have htail := ih hnext
    rw [nextT_turn hpos, intervalUs_turn] at htail
    rw [Runs.after_cons, Runs.collect, List.singleton_append, List.sum_cons, List.length_cons]
    rw [htail]
    push_cast
    ring

/-- No turn resets the deadline when each starts before it. -/
theorem reset_not_mem_trace (turns : List SourceTurn) :
    .reset ∉ Runs.trace turn s turns ↔ Runs.Along turn (fun s t => t.waitUs < s.nextT) s turns := by
  induction turns generalizing s with
  | nil => simp
  | cons t turns ih =>
    have hnext : 0 < (s.turn t).1.intervalUs.toNat := by rwa [intervalUs_turn]
    rw [Runs.trace_cons, Runs.along_cons, List.mem_append, not_or]
    exact and_congr (reset_not_mem_turn hpos t) (ih hnext)

/-- When each turn starts before its deadline, the deadlines are multiples of the interval apart. -/
theorem along_iff (turns : List SourceTurn) :
    Runs.Along turn (fun s t => t.waitUs < s.nextT) s turns ↔
      ∀ (k : ℕ) (t : SourceTurn), turns[k]? = some t →
        t.waitUs < s.nextT + k * s.intervalUs.toNat := by
  induction turns generalizing s with
  | nil => simp
  | cons t turns ih =>
    have hnext : 0 < (s.turn t).1.intervalUs.toNat := by rwa [intervalUs_turn]
    have htail := ih hnext
    rw [intervalUs_turn] at htail
    rw [Runs.along_cons]
    constructor
    · rintro ⟨hearly, hrest⟩ k t' ht'
      cases k with
      | zero =>
        obtain rfl : t = t' := by simpa using ht'
        simpa using hearly
      | succ k =>
        have hk := htail.1 hrest k t' (by simpa using ht')
        rw [nextT_turn hpos, lateness, if_pos hearly] at hk
        push_cast
        linarith
    · intro h
      have hearly : t.waitUs < s.nextT := by simpa using h 0 t rfl
      refine ⟨hearly, htail.2 fun k t' ht' => ?_⟩
      have hk := h (k + 1) t' (by simpa using ht')
      rw [nextT_turn hpos, lateness, if_pos hearly]
      push_cast at hk
      linarith

/-- Without a reset, each turn moves the deadline on by one interval. -/
theorem nextT_of_along {turns : List SourceTurn}
    (h : Runs.Along turn (fun s t => t.waitUs < s.nextT) s turns) :
    (Runs.after turn s turns).nextT = s.nextT + turns.length * s.intervalUs.toNat := by
  induction turns generalizing s with
  | nil => simp
  | cons t turns ih =>
    have hnext : 0 < (s.turn t).1.intervalUs.toNat := by rwa [intervalUs_turn]
    obtain ⟨hearly, hrest⟩ := h
    have htail := ih hnext hrest
    rw [intervalUs_turn] at htail
    rw [Runs.after_cons, htail, List.length_cons, nextT_turn hpos, lateness, if_pos hearly]
    push_cast
    ring

omit hpos

/-! ## The cadence -/

/-- No turn resets the deadline, and before turn `k` it is `k` intervals after the first one. -/
def Steady (s : TestSource) (turns : List SourceTurn) : Prop :=
  .reset ∉ Runs.trace turn s turns ∧
    ∀ k ≤ turns.length, (Runs.before turn s turns k).nextT = s.nextT + k * s.intervalUs.toNat

/-- **The cadence is kept** exactly when each turn starts before its deadline. -/
theorem steady_iff (hpos : 0 < s.intervalUs.toNat) (turns : List SourceTurn) :
    Steady s turns ↔ ∀ (k : ℕ) (t : SourceTurn), turns[k]? = some t →
      t.waitUs < s.nextT + k * s.intervalUs.toNat := by
  rw [← along_iff hpos]
  constructor
  · rintro ⟨hreset, -⟩
    exact (reset_not_mem_trace hpos turns).1 hreset
  · intro halong
    refine ⟨(reset_not_mem_trace hpos turns).2 halong, fun k hk => ?_⟩
    rw [← List.take_append_drop k turns, Runs.along_append] at halong
    rw [Runs.before, nextT_of_along hpos halong.1, List.length_take, min_eq_left hk]

/-- **The test source keeps its cadence** from a first deadline on exactly when each turn starts
before its deadline. When the first deadline is the time that the loop starts at, that is only so
before the first turn. -/
theorem cadence_iff {fps : UInt32} (h : 1 ≤ fps) (h' : fps ≤ 1000000) (deadline : Int)
    (turns : List SourceTurn) :
    (Steady { fps := fps, nextT := deadline } turns ↔
        ∀ (k : ℕ) (t : SourceTurn), turns[k]? = some t →
          t.waitUs < deadline + k * (1000000 / fps.toNat : ℕ)) ∧
      ((∀ t ∈ turns, deadline ≤ t.waitUs) →
        (Steady (started fps deadline) turns ↔ turns = [])) := by
  have hpos : 0 < (started fps deadline).intervalUs.toNat := intervalUs_pos h h'
  have hsteady := steady_iff hpos turns
  rw [intervalUs_toNat h] at hsteady
  refine ⟨hsteady, fun hclock => ?_⟩
  rw [hsteady]
  constructor
  · intro hearly
    cases turns with
    | nil => rfl
    | cons t turns =>
      have hfirst := hearly 0 t rfl
      have hstart := hclock t List.mem_cons_self
      simp only [started, Nat.cast_zero, zero_mul, add_zero] at hfirst
      exact absurd hstart (not_le.2 hfirst)
  · rintro rfl k t ht
    simp at ht

/-- Two turns of a source that is one interval ahead, and two of one that has just started. -/
theorem cadence_thirty :
    Steady { fps := 30, nextT := 33333 } [⟨40, 0, 33390⟩, ⟨33400, 0, 66700⟩] ∧
      ¬ Steady (started 30 33333) [⟨33340, 33341, 33390⟩, ⟨66680, 66681, 66700⟩] := by
  constructor
  · refine (cadence_iff (by decide) (by decide) 33333
      [⟨40, 0, 33390⟩, ⟨33400, 0, 66700⟩]).1.2 fun k t ht => ?_
    match k, ht with
    | 0, ht => obtain rfl := Option.some.inj ht; decide
    | 1, ht => obtain rfl := Option.some.inj ht; decide
  · have hnone := (@cadence_iff 30 (by decide) (by decide) 33333
      [⟨33340, 33341, 33390⟩, ⟨66680, 66681, 66700⟩]).2 (by decide)
    exact fun h => absurd (hnone.1 h) (by decide)

/-- Two turns that start 5 µs after their deadlines, well within an interval. Both reset the
deadline, which is 14 µs off after them. -/
theorem late_turns_drift :
    Runs.Along turn (fun s t => t.waitUs - s.nextT = 5 ∧ 5 ≤ s.intervalUs.toNat) (started 30 1000)
        [⟨1005, 1007, 1050⟩, ⟨34345, 34347, 34400⟩] ∧
      (Runs.after turn (started 30 1000) [⟨1005, 1007, 1050⟩, ⟨34345, 34347, 34400⟩]).nextT =
        1000 + 2 * 33333 + 14 ∧
      ¬ Steady (started 30 1000) [⟨1005, 1007, 1050⟩, ⟨34345, 34347, 34400⟩] :=
  ⟨by decide, by decide, fun h => h.1 (by decide)⟩

end TestSource

end Rtstream
