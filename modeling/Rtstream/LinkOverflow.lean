import Rtstream.LinkEstimates

/-!
# Round trips that are too long

A pong that claims to have been sent long before the clock started makes the subtraction overflow.
A little below that, the subtraction goes well and the conversion overflows, once late packets have
raised the jitter.

`arithmetic_in_range_iff`: a bound on the round trips that the pongs show keeps the arithmetic in
range exactly when it is at most 2⁶³ - 600000. `pong_overflows` is a pong that goes wrong.
-/

namespace Rtstream.LinkEstimates

open JitterBuffer (truncToInt)
open MovingAverage (blend)

variable {Ctx : Type}

/-! ## Late packets -/

/-- Packets of one number with later and later timestamps, each 200 ms later than it should be. -/
def lateCopies (data : Ctx) (n : ℕ) : List (LinkInput Ctx) :=
  (List.range n).map fun k : ℕ => .push 0 k (some data) (1 + 200001 * k)

theorem within_of_mem_lateCopies {data : Ctx} {n : ℕ} {i : LinkInput Ctx} (bound : Int)
    (h : i ∈ lateCopies data n) : Within bound i := by
  obtain ⟨k, -, rfl⟩ := List.mem_map.1 h
  trivial

/-- The state after the last of `n + 1` such packets. The jitter is near its bound. -/
structure AfterCopies (n : ℕ) (l : LinkEstimates Ctx) : Prop where
  started : l.jb.started = true
  nextOut : l.jb.nextOut = 0
  arrival : l.jb.lastArrivalUs = 1 + 200001 * n
  gen : l.jb.lastGenUs = n
  rtt : l.curRtt = 0
  jitter : 200000 - l.jb.jitterUs = (15 / 16) ^ n * 200000

theorem afterCopies_zero (data : Ctx) (maxUnits : ℕ) (onMissing : Bool) (nackIntervalUs : Int) :
    AfterCopies 0
      (step (initial maxUnits onMissing nackIntervalUs) (.push 0 0 (some data) 1)).1 := by
  set jb : JitterBuffer Ctx := .create maxUnits onMissing nackIntervalUs with hjb
  obtain ⟨ha, hstarted, hnext, harrival, hgen⟩ :=
    @JitterBuffer.push_due Ctx jb 0 1 0 rfl (some data)
  have hestimates := jb.push_estimates 0 1 ha (some data)
  have hfirst : ¬ (jb.startAt 0 1).Learns 0 0 1 := fun h => h.2.1 rfl
  rw [JitterBuffer.estimateJitter_estimates, if_neg hfirst,
    JitterBuffer.startAt_estimates] at hestimates
  have hjitter : (jb.push 0 0 (some data) 1).1.jitterUs = 0 := congrArg Prod.fst hestimates
  refine ⟨hstarted, hnext, harrival, hgen, rfl, ?_⟩
  show 200000 - (jb.push 0 0 (some data) 1).1.jitterUs = _
  rw [hjitter]
  norm_num

theorem AfterCopies.push {l : LinkEstimates Ctx} {n : ℕ} (h : AfterCopies n l) (data : Ctx)
    {genUs now : Int} (hgen : genUs = (n + 1 : ℕ)) (hnow : now = 1 + 200001 * (n + 1 : ℕ)) :
    AfterCopies (n + 1) (step l (.push 0 genUs (some data) now)).1 := by
  have hdue : l.jb.baseOut 0 = 0 := (if_pos h.started).trans h.nextOut
  obtain ⟨ha, hstarted, hnext, harrival, hlast⟩ := l.jb.push_due genUs now hdue (some data)
  have hestimates := l.jb.push_estimates genUs now ha (some data)
  have hstart : l.jb.startAt 0 now = l.jb := if_pos h.started
  have hdArr : now - l.jb.lastArrivalUs = 200001 := by
    rw [h.arrival]
    omega
  have hdGen : genUs - l.jb.lastGenUs = 1 := by
    rw [h.gen]
    omega
  have hlearns : l.jb.Learns 0 genUs now := by
    refine ⟨h.nextOut.symm, ?_, by omega, by omega⟩
    rw [h.arrival]
    omega
  have hdeviation : l.jb.deviation genUs now = 200000 := by
    rw [JitterBuffer.deviation, hdArr, hdGen]
    norm_num
  rw [hstart, JitterBuffer.estimateJitter_estimates, if_pos hlearns, hdeviation] at hestimates
  have hjitter : (l.jb.push 0 genUs (some data) now).1.jitterUs =
      blend (1 / 16) l.jb.jitterUs 200000 := congrArg Prod.fst hestimates
  refine ⟨hstarted, hnext, harrival.trans hnow, hlast.trans hgen, h.rtt, ?_⟩
  show 200000 - (l.jb.push 0 genUs (some data) now).1.jitterUs = _
  rw [hjitter, MovingAverage.sub_blend, h.jitter, pow_succ]
  ring

theorem afterCopies_run (data : Ctx) (maxUnits : ℕ) (onMissing : Bool) (nackIntervalUs : Int)
    (n : ℕ) :
    AfterCopies n (Runs.after step (initial maxUnits onMissing nackIntervalUs)
      (lateCopies data (n + 1))) := by
  induction n with
  | zero => exact afterCopies_zero data maxUnits onMissing nackIntervalUs
  | succ n ih =>
    rw [lateCopies, List.range_succ, List.map_append, Runs.after_append]
    exact ih.push data rfl rfl

/-- The jitter that is left to its bound is less than a third of a microsecond. -/
theorem AfterCopies.jitter_near {l : LinkEstimates Ctx} (h : AfterCopies 207 l) :
    3 * 200000 - 3 * l.jb.jitterUs ≤ 1 := by
  have hjitter := h.jitter
  have hsmall : (3 : ℚ) * ((15 / 16) ^ 207 * 200000) ≤ 1 := by norm_num
  linarith

/-- With a round trip a little below 2⁶³ µs, the conversion overflows after late packets have
raised the jitter. -/
theorem exists_converts_wrong [Inhabited Ctx] {bound : Int} (hb : maxRoundTripUs < bound)
    (hlt : bound < 2 ^ 63) (maxUnits : ℕ) (onMissing : Bool) (nackIntervalUs : Int) :
    ∃ is : List (LinkInput Ctx), (∀ i ∈ is, Within bound i) ∧
      ¬ Runs.Along step GoesWell (initial maxUnits onMissing nackIntervalUs) is := by
  rw [maxRoundTripUs] at hb
  have hsent : InInt64 (41400208 - bound) := by constructor <;> omega
  obtain ⟨payload, hlen, hpayload⟩ := exists_hostInt64 hsent
  have htrip : roundTripUs payload 41400208 = bound := by
    rw [roundTripUs, hpayload]
    omega
  refine ⟨lateCopies default 208 ++ [.pong payload 41400208], ?_, ?_⟩
  · intro i hi
    rcases List.mem_append.1 hi with hi | hi
    · exact within_of_mem_lateCopies bound hi
    · obtain rfl := List.mem_singleton.1 hi
      exact ⟨by decide, by decide, fun _ => htrip.le⟩
  · have hcopies := afterCopies_run (default : Ctx) maxUnits onMissing nackIntervalUs 207
    rw [Runs.along_append]
    generalize Runs.after step (initial maxUnits onMissing nackIntervalUs)
      (lateCopies (default : Ctx) 208) = l at hcopies
    rintro ⟨-, ⟨-, hrange⟩, -⟩
    have hpong : (step l (.pong payload 41400208)).1 = l.updateRtt ((bound : Int) / 1000) := by
      show (if 8 ≤ payload.length then _ else l) = _
      rw [if_pos hlen.ge, htrip]
    rw [hpong, updateRtt, if_pos hcopies.rtt] at hrange
    have hconverted : (2 ^ 63 : Int) ≤
        truncToInt (3 * l.jb.jitterUs + (bound : Int) / 1000 * 1000) := by
      apply JitterBuffer.le_truncToInt
      have hnear := hcopies.jitter_near
      have hbound : (2 ^ 63 - 3 * 200000 + 1 : ℚ) ≤ bound := by exact_mod_cast hb
      push_cast
      linarith
    exact absurd hrange.converted.2 (not_lt.2 hconverted)

/-- With a round trip of 2⁶³ µs, the subtraction overflows. -/
theorem exists_subtracts_wrong {bound : Int} (hge : 2 ^ 63 ≤ bound) (maxUnits : ℕ)
    (onMissing : Bool) (nackIntervalUs : Int) :
    ∃ is : List (LinkInput Ctx), (∀ i ∈ is, Within bound i) ∧
      ¬ Runs.Along step GoesWell (initial maxUnits onMissing nackIntervalUs) is := by
  obtain ⟨payload, hlen, hpayload⟩ := exists_hostInt64 (by decide : InInt64 (-2 ^ 63))
  have htrip : roundTripUs payload 0 = 2 ^ 63 := by
    rw [roundTripUs, hpayload]
    decide
  refine ⟨[.pong payload 0], ?_, ?_⟩
  · intro i hi
    obtain rfl := List.mem_singleton.1 hi
    exact ⟨le_rfl, by decide, fun _ => htrip.trans_le hge⟩
  · rintro ⟨⟨hover, -⟩, -⟩
    have hin := hover hlen.ge
    rw [htrip] at hin
    exact absurd hin.2 (lt_irrefl _)

theorem exists_goes_wrong [Inhabited Ctx] {bound : Int} (hb : maxRoundTripUs < bound) (maxUnits : ℕ)
    (onMissing : Bool) (nackIntervalUs : Int) :
    ∃ is : List (LinkInput Ctx), (∀ i ∈ is, Within bound i) ∧
      ¬ Runs.Along step GoesWell (initial maxUnits onMissing nackIntervalUs) is := by
  rcases lt_or_ge bound (2 ^ 63) with hlt | hge
  · exact exists_converts_wrong hb hlt maxUnits onMissing nackIntervalUs
  · exact exists_subtracts_wrong hge maxUnits onMissing nackIntervalUs

/-- **The arithmetic stays in range** in every run whose pongs show round trips of at most `bound`
microseconds, exactly when `bound` is at most 2⁶³ - 600000. -/
theorem arithmetic_in_range_iff [Inhabited Ctx] (bound : Int) (maxUnits : ℕ) (onMissing : Bool)
    (nackIntervalUs : Int) :
    (∀ is : List (LinkInput Ctx), (∀ i ∈ is, Within bound i) →
        Runs.Along step GoesWell (initial maxUnits onMissing nackIntervalUs) is) ↔
      bound ≤ 2 ^ 63 - 600000 := by
  constructor
  · intro h
    by_contra hb
    obtain ⟨is, his, hwrong⟩ :=
      @exists_goes_wrong Ctx _ bound (not_le.1 hb) maxUnits onMissing nackIntervalUs
    exact hwrong (h is his)
  · intro hb is his
    refine along_goesWell (bounded_initial maxUnits onMissing nackIntervalUs) fun i hi => ?_
    have hi := his i hi
    cases i with
    | pong payload now => exact ⟨hi.1, hi.2.1, fun hlen => (hi.2.2 hlen).trans hb⟩
    | push seq genUs data now => trivial
    | pop now => trivial

/-- The subtraction of a pong that claims to have been sent at the smallest time overflows. -/
theorem pong_overflows :
    ¬ Runs.Along step GoesWell (initial 1024 true (10 * 1000) : LinkEstimates RtpPkt)
      [.pong [0, 0, 0, 0, 0, 0, 0, 0x80] 1] := by
  rintro ⟨⟨hover, -⟩, -⟩
  exact absurd (hover (by decide)) (by decide)

end Rtstream.LinkEstimates
