import Rtstream.JitterBufferCapacity
import Rtstream.JitterBufferNack

/-!
# Pushes that change nothing

A push whose number has been passed is refused. One that is accepted sets the due number, counts
the unit, learns from its time of arrival, or asks for missing numbers; it leaves the buffer as it
was only when the unit is a copy of a buffered one and there is nothing to learn and nothing to ask.

* `push_eq_self_iff`: these are all the pushes that leave the buffer as it was.
-/

namespace Rtstream.JitterBuffer

variable {Ctx : Type} (jb : JitterBuffer Ctx)

/-- The unit is a copy of a buffered one, it is not the one that is due, or has come with that one,
and every number before it is buffered or was asked for just now. -/
structure Repeats (seq : UInt32) (genUs now : Int) : Prop where
  started : jb.started = true
  full : (jb.buf[seq]?.getD {}).data.isSome = true
  arrival : seq = jb.nextOut → jb.lastArrivalUs = now ∧ jb.lastGenUs = genUs
  near : ¬ seqDelta seq jb.nextOut > 1024
  asked : ∀ s ∈ jb.gapNumbers seq, jb.buf.contains s = false →
    Throttle.isRecent jb.nackIntervalUs jb.lastNackUs s now = true

/-- A push that is refused, or of a copy that nobody needs. -/
def Ignores (seq : UInt32) (genUs now : Int) : Prop :=
  jb.accepts seq = false ∨ jb.Repeats seq genUs now

variable {jb} {seq : UInt32} {genUs now : Int} {data : Option Ctx}

/-! ## The parts of a push -/

theorem estimateJitter_arrival (hdue : seq = jb.nextOut) :
    (jb.estimateJitter seq genUs now).lastArrivalUs = now ∧
      (jb.estimateJitter seq genUs now).lastGenUs = genUs := by
  rw [estimateJitter, if_neg (not_not.2 hdue)]
  exact ⟨rfl, rfl⟩

/-- There is nothing to learn from a unit that came with the last one. -/
theorem estimateJitter_eq_self
    (h : seq = jb.nextOut → jb.lastArrivalUs = now ∧ jb.lastGenUs = genUs) :
    jb.estimateJitter seq genUs now = jb := by
  by_cases hdue : seq = jb.nextOut
  · obtain ⟨rfl, rfl⟩ := h hdue
    rw [estimateJitter, if_neg (not_not.2 hdue)]
    simp
  · rw [estimateJitter, if_pos hdue]

theorem stored_of_full (hstarted : jb.started = true)
    (hfull : (jb.buf[seq]?.getD {}).data.isSome = true) :
    jb.stored seq genUs data now = jb.estimateJitter seq genUs now := by
  have hstart : jb.startAt seq now = jb := if_pos hstarted
  simp only [stored, hstart, store, estimateJitter_buf]
  rw [if_pos hfull]

theorem push_arrival (ha : jb.accepts seq = true) :
    (jb.push seq genUs data now).1.lastArrivalUs = (jb.stored seq genUs data now).lastArrivalUs ∧
      (jb.push seq genUs data now).1.lastGenUs = (jb.stored seq genUs data now).lastGenUs := by
  obtain ⟨n, first, table, hdetect⟩ := detectMissing_eq (jb.stored seq genUs data now) seq now
  rw [push_of_accepted jb ha]
  simp only [evictOverflow, hdetect]
  exact ⟨trivial, trivial⟩

theorem detectMissing_of_near (hnear : ¬ seqDelta seq jb.nextOut > 1024) :
    ∃ table, (jb.detectMissing seq now).1 = { jb with lastNackUs := table } := by
  simp only [detectMissing, if_neg hnear]
  split_ifs
  · exact ⟨_, rfl⟩
  · exact foldl_nackAbsent_eq now _ (jb, [])

theorem length_gapNumbers_le : (jb.gapNumbers seq).length ≤ 1024 := by
  rw [gapNumbers]
  split_ifs with h
  · exact Nat.zero_le _
  · simp only [Bool.or_eq_true, decide_eq_true_eq, not_or] at h
    have hle : seqDelta seq jb.nextOut ≤ 1024 := UInt32.not_lt.1 h.2
    rw [numbersFrom, List.length_map, List.length_range]
    exact UInt32.le_iff_toNat_le.1 hle

/-! ## The whole -/

section Whole

variable (hinterval : 0 < jb.nackIntervalUs) (hmissing : jb.onMissing = true)
include hinterval hmissing

theorem table_detectMissing_iff :
    (jb.detectMissing seq now).1.lastNackUs = jb.lastNackUs ↔
      ∀ s ∈ jb.gapNumbers seq, jb.buf.contains s = false →
        Throttle.isRecent jb.nackIntervalUs jb.lastNackUs s now = true := by
  have hthrottled : Throttled jb.nackIntervalUs jb { table := jb.lastNackUs } := by
    rw [Throttled, nackState, hmissing]
  have htable := congrArg Prod.fst (hthrottled.detectMissing seq now).1
  simp only [nackState] at htable
  have hgap : (jb.gapNumbers seq).length ≤ 1024 := length_gapNumbers_le
  have hlength := (List.length_filter_le (fun s => !jb.buf.contains s) (jb.gapNumbers seq)).trans
    (hgap.trans (by decide : 1024 ≤ 4096))
  rw [htable, Throttle.table_checks_iff hinterval hlength]
  simp [List.mem_filter, and_imp]

/-- A push that is accepted and leaves the buffer as it was repeats a unit. -/
theorem repeats_of_push_eq (ha : jb.accepts seq = true)
    (heq : (jb.push seq genUs data now).1 = jb) :
    jb.Repeats seq genUs now := by
  have hstarted : jb.started = true := heq ▸ push_started jb ha
  have hfull : (jb.buf[seq]?.getD {}).data.isSome = true := by
    have htotal := totalBuffered_push jb seq genUs now data ha
    rw [heq] at htotal
    by_contra hvacant
    rw [if_neg hvacant] at htotal
    omega
  have hstored := @stored_of_full _ _ seq genUs now data hstarted hfull
  have harrival : seq = jb.nextOut → jb.lastArrivalUs = now ∧ jb.lastGenUs = genUs := by
    intro hdue
    have hpush := @push_arrival _ _ seq genUs now data ha
    rw [heq, hstored] at hpush
    obtain ⟨hlast, hgen⟩ := @estimateJitter_arrival _ jb seq genUs now hdue
    exact ⟨hpush.1.trans hlast, hpush.2.trans hgen⟩
  rw [estimateJitter_eq_self harrival] at hstored
  have hbase : jb.baseOut seq = jb.nextOut := if_pos hstarted
  have hnear : ¬ seqDelta seq jb.nextOut > 1024 := by
    intro hjump
    have hnext : (jb.push seq genUs data now).1.nextOut = _ := push_nextOut jb ha
    rw [heq, hbase, if_pos hjump] at hnext
    rw [hnext, seqDelta, UInt32.sub_self] at hjump
    exact absurd hjump (by decide)
  have htable : (jb.detectMissing seq now).1.lastNackUs = jb.lastNackUs := by
    have hpush := congrArg (·.lastNackUs) heq
    simp only [push_of_accepted jb ha, hstored, evictOverflow] at hpush
    exact hpush
  exact ⟨hstarted, hfull, harrival, hnear, (table_detectMissing_iff hinterval hmissing).1 htable⟩

theorem push_eq_of_repeats (ha : jb.accepts seq = true) (hsize : jb.buf.size ≤ jb.maxUnits)
    (h : jb.Repeats seq genUs now) : (jb.push seq genUs data now).1 = jb := by
  have hstored : jb.stored seq genUs data now = jb :=
    (stored_of_full h.started h.full).trans (estimateJitter_eq_self h.arrival)
  obtain ⟨table, hdetect⟩ := @detectMissing_of_near _ jb seq now h.near
  have htable := (table_detectMissing_iff hinterval hmissing).2 h.asked
  rw [hdetect] at htable
  have hsame : (jb.detectMissing seq now).1 = jb := by
    obtain rfl : table = jb.lastNackUs := htable
    exact hdetect
  rw [push_of_accepted jb ha]
  simp only [hstored, hsame, evictOverflow, evictLoop_of_le _ hsize]

/-- **A push leaves the buffer as it was** if and only if it is refused or repeats. -/
theorem push_eq_self_iff (hsize : jb.buf.size ≤ jb.maxUnits) :
    (jb.push seq genUs data now).1 = jb ↔ jb.Ignores seq genUs now := by
  cases ha : jb.accepts seq with
  | false => exact iff_of_true (by rw [push_of_rejected jb ha]) (Or.inl ha)
  | true =>
    rw [Ignores, ha, or_iff_right Bool.false_ne_true.symm]
    exact ⟨repeats_of_push_eq hinterval hmissing ha, push_eq_of_repeats hinterval hmissing ha hsize⟩

end Whole

end Rtstream.JitterBuffer
