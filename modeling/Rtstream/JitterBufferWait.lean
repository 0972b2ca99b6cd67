import Rtstream.JitterBufferLoss

/-!
# How long a missing head is waited for

`pop` waits for a missing head until `max_wait_us_` has passed since it first noticed, or until the
consumer starves: nothing was popped for longer than the depth. A head is noticed after the last pop
of a unit, and `max_wait_us_` is more than twice the depth. So the consumer starves first, always
(`Timed.waitsForHead_eq`), and the limit of `max_wait_us_` never decides.

* `skips_iff_starved`: a missing head is skipped if and only if nothing was popped for longer than
  the depth; until then it is accepted when it arrives.
* `skipped_early`: a head is skipped 41 ms after it was found missing; `max_wait_us_` is 130 ms.
-/

namespace Rtstream.JitterBuffer

open Std (TreeMap)

variable {Ctx : Type} {jb : JitterBuffer Ctx} {t : Int}

/-! ## The times that pop looks at -/

/-- The depth is not negative, and waiting takes longer than that. -/
structure Tuned (jb : JitterBuffer Ctx) : Prop where
  min : 0 ≤ jb.minDelayUs
  max : 0 ≤ jb.maxDelayUs
  target : 0 ≤ jb.targetDelayUs
  wait : jb.targetDelayUs < jb.maxWaitUs

/-- Everything was popped by time `t`, and the head was found missing after the last pop. -/
structure Timed (jb : JitterBuffer Ctx) (t : Int) : Prop extends Tuned jb where
  popped : jb.lastPopUs ≤ t
  since : jb.headMissingSinceUs = 0 ∨ jb.lastPopUs ≤ jb.headMissingSinceUs

theorem Tuned.retune (h : Tuned jb) : Tuned jb.retuneTarget := by
  have hmin := h.min
  have hmax := h.max
  have htarget : 0 ≤ jb.retuneTarget.targetDelayUs := by
    simp only [retuneTarget]
    omega
  refine ⟨hmin, hmax, htarget, ?_⟩
  show jb.retuneTarget.targetDelayUs < 2 * jb.retuneTarget.targetDelayUs + 50 * 1000
  omega

theorem Timed.le_missingSince (h : Timed jb t) {now : Int} (hnow : t ≤ now) :
    jb.lastPopUs ≤ jb.missingSince now := by
  have hpopped := h.popped
  unfold missingSince
  split_ifs with hzero
  · omega
  · exact h.since.resolve_left hzero

/-- **The consumer starves first.** -/
theorem Timed.waitsForHead_eq (h : Timed jb t) {now : Int} (hnow : t ≤ now) :
    jb.waitsForHead now = !jb.starved now := by
  have hwait := h.wait
  have hpopped := h.popped
  have hsince := h.le_missingSince hnow
  cases hstarved : jb.starved now with
  | true => simp [waitsForHead, hstarved]
  | false =>
    have hdepth : ¬ now - jb.lastPopUs > jb.targetDelayUs := of_decide_eq_false hstarved
    have hshort : now - jb.missingSince now < jb.maxWaitUs := by omega
    simp [waitsForHead, hstarved, hshort]

/-! ## One call -/

/-- What of the buffer bears on waiting. -/
def waitState (jb : JitterBuffer Ctx) : Int × Int × Int × Int × Int × Int :=
  (jb.lastPopUs, jb.headMissingSinceUs, jb.minDelayUs, jb.maxDelayUs, jb.targetDelayUs,
    jb.maxWaitUs)

theorem Timed.congr (h : Timed jb t) {jb' : JitterBuffer Ctx} (hs : jb'.waitState = jb.waitState) :
    Timed jb' t := by
  simp only [waitState, Prod.mk.injEq] at hs
  obtain ⟨hpop, hsince, hmin, hmax, htarget, hwait⟩ := hs
  exact {
    min := hmin ▸ h.min
    max := hmax ▸ h.max
    target := htarget ▸ h.target
    wait := by rw [htarget, hwait]; exact h.wait
    popped := hpop ▸ h.popped
    since := by rw [hpop, hsince]; exact h.since }

section Fields

variable (jb : JitterBuffer Ctx) (seq : UInt32) (genUs now : Int) (data : Option Ctx)

@[simp] theorem startAt_waitState : (jb.startAt seq now).waitState = jb.waitState := by
  unfold startAt; split_ifs <;> rfl
@[simp] theorem store_waitState : (jb.store seq genUs data now).waitState = jb.waitState := by
  simp only [store]; split_ifs <;> rfl
@[simp] theorem detectMissing_waitState :
    (jb.detectMissing seq now).1.waitState = jb.waitState := by
  obtain ⟨_, _, _, h⟩ := detectMissing_eq jb seq now
  rw [h]
  rfl

end Fields

/-- A new estimate changes the depth and the limit together. -/
theorem Timed.retune (h : Timed jb t) : Timed jb.retuneTarget t :=
  { h.toTuned.retune with popped := h.popped, since := h.since }

theorem estimateJitter_waitState (jb : JitterBuffer Ctx) (seq : UInt32) (genUs now : Int) :
    (jb.estimateJitter seq genUs now).waitState = jb.waitState ∨
      ∃ j : ℚ, (jb.estimateJitter seq genUs now).waitState =
        (retuneTarget { jb with jitterUs := j }).waitState := by
  by_cases hdue : seq ≠ jb.nextOut
  · rw [estimateJitter, if_pos hdue]
    exact Or.inl rfl
  · rw [estimateJitter, if_neg hdue]
    by_cases hknown : jb.lastArrivalUs ≠ 0 ∧ genUs - jb.lastGenUs > 0 ∧ now - jb.lastArrivalUs ≥ 0
    · simp only [if_pos hknown]
      exact Or.inr ⟨_, rfl⟩
    · simp only [if_neg hknown]
      exact Or.inl rfl

theorem Timed.estimateJitter (h : Timed jb t) (seq : UInt32) (genUs now : Int) :
    Timed (jb.estimateJitter seq genUs now) t := by
  rcases estimateJitter_waitState jb seq genUs now with hs | ⟨j, hs⟩
  · exact h.congr hs
  · have hnew : Timed { jb with jitterUs := j } t := h.congr rfl
    exact hnew.retune.congr hs

theorem Timed.push (h : Timed jb t) {now : Int} (hnow : t ≤ now) (seq : UInt32) (genUs : Int)
    (data : Option Ctx) : Timed (jb.push seq genUs data now).1 now := by
  have hlater : Timed jb now := { h with popped := h.popped.trans hnow }
  cases ha : jb.accepts seq with
  | false =>
    rw [push_of_rejected jb ha]
    exact hlater
  | true =>
    rw [push_of_accepted jb ha]
    refine ((hlater.congr (startAt_waitState jb seq now)).estimateJitter seq genUs now).congr ?_
    show ((jb.stored seq genUs data now).detectMissing seq now).1.waitState = _
    rw [detectMissing_waitState, stored, store_waitState]

theorem Timed.takeOut (h : Timed jb t) (k : UInt32) (u : JbUnit Ctx) (now : Int) :
    Timed (jb.takeOut k u now) now :=
  { h.toTuned with popped := le_rfl, since := Or.inl rfl }

theorem Timed.pop (h : Timed jb t) {now : Int} (hnow : t ≤ now) : Timed (jb.pop now).1 now := by
  have hlater : Timed jb now := { h with popped := h.popped.trans hnow }
  by_cases hne : (!jb.started || jb.buf.isEmpty) = true
  · simp only [JitterBuffer.pop, if_pos hne]
    exact hlater
  cases hb : jb.buf[jb.nextOut]? with
  | some u =>
    rw [pop_of_due jb hne hb]
    split_ifs
    · exact { hlater with since := Or.inl rfl }
    · exact h.takeOut _ u now
  | none =>
    rw [pop_of_missing jb hne hb]
    by_cases hw : jb.waitsForHead now = true
    · -- The head is found missing now, or was found missing earlier.
      rw [if_pos hw]
      exact { hlater with since := Or.inr (h.le_missingSince hnow) }
    · rw [if_neg hw]
      cases hf : OrderedMap.first? jb.buf with
      | none => exact hlater
      | some kv => exact h.takeOut kv.1 kv.2 now

/-! ## Runs -/

theorem Timed.run {is is' : List (JbInput Ctx)} (h : Timed jb t)
    (hclock : (t :: clocks (is ++ is')).Pairwise (· ≤ ·)) :
    ∃ t', Timed (Runs.after step jb is) t' ∧ (t' :: clocks is').Pairwise (· ≤ ·) := by
  induction is generalizing jb t with
  | nil => exact ⟨t, h, hclock⟩
  | cons i is ih =>
    cases i with
    | push seq genUs data now =>
      obtain ⟨hle, hrest⟩ := List.pairwise_cons.1 hclock
      exact ih (h.push (hle now List.mem_cons_self) seq genUs data) hrest
    | pop now =>
      obtain ⟨hle, hrest⟩ := List.pairwise_cons.1 hclock
      exact ih (h.pop (hle now List.mem_cons_self)) hrest
    | setRttMs ms =>
      have hset : Timed (jb.setRttMs ms) t :=
        Timed.retune (h.congr rfl : Timed { jb with rttMs := ms } t)
      exact ih hset hclock

theorem timed_create (maxUnits : ℕ) (onMissing : Bool) (nackIntervalUs : Int) :
    Timed (create maxUnits onMissing nackIntervalUs : JitterBuffer Ctx) 0 where
  min := by show (0 : Int) ≤ 15 * 1000; decide
  max := by show (0 : Int) ≤ 250 * 1000; decide
  target := by show (0 : Int) ≤ 40 * 1000; decide
  wait := by show (40 * 1000 : Int) < 130 * 1000; decide
  popped := le_rfl
  since := Or.inl rfl

/-- When a call pops a unit. -/
def popTimes (jb : JitterBuffer Ctx) : JbInput Ctx → List Int
  | .pop now => if (jb.pop now).2.1.isSome then [now] else []
  | _ => []

/-- When the last unit was popped; 0 if there was none. -/
def lastPop (jb : JitterBuffer Ctx) (is : List (JbInput Ctx)) : Int :=
  (Runs.trace (fun jb i => ((step jb i).1, popTimes jb i)) jb is).getLast?.getD jb.lastPopUs

theorem push_lastPopUs (jb : JitterBuffer Ctx) (seq : UInt32) (genUs now : Int)
    (data : Option Ctx) : (jb.push seq genUs data now).1.lastPopUs = jb.lastPopUs := by
  cases ha : jb.accepts seq with
  | false => rw [push_of_rejected jb ha]
  | true =>
    have hstored : ((jb.stored seq genUs data now).detectMissing seq now).1.waitState.1 =
        (jb.startAt seq now).waitState.1 := by
      rw [detectMissing_waitState, stored, store_waitState]
      rcases estimateJitter_waitState (jb.startAt seq now) seq genUs now with hs | ⟨j, hs⟩
      · rw [hs]
      · rw [hs]
        rfl
    rw [startAt_waitState] at hstored
    rw [push_of_accepted jb ha]
    exact hstored

theorem pop_lastPopUs (jb : JitterBuffer Ctx) (now : Int) :
    (jb.pop now).1.lastPopUs = if (jb.pop now).2.1.isSome then now else jb.lastPopUs := by
  by_cases hne : (!jb.started || jb.buf.isEmpty) = true
  · simp only [pop, if_pos hne]
    rfl
  cases hb : jb.buf[jb.nextOut]? with
  | some u =>
    rw [pop_of_due jb hne hb]
    split_ifs <;> first | rfl | contradiction
  | none =>
    rw [pop_of_missing jb hne hb]
    by_cases hw : jb.waitsForHead now = true
    · rw [if_pos hw]
      rfl
    · rw [if_neg hw]
      cases hf : OrderedMap.first? jb.buf with
      | none => rfl
      | some kv => rfl

theorem lastPopUs_eq (jb : JitterBuffer Ctx) (is : List (JbInput Ctx)) :
    (Runs.after step jb is).lastPopUs = lastPop jb is := by
  induction is generalizing jb with
  | nil => rfl
  | cons i is ih =>
    have hstep : (step jb i).1.lastPopUs = (popTimes jb i).getLast?.getD jb.lastPopUs := by
      cases i with
      | push seq genUs data now => exact push_lastPopUs jb seq genUs now data
      | pop now =>
        show (jb.pop now).1.lastPopUs = _
        rw [pop_lastPopUs, popTimes]
        split_ifs <;> rfl
      | setRttMs ms => rfl
    have hrest := ih (step jb i).1
    rw [lastPop, hstep] at hrest
    rw [Runs.after_cons, hrest, lastPop, Runs.trace_cons, List.getLast?_append]
    cases List.getLast? _ <;> rfl

/-! ## A missing head -/

/-- A call that leaves a missing head alone: a pop at which the consumer does not starve, a push of
another number that does not jump. -/
def Patient (head : UInt32) (jb : JitterBuffer Ctx) : JbInput Ctx → Prop
  | .push seq _ _ _ => seq ≠ head ∧ ¬ jb.Jumps seq
  | .pop now => jb.starved now = false
  | .setRttMs _ => True

instance (head : UInt32) (jb : JitterBuffer Ctx) : DecidablePred (Patient head jb)
  | .push seq _ _ _ => inferInstanceAs (Decidable (seq ≠ head ∧ ¬ jb.Jumps seq))
  | .pop now => inferInstanceAs (Decidable (jb.starved now = false))
  | .setRttMs _ => inferInstanceAs (Decidable True)

/-- The head is waited for. -/
structure Awaits (head : UInt32) (jb : JitterBuffer Ctx) : Prop where
  started : jb.started = true
  next : jb.nextOut = head
  missing : jb.buf[head]? = none

variable {head : UInt32}

theorem Awaits.push (h : Awaits head jb) {seq : UInt32} {genUs now : Int} {data : Option Ctx}
    (hp : Patient head jb (.push seq genUs data now)) :
    Awaits head (jb.push seq genUs data now).1 := by
  cases ha : jb.accepts seq with
  | false =>
    rw [push_of_rejected jb ha]
    exact h
  | true =>
    refine ⟨push_started jb ha, ?_, ?_⟩
    · rw [push_nextOut jb ha, if_neg fun hgap => hp.2 ⟨ha, hgap⟩, baseOut, if_pos h.started]
      exact h.next
    · cases hslot : (jb.push seq genUs data now).1.buf[head]? with
      | none => rfl
      | some u =>
        rcases getElem?_push jb hslot with hold | ⟨rfl, -⟩
        · rw [h.missing] at hold
          cases hold
        · exact absurd rfl hp.1

theorem Awaits.pop (h : Awaits head jb) (ht : Timed jb t) {now : Int} (hnow : t ≤ now)
    (hp : Patient head jb (.pop now)) : Awaits head (jb.pop now).1 := by
  have hstarved : jb.starved now = false := hp
  have hmissing : jb.buf[jb.nextOut]? = none := h.next ▸ h.missing
  rcases pop_spec jb now with ⟨-, hbuf, hnext, hst, -⟩ | ⟨u, -, hu, -⟩ | ⟨k, u, -, -, hw, -⟩
  · exact ⟨hst.trans h.started, hnext.trans h.next, hbuf ▸ h.missing⟩
  · rw [hmissing] at hu
    cases hu
  · rw [ht.waitsForHead_eq hnow, hstarved] at hw
    cases hw

theorem Awaits.run {is : List (JbInput Ctx)} (h : Awaits head jb) (ht : Timed jb t)
    (hclock : (t :: clocks is).Pairwise (· ≤ ·)) (hp : Runs.Along step (Patient head) jb is) :
    Awaits head (Runs.after step jb is) := by
  induction is generalizing jb t with
  | nil => exact h
  | cons i is ih =>
    obtain ⟨hi, his⟩ := hp
    obtain ⟨t', ht', hclock'⟩ := @Timed.run _ jb t [i] is ht hclock
    refine ih ?_ ht' hclock' his
    cases i with
    | push seq genUs data now => exact h.push hi
    | pop now => exact h.pop ht ((List.pairwise_cons.1 hclock).1 now List.mem_cons_self) hi
    | setRttMs ms => exact ⟨h.started, h.next, h.missing⟩

/-- **A missing head** is skipped if and only if the consumer starves: nothing was popped for longer
than the depth. As long as it does not, and nothing jumps, the head is accepted. -/
theorem skips_iff_starved (maxUnits : ℕ) (onMissing : Bool) (nackIntervalUs : Int)
    (is : List (JbInput Ctx)) (hclock : (0 :: clocks is).Pairwise (· ≤ ·)) :
    let fresh : JitterBuffer Ctx := create maxUnits onMissing nackIntervalUs
    (∀ is₁ now is₂, is = is₁ ++ .pop now :: is₂ →
      let jb := Runs.after step fresh is₁
      jb.headMissing = true →
        ((jb.pop now).2.1.isSome = true ↔ jb.targetDelayUs < now - lastPop fresh is₁)) ∧
    ∀ is₁ is₂ is₃, is = is₁ ++ is₂ ++ is₃ →
      let jb := Runs.after step fresh is₁
      jb.headMissing = true → Runs.Along step (Patient jb.nextOut) jb is₂ →
        (Runs.after step jb is₂).accepts jb.nextOut = true := by
  intro fresh
  have hfresh : Timed fresh 0 := timed_create maxUnits onMissing nackIntervalUs
  have hpopped : ∀ is, (Runs.after step fresh is).lastPopUs = lastPop fresh is := lastPopUs_eq fresh
  refine ⟨?_, ?_⟩
  · rintro is₁ now is₂ rfl jb hmissing
    obtain ⟨t, ht, hnow⟩ := hfresh.run hclock
    rw [pop_isSome_iff jb hmissing,
      ht.waitsForHead_eq ((List.pairwise_cons.1 hnow).1 now List.mem_cons_self), Bool.not_eq_false',
      starved, decide_eq_true_iff, ← hpopped is₁]
  · rintro is₁ is₂ is₃ rfl jb hmissing hpatient
    rw [List.append_assoc] at hclock
    obtain ⟨t, ht, hrest⟩ := hfresh.run hclock
    obtain ⟨hne, hslot⟩ := (headMissing_iff jb).1 hmissing
    have hstarted : jb.started = true := by
      cases hst : jb.started with
      | true => rfl
      | false => simp [hst] at hne
    have hsub : (t :: clocks is₂).Sublist (t :: clocks (is₂ ++ is₃)) := by
      rw [clocks, clocks, List.filterMap_append]
      exact (List.sublist_append_left _ _).cons_cons t
    have hawaits := Awaits.run ⟨hstarted, rfl, hslot⟩ ht (hrest.sublist hsub) hpatient
    simp [accepts, hawaits.next]

/-- Number 1 is missing: it is found missing by the second pop, and skipped by the third. -/
def hungryRun : List (JbInput ℕ) :=
  [.push 0 0 (some 0) 1000000, .pop 1000001, .push 2 0 (some 1) 1000002, .pop 1000003,
    .pop 1041002, .push 1 0 (some 2) 1041003]

theorem skips_iff_starved_hungry :
    (((Runs.after step (create 512 true 10000) (hungryRun.take 4)).pop 1041002).2.1.isSome = true ↔
      (40000 : Int) < 1041002 - 1000001) ∧
    (Runs.after step (create 512 true 10000) (hungryRun.take 4)).accepts 1 = true :=
  ⟨(skips_iff_starved 512 true 10000 hungryRun (by decide)).1 (hungryRun.take 4) 1041002
      (hungryRun.drop 5) rfl (by decide +kernel),
    (skips_iff_starved 512 true 10000 hungryRun (by decide)).2 (hungryRun.take 3) [.pop 1000003]
      (hungryRun.drop 4) rfl (by decide +kernel) (by decide +kernel)⟩

/-- Call `n` is a pop that finds `head` missing. -/
def FindsMissing (jb : JitterBuffer Ctx) (is : List (JbInput Ctx)) (n : ℕ) (head : UInt32) : Prop :=
  (∃ now, is[n]? = some (.pop now)) ∧ (Runs.before step jb is n).headMissing = true ∧
    (Runs.before step jb is n).nextOut = head

/-- A head that is skipped was first found missing `max_wait_us_` ago. -/
def WaitsInFull (jb : JitterBuffer Ctx) (is : List (JbInput Ctx)) : Prop :=
  ∀ n n' t now head, is[n]? = some (.pop t) → is[n']? = some (.pop now) →
    FindsMissing jb is n head → (∀ m < n, ¬ FindsMissing jb is m head) →
    FindsMissing jb is n' head → ((Runs.before step jb is n').pop now).2.1.isSome = true →
      (Runs.before step jb is n').maxWaitUs ≤ now - t

/-- A head is skipped after 41 ms of 130, and rejected when it arrives. -/
theorem skipped_early :
    (0 :: clocks hungryRun).Pairwise (· ≤ ·) ∧
      ¬ WaitsInFull (create 512 true 10000) hungryRun ∧
      (Runs.before step (create 512 true 10000) hungryRun 5).accepts 1 = false := by
  refine ⟨by decide, ?_, by decide +kernel⟩
  intro h
  have hfirst : ∀ m < 3, ¬ FindsMissing (create 512 true 10000) hungryRun m 1 := by
    rintro m hm ⟨-, hmissing, hnext⟩
    have hnone : ∀ m < 3, ¬ ((Runs.before step (create 512 true 10000) hungryRun m).headMissing =
        true ∧ (Runs.before step (create 512 true 10000) hungryRun m).nextOut = 1) := by
      decide +kernel
    exact hnone m hm ⟨hmissing, hnext⟩
  have hwait := h 3 4 1000003 1041002 1 rfl rfl ⟨⟨_, rfl⟩, by decide +kernel, by decide +kernel⟩
    hfirst ⟨⟨_, rfl⟩, by decide +kernel, by decide +kernel⟩ (by decide +kernel)
  revert hwait
  decide +kernel

end Rtstream.JitterBuffer
