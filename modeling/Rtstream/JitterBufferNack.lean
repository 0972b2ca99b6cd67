import Rtstream.JitterBufferLoss
import Rtstream.Lib.Throttle

/-!
# What the jitter buffer asks for

`push` asks for the numbers missing before the one that arrives, and notes each in `last_nack_us_`,
so that it does not ask again too soon. `pop` asks for a head it waits for, and neither looks at the
table nor notes anything. The table is emptied when it has more than 4096 entries.

So the callbacks of a run are the requests of a throttle (`callbacks_eq`), with a check for each
number that a push finds missing and a forced request for each pop that waits.

* `gaps_requested`: when numbers do not wrap and nothing is evicted, every number missing before the
  largest one buffered has been asked for.
* `throttled_iff`: two requests for one number lie an interval apart if and only if the table knows,
  at each turn, of the recent requests.
-/

namespace Rtstream.JitterBuffer

open Std (TreeMap)

variable {Ctx : Type} (jb : JitterBuffer Ctx)

/-! ## The callbacks -/

/-- The number an event asks for, and the time. -/
def missing? (now : Int) : JbEvent → Option (UInt32 × Int)
  | .missing s => some (s, now)
  | _ => none

/-- The calls of `on_missing` that a call makes. -/
def callbacks (jb : JitterBuffer Ctx) : JbInput Ctx → List (UInt32 × Int)
  | .push seq genUs data now => (jb.push seq genUs data now).2.2.filterMap (missing? now)
  | .pop now => (jb.pop now).2.2.filterMap (missing? now)
  | .setRttMs _ => []

/-- The buffer as a machine that is seen through `on_missing`. -/
def callbackStep (jb : JitterBuffer Ctx) (i : JbInput Ctx) :
    JitterBuffer Ctx × List (UInt32 × Int) :=
  ((step jb i).1, callbacks jb i)

/-- The numbers between the due one and `seq` that a push looks at. -/
def gapNumbers (jb : JitterBuffer Ctx) (seq : UInt32) : List UInt32 :=
  if seqLt seq jb.nextOut || seqDelta seq jb.nextOut > 1024 then []
  else numbersFrom jb.nextOut (seqDelta seq jb.nextOut).toNat

/-- `pop` asks for a head that is missing, as long as it waits for it. -/
def asksForHead (jb : JitterBuffer Ctx) (now : Int) : Bool := jb.headMissing && jb.waitsForHead now

/-- The requests that a call brings before the throttle. -/
def turns (jb : JitterBuffer Ctx) : JbInput Ctx → List (Throttle.Turn UInt32)
  | .push seq genUs data now =>
      if jb.accepts seq then
        let stored := jb.stored seq genUs data now
        ((stored.gapNumbers seq).filter fun s => !stored.buf.contains s).map (.check · now)
      else []
  | .pop now => if jb.asksForHead now then [.force jb.nextOut now] else []
  | .setRttMs _ => []

/-- The buffer as a machine that is seen through the requests it considers. -/
def turnStep (jb : JitterBuffer Ctx) (i : JbInput Ctx) :
    JitterBuffer Ctx × List (Throttle.Turn UInt32) := ((step jb i).1, turns jb i)

/-- The throttle of the buffer. -/
abbrev throttle (nackIntervalUs : Int) :
    Runs.Machine (Throttle UInt32) (Throttle.Turn UInt32) (UInt32 × Int) :=
  Throttle.step nackIntervalUs 4096

/-! ## The buffer follows the throttle -/

/-- What of the buffer bears on its requests. -/
def nackState (jb : JitterBuffer Ctx) : TreeMap UInt32 Int × Int × Bool :=
  (jb.lastNackUs, jb.nackIntervalUs, jb.onMissing)

section Fields

variable (seq : UInt32) (genUs now : Int) (data : Option Ctx)

@[simp] theorem estimateJitter_nackState :
    (jb.estimateJitter seq genUs now).nackState = jb.nackState := by
  simp only [estimateJitter]; split_ifs <;> rfl
@[simp] theorem startAt_nackState : (jb.startAt seq now).nackState = jb.nackState := by
  unfold startAt; split_ifs <;> rfl
@[simp] theorem store_nackState : (jb.store seq genUs data now).nackState = jb.nackState := by
  simp only [store]; split_ifs <;> rfl
@[simp] theorem evictOverflow_nackState : jb.evictOverflow.1.nackState = jb.nackState := rfl
@[simp] theorem takeOut_nackState (k : UInt32) (u : JbUnit Ctx) :
    (jb.takeOut k u now).nackState = jb.nackState := rfl

@[simp] theorem stored_nackState : (jb.stored seq genUs data now).nackState = jb.nackState := by
  simp [stored]

end Fields

/-- The throttle has the buffer's table, and `on_missing` is set. -/
def Throttled (nackIntervalUs : Int) (jb : JitterBuffer Ctx) (t : Throttle UInt32) : Prop :=
  jb.nackState = (t.table, nackIntervalUs, true)

variable {nackIntervalUs : Int} {t : Throttle UInt32} {jb}

theorem Throttled.maybeNack_eq (h : Throttled nackIntervalUs jb t) (s : UInt32) (now : Int) :
    jb.maybeNack s now =
      if Throttle.isRecent nackIntervalUs t.table s now then (jb, [])
      else ({ jb with lastNackUs := Throttle.note 4096 t.table s now },
        [.missing s, .nackRequested]) := by
  obtain ⟨htable, hinterval, hmissing⟩ : jb.lastNackUs = t.table ∧
      jb.nackIntervalUs = nackIntervalUs ∧ jb.onMissing = true := by
    simpa [Throttled, nackState] using h
  simp [JitterBuffer.maybeNack, Throttle.isRecent, Throttle.note, htable, hinterval, hmissing]

theorem Throttled.maybeNack (h : Throttled nackIntervalUs jb t) (s : UInt32) (now : Int) :
    Throttled nackIntervalUs (jb.maybeNack s now).1 (throttle nackIntervalUs t (.check s now)).1 ∧
      (jb.maybeNack s now).2.filterMap (missing? now) =
        (throttle nackIntervalUs t (.check s now)).2 := by
  rw [h.maybeNack_eq, throttle, Throttle.step]
  split_ifs
  · exact ⟨h, rfl⟩
  · have hrest := congrArg Prod.snd h
    exact ⟨Prod.ext rfl hrest, rfl⟩

/-- **Gap detection** checks the numbers that are absent. -/
theorem Throttled.foldl {acc : JitterBuffer Ctx × List JbEvent}
    (h : Throttled nackIntervalUs acc.1 t) (now : Int) (ss : List UInt32) :
    let checks := (ss.filter fun s => !acc.1.buf.contains s).map (Throttle.Turn.check · now)
    Throttled nackIntervalUs (ss.foldl (nackAbsent now) acc).1
        (Runs.after (throttle nackIntervalUs) t checks) ∧
      (ss.foldl (nackAbsent now) acc).2.filterMap (missing? now) =
        acc.2.filterMap (missing? now) ++ Runs.trace (throttle nackIntervalUs) t checks := by
  induction ss generalizing acc t with
  | nil => exact ⟨h, (List.append_nil _).symm⟩
  | cons s ss ih =>
    rw [List.foldl_cons, nackAbsent, List.filter_cons]
    cases hin : acc.1.buf.contains s with
    | true => exact ih h
    | false =>
      obtain ⟨hstep, hevents⟩ := h.maybeNack s now
      have hrest := @ih (throttle nackIntervalUs t (.check s now)).1
        ((acc.1.maybeNack s now).1, acc.2 ++ (acc.1.maybeNack s now).2) hstep
      simp only [maybeNack_buf, List.filterMap_append, hevents, List.append_assoc] at hrest
      exact hrest

theorem Throttled.detectMissing (h : Throttled nackIntervalUs jb t) (seq : UInt32) (now : Int) :
    let checks := ((jb.gapNumbers seq).filter fun s => !jb.buf.contains s).map
      (Throttle.Turn.check · now)
    Throttled nackIntervalUs (jb.detectMissing seq now).1
        (Runs.after (throttle nackIntervalUs) t checks) ∧
      (jb.detectMissing seq now).2.filterMap (missing? now) =
        Runs.trace (throttle nackIntervalUs) t checks := by
  simp only [JitterBuffer.detectMissing, gapNumbers]
  cases hlt : seqLt seq jb.nextOut with
  | true => exact ⟨h, rfl⟩
  | false =>
    by_cases heq : seq = jb.nextOut
    · have hgap : numbersFrom jb.nextOut (seqDelta seq jb.nextOut).toNat = [] := by
        rw [heq, seqDelta, UInt32.sub_self]
        rfl
      simp only [heq, seqDelta, UInt32.sub_self] at hgap ⊢
      simpa [numbersFrom] using h
    · simp only [Bool.false_or, beq_eq_false_iff_ne.2 heq, Bool.false_eq_true, if_false,
        decide_eq_true_eq]
      split_ifs with hjump
      · exact ⟨h, rfl⟩
      · exact @foldl _ _ _ (jb, []) h now _

theorem filterMap_missing_evictLoop (maxUnits fuel : ℕ) (buf : TreeMap UInt32 (JbUnit Ctx))
    (now : Int) : (evictLoop maxUnits fuel buf).2.filterMap (missing? now) = [] := by
  obtain ⟨n, hevs, -⟩ := evictLoop_events maxUnits fuel buf
  rw [hevs, List.filterMap_replicate_of_none rfl]

theorem Throttled.push (h : Throttled nackIntervalUs jb t) (seq : UInt32) (genUs now : Int)
    (data : Option Ctx) :
    let i : JbInput Ctx := .push seq genUs data now
    Throttled nackIntervalUs (jb.push seq genUs data now).1
        (Runs.after (throttle nackIntervalUs) t (turns jb i)) ∧
      callbacks jb i = Runs.trace (throttle nackIntervalUs) t (turns jb i) := by
  simp only [callbacks, turns]
  cases ha : jb.accepts seq with
  | false =>
    rw [push_of_rejected jb ha]
    exact ⟨h, rfl⟩
  | true =>
    have hstored : Throttled nackIntervalUs (jb.stored seq genUs data now) t := by
      rwa [Throttled, stored_nackState]
    obtain ⟨hdetect, hevents⟩ := hstored.detectMissing seq now
    rw [push_of_accepted jb ha, if_pos rfl]
    refine ⟨hdetect, ?_⟩
    have hevict :
        (((jb.stored seq genUs data now).detectMissing seq now).1.evictOverflow.2).filterMap
        (missing? now) = [] := filterMap_missing_evictLoop _ _ _ now
    rw [List.filterMap_append, hevents, hevict, List.append_nil]

theorem Throttled.pop (h : Throttled nackIntervalUs jb t) (now : Int) :
    Throttled nackIntervalUs (jb.pop now).1
        (Runs.after (throttle nackIntervalUs) t (turns jb (.pop now))) ∧
      callbacks jb (.pop now) = Runs.trace (throttle nackIntervalUs) t (turns jb (.pop now)) := by
  have hmissing : jb.onMissing = true := congrArg (·.2.2) h
  simp only [callbacks, turns]
  by_cases hhead : jb.headMissing = true
  · obtain ⟨hne, hb⟩ := (headMissing_iff jb).1 hhead
    have hask : jb.asksForHead now = jb.waitsForHead now := by simp [asksForHead, hhead]
    rw [pop_of_missing jb hne hb, if_pos hmissing, hask]
    cases hw : jb.waitsForHead now with
    | true => exact ⟨h, rfl⟩
    | false =>
      cases OrderedMap.first? jb.buf with
      | none => exact ⟨h, rfl⟩
      | some kv => exact ⟨h, rfl⟩
  -- No head is missing: nothing is asked for.
  rw [if_neg (by simp [asksForHead, hhead])]
  by_cases hne : (!jb.started || jb.buf.isEmpty) = true
  · have hpop : jb.pop now = (jb, none, []) := by simp only [JitterBuffer.pop, if_pos hne]
    rw [hpop]
    exact ⟨h, rfl⟩
  cases hb : jb.buf[jb.nextOut]? with
  | none => exact absurd ((headMissing_iff jb).2 ⟨hne, hb⟩) hhead
  | some u =>
    rw [pop_of_due jb hne hb]
    split_ifs <;> exact ⟨h, rfl⟩

theorem Throttled.step (h : Throttled nackIntervalUs jb t) (i : JbInput Ctx) :
    Throttled nackIntervalUs (JitterBuffer.step jb i).1
        (Runs.after (throttle nackIntervalUs) t (turns jb i)) ∧
      callbacks jb i = Runs.trace (throttle nackIntervalUs) t (turns jb i) := by
  cases i with
  | push seq genUs data now => exact h.push seq genUs now data
  | pop now => exact h.pop now
  | setRttMs ms => exact ⟨h, rfl⟩

/-- **The callbacks of a run** are the requests of the throttle. -/
theorem Throttled.callbacks_eq (h : Throttled nackIntervalUs jb t) (is : List (JbInput Ctx)) :
    Runs.trace callbackStep jb is =
      Runs.trace (throttle nackIntervalUs) t (Runs.trace turnStep jb is) := by
  induction is generalizing jb t with
  | nil => rfl
  | cons i is ih =>
    obtain ⟨hstep, hcallbacks⟩ := h.step i
    rw [Runs.trace_cons, Runs.trace_cons, Runs.trace_append]
    exact congrArg₂ (· ++ ·) hcallbacks (ih hstep)

/-! ## The throttle law -/

theorem Throttled.spaced_iff (h : Throttled nackIntervalUs jb {}) (is : List (JbInput Ctx)) :
    Throttle.Spaced nackIntervalUs (Runs.trace callbackStep jb is) ↔
      Runs.Along (throttle nackIntervalUs) (Throttle.Remembers nackIntervalUs) {}
        (Runs.trace turnStep jb is) := by
  have hspaced : Throttle.Spaced nackIntervalUs ({} : Throttle UInt32).asked := List.Pairwise.nil
  rw [h.callbacks_eq, ← @Throttle.spaced_run_iff _ _ nackIntervalUs 4096 _ _ hspaced,
    Throttle.asked_run]
  rfl

/-- Pushes alone ask with an interval in between, as long as the table is not emptied. -/
theorem Throttled.spaced_of_keeps (h : Throttled nackIntervalUs jb {}) {is : List (JbInput Ctx)}
    (his : Runs.Along (throttle nackIntervalUs) (Throttle.Keeps 4096) {}
      (Runs.trace turnStep jb is)) :
    Throttle.Spaced nackIntervalUs (Runs.trace callbackStep jb is) :=
  (h.spaced_iff is).2 (Throttle.remembers_of_keeps (fun a ha => by cases ha) his)

/-- **Requests lie apart** if and only if no pop asks for a head too early, and the table knows of
every recent request for a number that a push finds missing. -/
theorem throttled_iff (maxUnits : ℕ) (nackIntervalUs : Int) (is : List (JbInput Ctx)) :
    let fresh : JitterBuffer Ctx := create maxUnits true nackIntervalUs
    Throttle.Spaced nackIntervalUs (Runs.trace callbackStep fresh is) ↔
      Runs.Along (throttle nackIntervalUs) (Throttle.Remembers nackIntervalUs) {}
        (Runs.trace turnStep fresh is) := by
  intro fresh
  have hfresh : Throttled nackIntervalUs fresh {} := rfl
  exact hfresh.spaced_iff is

/-- Unit 0 is popped, unit 2 arrives, and pop comes at once. -/
def pollRun : List (JbInput ℕ) :=
  [.push 0 0 (some 0) 1000000, .pop 1000001, .push 2 0 (some 1) 1000002, .pop 1000003]

/-- Number 1 is asked for twice within a microsecond. -/
theorem asked_again :
    (clocks pollRun).Pairwise (· ≤ ·) ∧
      Runs.trace callbackStep (create 512 true 10000) pollRun = [(1, 1000002), (1, 1000003)] ∧
      ¬ Throttle.Spaced 10000 (Runs.trace callbackStep (create 512 true 10000) pollRun) := by
  have hasked : Runs.trace callbackStep (create 512 true 10000) pollRun =
      [(1, 1000002), (1, 1000003)] := by decide +kernel
  refine ⟨by decide, hasked, ?_⟩
  rw [hasked]
  intro h
  have := (List.pairwise_cons.1 h).1 (1, 1000003) (by simp) rfl
  revert this
  decide

/-! ## No gap goes unrequested -/

/-- A push that is accepted has a number that is not numerically before the due one and at most 1024
ahead of it, and evicts nothing. -/
def Near (jb : JitterBuffer Ctx) : JbInput Ctx → Prop
  | .push seq _ _ _ => (jb.accepts seq = true →
      jb.baseOut seq ≤ seq ∧ seqDelta seq (jb.baseOut seq) ≤ 1024) ∧ jb.RoomFor seq
  | _ => True

instance (jb : JitterBuffer Ctx) : DecidablePred (Near jb)
  | .push seq _ _ _ => inferInstanceAs (Decidable ((jb.accepts seq = true →
      jb.baseOut seq ≤ seq ∧ seqDelta seq (jb.baseOut seq) ≤ 1024) ∧ jb.RoomFor seq))
  | .pop _ | .setRttMs _ => inferInstanceAs (Decidable True)

/-- Every number that is missing before a buffered one has been checked. -/
structure Checked (jb : JitterBuffer Ctx) (ts : List (Throttle.Turn UInt32)) : Prop where
  keyed : jb.Keyed
  fresh : jb.started = false → ∀ k : UInt32, jb.buf.contains k = false
  ahead : ∀ k : UInt32, jb.buf.contains k = true → jb.nextOut ≤ k
  holes : ∀ k s : UInt32, jb.buf.contains k = true → jb.nextOut ≤ s → s < k →
    jb.buf.contains s = false → ∃ now, .check s now ∈ ts

variable {ts : List (Throttle.Turn UInt32)}

theorem contains_stored (seq k : UInt32) (genUs now : Int) (data : Option Ctx) :
    (jb.stored seq genUs data now).buf.contains k = true ↔ k = seq ∨ jb.buf.contains k = true := by
  simp only [stored, store, estimateJitter_buf, startAt_buf]
  split_ifs with hdata
  · simp only [estimateJitter_buf, startAt_buf]
    refine ⟨Or.inr, ?_⟩
    rintro (rfl | hk)
    · rw [TreeMap.contains_eq_isSome_getElem?]
      cases hslot : jb.buf[k]? with
      | none => simp [hslot] at hdata
      | some u => rfl
    · exact hk
  · rw [TreeMap.contains_insert, Bool.or_eq_true, beq_iff_eq, Std.compare_eq_iff_eq, @eq_comm _ k]

theorem contains_push_iff {seq : UInt32} (ha : jb.accepts seq = true) (hroom : jb.RoomFor seq)
    (genUs now : Int) (data : Option Ctx) (k : UInt32) :
    (jb.push seq genUs data now).1.buf.contains k = true ↔ k = seq ∨ jb.buf.contains k = true := by
  rw [push_buf_eq_stored jb ha hroom, contains_stored]

theorem mem_gapNumbers {seq s : UInt32} (hle : jb.nextOut ≤ s) (hlt : s < seq)
    (hgap : seqDelta seq jb.nextOut ≤ 1024) : s ∈ jb.gapNumbers seq := by
  rw [UInt32.le_iff_toNat_le] at hle hgap
  have hlt' := UInt32.lt_iff_toNat_lt.1 hlt
  have hwhole : (seqDelta seq jb.nextOut).toNat = seq.toNat - jb.nextOut.toNat :=
    UInt32.toNat_sub_of_le _ _ (UInt32.le_iff_toNat_le.2 (by omega))
  have hpart : (s - jb.nextOut).toNat = s.toNat - jb.nextOut.toNat :=
    UInt32.toNat_sub_of_le _ _ (UInt32.le_iff_toNat_le.2 hle)
  have hfwd : seqLt seq jb.nextOut = false := by
    rw [Bool.eq_false_iff, Ne, seqLt_iff]
    show ¬ 2 ^ 31 ≤ (seqDelta seq jb.nextOut).toNat
    simp at hgap
    omega
  rw [gapNumbers, hfwd, if_neg (by simpa [UInt32.lt_iff_toNat_lt] using hgap)]
  refine List.mem_map.2 ⟨(s - jb.nextOut).toNat, List.mem_range.2 (by omega), ?_⟩
  rw [UInt32.ofNat_toNat, UInt32.add_comm, UInt32.sub_add_cancel]

/-- Where there is a unit the due number does not depend on the one pushed. -/
theorem Checked.baseOut_eq (h : Checked jb ts) (seq : UInt32) {k : UInt32}
    (hk : jb.buf.contains k = true) : jb.baseOut seq = jb.nextOut := by
  unfold baseOut
  split_ifs with hst
  · rfl
  · rw [h.fresh (Bool.eq_false_iff.2 hst) k] at hk
    cases hk

theorem Checked.push (h : Checked jb ts) {seq : UInt32} {genUs now : Int} {data : Option Ctx}
    (hnear : Near jb (.push seq genUs data now)) :
    Checked (jb.push seq genUs data now).1 (ts ++ turns jb (.push seq genUs data now)) := by
  cases ha : jb.accepts seq with
  | false =>
    rw [push_of_rejected jb ha, turns, if_neg (by rw [ha]; exact Bool.false_ne_true),
      List.append_nil]
    exact h
  | true =>
    obtain ⟨hle, hgap⟩ := hnear.1 ha
    have hnext : (jb.push seq genUs data now).1.nextOut = jb.baseOut seq := by
      rw [push_nextOut jb ha, if_neg (UInt32.not_lt.2 hgap)]
    have hbase : (jb.stored seq genUs data now).nextOut = jb.baseOut seq := by
      simp [stored, startAt_nextOut, baseOut]
    have hbuf := contains_push_iff ha hnear.2 genUs now data
    refine ⟨h.keyed.push seq genUs now data, ?_, ?_, ?_⟩
    · intro hst
      rw [push_started jb ha] at hst
      cases hst
    · intro k hk
      rw [hnext]
      rcases (hbuf k).1 hk with rfl | hk
      · exact hle
      · rw [h.baseOut_eq seq hk]
        exact h.ahead k hk
    · intro k s hk hles hlt hs
      rw [hnext] at hles
      have hs' : ¬ (s = seq ∨ jb.buf.contains s = true) := by
        rw [← hbuf, hs]
        exact Bool.false_ne_true
      rcases (hbuf k).1 hk with rfl | hk
      · refine ⟨now, List.mem_append_right _ ?_⟩
        rw [turns, if_pos ha]
        refine List.mem_map.2 ⟨s, List.mem_filter.2 ⟨?_, ?_⟩, rfl⟩
        · exact mem_gapNumbers (hbase ▸ hles) hlt (hbase ▸ hgap)
        · rw [Bool.not_eq_true', Bool.eq_false_iff, Ne, contains_stored]
          exact hs'
      · -- The unit was there before, and the due number has not moved.
        rw [h.baseOut_eq seq hk] at hles
        obtain ⟨t, ht⟩ := h.holes k s hk hles hlt (Bool.eq_false_iff.2 fun hin => hs' (.inr hin))
        exact ⟨t, List.mem_append_left _ ht⟩

theorem Checked.takeOut (h : Checked jb ts) {head : UInt32} {u : JbUnit Ctx} (now : Int)
    (hst : jb.started = true) (hu : jb.buf[head]? = some u) (hle : jb.nextOut ≤ head)
    (hfirst : ∀ k : UInt32, jb.buf.contains k = true → head ≤ k) :
    Checked (jb.takeOut head u now) ts := by
  have hseq : u.seq = head := h.keyed head u hu
  have hleft : ∀ k, (jb.takeOut head u now).buf.contains k = true ↔
      k ≠ head ∧ jb.buf.contains k = true := fun k => OrderedMap.contains_erase_iff
  -- What is left is ahead of the head, so the number after the head does not wrap.
  have hsucc : ∀ k, (jb.takeOut head u now).buf.contains k = true →
      head.toNat < k.toNat ∧ (head + 1).toNat = head.toNat + 1 := by
    intro k hk
    obtain ⟨hne, hin⟩ := (hleft k).1 hk
    have hge := UInt32.le_iff_toNat_le.1 (hfirst k hin)
    have hne' : k.toNat ≠ head.toNat := fun heq => hne (UInt32.toNat_inj.1 heq)
    have hk32 := k.toNat_lt
    refine ⟨by omega, ?_⟩
    rw [UInt32.toNat_add, UInt32.toNat_one, Nat.mod_eq_of_lt (by omega)]
  refine ⟨?_, ?_, ?_, ?_⟩
  · intro k v hv
    rw [takeOut_buf, TreeMap.getElem?_erase] at hv
    split_ifs at hv
    exact h.keyed k v hv
  · intro hst'
    rw [takeOut_started, hst] at hst'
    cases hst'
  · intro k hk
    obtain ⟨hlt, hnext⟩ := hsucc k hk
    rw [takeOut_nextOut, hseq, UInt32.le_iff_toNat_le, hnext]
    omega
  · intro k s hk hles hlt hs
    obtain ⟨-, hnext⟩ := hsucc k hk
    rw [takeOut_nextOut, hseq, UInt32.le_iff_toNat_le, hnext] at hles
    rw [UInt32.le_iff_toNat_le] at hle
    refine h.holes k s ((hleft k).1 hk).2 (UInt32.le_iff_toNat_le.2 (by omega)) hlt ?_
    rw [Bool.eq_false_iff] at hs ⊢
    intro hin
    refine hs ((hleft s).2 ⟨?_, hin⟩)
    rintro rfl
    omega

theorem Checked.pop (h : Checked jb ts) (now : Int) : Checked (jb.pop now).1 ts := by
  rcases pop_spec jb now with ⟨-, hbuf, hnext, hst, -⟩ | ⟨u, hst, hu, -, hjb⟩ |
      ⟨head, u, hst, -, -, hf, -, hjb⟩
  · refine ⟨h.keyed.pop now, ?_, ?_, ?_⟩
    · rw [hbuf, hst]
      exact h.fresh
    · rw [hbuf, hnext]
      exact h.ahead
    · rw [hbuf, hnext]
      exact h.holes
  · rw [hjb]
    exact h.takeOut now hst hu (UInt32.le_refl _) h.ahead
  · have hhead := OrderedMap.getElem?_first? hf
    rw [hjb]
    refine h.takeOut now hst hhead (h.ahead head ?_) ?_
    · exact OrderedMap.contains_of_getElem? hhead
    · intro k hk
      obtain ⟨v, hv⟩ := OrderedMap.contains_iff.1 hk
      exact Std.isLE_compare.1 (OrderedMap.first?_le hf hv)

theorem Checked.mono (h : Checked jb ts) {ts' : List (Throttle.Turn UInt32)}
    (hts : ∀ x ∈ ts, x ∈ ts') : Checked jb ts' := by
  refine ⟨h.keyed, h.fresh, h.ahead, ?_⟩
  intro k s hk hle hlt hs
  obtain ⟨now, hnow⟩ := h.holes k s hk hle hlt hs
  exact ⟨now, hts _ hnow⟩

theorem Checked.run {is : List (JbInput Ctx)} (h : Checked jb ts)
    (hnear : Runs.Along JitterBuffer.step Near jb is) :
    Checked (Runs.after JitterBuffer.step jb is) (ts ++ Runs.trace turnStep jb is) := by
  induction is generalizing jb ts with
  | nil => simpa using h
  | cons i is ih =>
    have hstep : Checked (JitterBuffer.step jb i).1 (ts ++ turns jb i) := by
      cases i with
      | push seq genUs data now => exact h.push hnear.1
      | pop now => exact (h.pop now).mono fun x hx => List.mem_append_left _ hx
      | setRttMs ms =>
        rw [turns, List.append_nil]
        exact ⟨h.keyed, h.fresh, h.ahead, h.holes⟩
    have hrest := ih hstep hnear.2
    rw [List.append_assoc] at hrest
    exact hrest

/-- **No gap goes unrequested.** In every run whose accepted pushes do not wrap, are at most 1024
ahead and evict nothing, each number that is missing between the due one and the largest one
buffered has been asked for. -/
theorem gaps_requested (maxUnits : ℕ) (nackIntervalUs : Int) (is : List (JbInput Ctx))
    (hnear : Runs.Along JitterBuffer.step Near (create maxUnits true nackIntervalUs) is) :
    let fresh : JitterBuffer Ctx := create maxUnits true nackIntervalUs
    let jb := Runs.after JitterBuffer.step fresh is
    ∀ last u, OrderedMap.last? jb.buf = some (last, u) → ∀ s, jb.nextOut ≤ s → s < last →
      jb.buf.contains s = false → ∃ now, (s, now) ∈ Runs.trace callbackStep fresh is := by
  intro fresh jb last u hlast s hle hlt hs
  have hfresh : Throttled nackIntervalUs fresh {} := rfl
  have hchecked : Checked fresh [] := by
    refine ⟨keyed_create maxUnits true nackIntervalUs, ?_, ?_, ?_⟩
    · exact fun _ k => by simp [fresh, create]
    · exact fun k hk => by simp [fresh, create] at hk
    · exact fun k _ hk => by simp [fresh, create] at hk
  have hin : jb.buf.contains last = true :=
    OrderedMap.contains_of_getElem? (OrderedMap.getElem?_last? hlast)
  obtain ⟨now, hcheck⟩ := (hchecked.run hnear).holes last s hin hle hlt hs
  have hnoted : Throttle.Noted ({} : Throttle UInt32) := fun k u hk => by simp at hk
  obtain ⟨t, ht⟩ := @Throttle.asked_of_checks _ _ nackIntervalUs 4096 _ _ _ hnoted _ _ _ hcheck
  rw [Throttle.asked_run] at ht
  rw [hfresh.callbacks_eq]
  exact ⟨t, ht⟩

/-- Numbers 1 and 2 are missing. -/
def gapRun : List (JbInput ℕ) := [.push 0 0 (some 0) 1000000, .push 3 0 (some 1) 1000001]

theorem gaps_requested_two :
    ∃ now, (2, now) ∈ Runs.trace callbackStep (create 512 true 10000) gapRun :=
  gaps_requested 512 10000 gapRun (by decide +kernel) 3
    { seq := 3, genUs := 0, firstRecvUs := 1000001, data := some 1 } (by decide +kernel) 2
    (by decide +kernel) (by decide) (by decide +kernel)

end Rtstream.JitterBuffer
