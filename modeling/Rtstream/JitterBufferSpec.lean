import Rtstream.JitterBuffer
import Rtstream.Lib.Serial
import Mathlib.Tactic.Common

/-!
# What one call of the jitter buffer does

The equations the proofs about runs work from. A push is rejected and changes nothing, or it is
accepted, inserts its unit and moves `next_out_` at most to its own number
(`push_nextOut`). A pop that hands out a unit hands out the one that is due, or skips to the
first buffered one after waiting (`pop_spec`).
-/

namespace Rtstream.JitterBuffer

open Std (TreeMap)

variable {Ctx : Type} (jb : JitterBuffer Ctx)

/-! ## Comparing sequence numbers -/

theorem seqLt_iff_before {a b : UInt32} :
    seqLt a b = true ↔ Serial.Before (w := 31) a.toBitVec b.toBitVec := by
  rw [seqLt, decide_eq_true_iff, Serial.Before, Int32.lt_iff_toInt_lt]
  show (a.toBitVec - b.toBitVec).toInt < 0 ↔ _
  rw [BitVec.msb_eq_toInt, decide_eq_true_iff]

theorem seqLt_iff {a b : UInt32} : seqLt a b = true ↔ 2 ^ 31 ≤ (a - b).toNat := by
  rw [seqLt_iff_before, Serial.Before, BitVec.msb_eq_decide, decide_eq_true_iff]
  rfl

@[simp] theorem seqLt_self (a : UInt32) : seqLt a a = false := by
  rw [Bool.eq_false_iff, Ne, seqLt_iff]
  simp

/-! ## The parts of a push -/

section Fields

@[simp] theorem setRttMs_buf (ms : ℚ) : (jb.setRttMs ms).buf = jb.buf := rfl
@[simp] theorem setRttMs_nextOut (ms : ℚ) : (jb.setRttMs ms).nextOut = jb.nextOut := rfl
@[simp] theorem setRttMs_started (ms : ℚ) : (jb.setRttMs ms).started = jb.started := rfl

variable (seq : UInt32) (genUs now : Int) (data : Option Ctx)

@[simp] theorem estimateJitter_buf : (jb.estimateJitter seq genUs now).buf = jb.buf := by
  simp only [estimateJitter]; split_ifs <;> rfl
@[simp] theorem estimateJitter_nextOut :
    (jb.estimateJitter seq genUs now).nextOut = jb.nextOut := by
  simp only [estimateJitter]; split_ifs <;> rfl
@[simp] theorem estimateJitter_started :
    (jb.estimateJitter seq genUs now).started = jb.started := by
  simp only [estimateJitter]; split_ifs <;> rfl
@[simp] theorem estimateJitter_maxUnits :
    (jb.estimateJitter seq genUs now).maxUnits = jb.maxUnits := by
  simp only [estimateJitter]; split_ifs <;> rfl

@[simp] theorem startAt_buf : (jb.startAt seq now).buf = jb.buf := by
  unfold startAt; split_ifs <;> rfl
@[simp] theorem startAt_started : (jb.startAt seq now).started = true := by
  unfold startAt; split_ifs <;> simp_all
@[simp] theorem startAt_maxUnits : (jb.startAt seq now).maxUnits = jb.maxUnits := by
  unfold startAt; split_ifs <;> rfl
theorem startAt_nextOut :
    (jb.startAt seq now).nextOut = if jb.started then jb.nextOut else seq := by
  unfold startAt; split_ifs <;> rfl

@[simp] theorem store_nextOut : (jb.store seq genUs data now).nextOut = jb.nextOut := by
  simp only [store]; split_ifs <;> rfl
@[simp] theorem store_started : (jb.store seq genUs data now).started = jb.started := by
  simp only [store]; split_ifs <;> rfl
@[simp] theorem store_maxUnits : (jb.store seq genUs data now).maxUnits = jb.maxUnits := by
  simp only [store]; split_ifs <;> rfl

theorem store_buf_of_vacant (h : (jb.buf[seq]?.getD {}).data = none) :
    (jb.store seq genUs data now).buf =
      jb.buf.insert seq { seq := seq, genUs := genUs, firstRecvUs := now, data := data } := by
  simp [store, h]

@[simp] theorem maybeNack_buf : (jb.maybeNack seq now).1.buf = jb.buf := by
  simp only [maybeNack]; split_ifs <;> rfl
@[simp] theorem maybeNack_nextOut : (jb.maybeNack seq now).1.nextOut = jb.nextOut := by
  simp only [maybeNack]; split_ifs <;> rfl
@[simp] theorem maybeNack_started : (jb.maybeNack seq now).1.started = jb.started := by
  simp only [maybeNack]; split_ifs <;> rfl
@[simp] theorem maybeNack_maxUnits : (jb.maybeNack seq now).1.maxUnits = jb.maxUnits := by
  simp only [maybeNack]; split_ifs <;> rfl

end Fields

/-- **Reporting missing numbers** changes the table of reports only. -/
theorem foldl_nackAbsent_eq (now : Int) (ss : List UInt32)
    (acc : JitterBuffer Ctx × List JbEvent) :
    ∃ table, (ss.foldl (nackAbsent now) acc).1 = { acc.1 with lastNackUs := table } := by
  induction ss generalizing acc with
  | nil => exact ⟨_, rfl⟩
  | cons s ss ih =>
    obtain ⟨table, htable⟩ := ih (nackAbsent now acc s)
    refine ⟨table, ?_⟩
    rw [List.foldl_cons, htable]
    simp only [nackAbsent, maybeNack]
    split_ifs <;> rfl

theorem foldl_nackAbsent_events (now : Int) (ss : List UInt32)
    (acc : JitterBuffer Ctx × List JbEvent) {n : UInt32}
    (h : .lost n ∈ (ss.foldl (nackAbsent now) acc).2) : .lost n ∈ acc.2 := by
  induction ss generalizing acc with
  | nil => exact h
  | cons s ss ih =>
    have := ih (nackAbsent now acc s) h
    unfold nackAbsent at this
    split at this
    · exact this
    · rcases List.mem_append.1 this with this | this
      · exact this
      · simp only [maybeNack] at this
        split_ifs at this <;> simp at this

section Detect

variable (seq : UInt32) (now : Int)

/-- `detect_missing_locked` moves the due number and changes the table, and nothing else. -/
theorem detectMissing_eq : ∃ (n : UInt32) (first : Int) (table : TreeMap UInt32 Int),
    (jb.detectMissing seq now).1 =
      { jb with nextOut := n, firstArrivalUs := first, lastNackUs := table } := by
  simp only [detectMissing]
  split_ifs
  · exact ⟨_, _, _, rfl⟩
  · exact ⟨_, _, _, rfl⟩
  · obtain ⟨table, htable⟩ := foldl_nackAbsent_eq now
      ((List.range (seqDelta seq jb.nextOut).toNat).map fun i => jb.nextOut + UInt32.ofNat i)
      (jb, [])
    exact ⟨_, _, table, htable⟩

@[simp] theorem detectMissing_buf : (jb.detectMissing seq now).1.buf = jb.buf := by
  obtain ⟨_, _, _, h⟩ := detectMissing_eq jb seq now
  rw [h]
@[simp] theorem detectMissing_started : (jb.detectMissing seq now).1.started = jb.started := by
  obtain ⟨_, _, _, h⟩ := detectMissing_eq jb seq now
  rw [h]
@[simp] theorem detectMissing_maxUnits :
    (jb.detectMissing seq now).1.maxUnits = jb.maxUnits := by
  obtain ⟨_, _, _, h⟩ := detectMissing_eq jb seq now
  rw [h]

/-- A unit that is not behind moves the due number only when it jumps. -/
theorem detectMissing_nextOut (h : seqLt seq jb.nextOut = false) :
    (jb.detectMissing seq now).1.nextOut =
      if seqDelta seq jb.nextOut > 1024 then seq else jb.nextOut := by
  simp only [detectMissing, h, Bool.false_or]
  split_ifs with heq hgap hgap
  · exact (eq_of_beq heq).symm
  · rfl
  · rfl
  · obtain ⟨table, htable⟩ := foldl_nackAbsent_eq now
      ((List.range (seqDelta seq jb.nextOut).toNat).map fun i => jb.nextOut + UInt32.ofNat i)
      (jb, [])
    rw [htable]

theorem lost_not_mem_detectMissing (n : UInt32) : .lost n ∉ (jb.detectMissing seq now).2 := by
  intro h
  simp only [detectMissing] at h
  split_ifs at h
  · cases h
  · cases h
  · cases foldl_nackAbsent_events _ _ _ h

end Detect

theorem evictLoop_of_le {maxUnits : ℕ} {buf : TreeMap UInt32 (JbUnit Ctx)} (fuel : ℕ)
    (h : buf.size ≤ maxUnits) : evictLoop maxUnits fuel buf = (buf, []) := by
  cases fuel with
  | zero => rfl
  | succ fuel => simp [evictLoop, Nat.not_lt.2 h]

theorem lost_mem_evictLoop {maxUnits : ℕ} {buf : TreeMap UInt32 (JbUnit Ctx)}
    (h : maxUnits < buf.size) : .lost 1 ∈ (evictLoop maxUnits buf.size buf).2 := by
  obtain ⟨n, hn⟩ : ∃ n, buf.size = n + 1 := Nat.exists_eq_succ_of_ne_zero (by omega)
  rw [hn] at h ⊢
  simp only [evictLoop, hn, if_pos h]
  cases hf : OrderedMap.first? buf with
  | some kv => exact List.mem_cons_self
  | none =>
    have hzero := OrderedMap.size_of_first?_eq_none hf
    omega

theorem getElem?_evictLoop {maxUnits fuel : ℕ} {buf : TreeMap UInt32 (JbUnit Ctx)} {k : UInt32}
    {u : JbUnit Ctx} (h : (evictLoop maxUnits fuel buf).1[k]? = some u) : buf[k]? = some u := by
  induction fuel generalizing buf with
  | zero => exact h
  | succ fuel ih =>
    simp only [evictLoop] at h
    split_ifs at h with hsize
    · cases hfirst : OrderedMap.first? buf with
      | none => simpa [hfirst] using h
      | some kv =>
        rw [hfirst] at h
        have := ih h
        rw [TreeMap.getElem?_erase] at this
        split_ifs at this
        exact this
    · exact h

@[simp] theorem evictOverflow_nextOut : jb.evictOverflow.1.nextOut = jb.nextOut := rfl
@[simp] theorem evictOverflow_started : jb.evictOverflow.1.started = jb.started := rfl
@[simp] theorem evictOverflow_maxUnits : jb.evictOverflow.1.maxUnits = jb.maxUnits := rfl
theorem evictOverflow_buf :
    jb.evictOverflow.1.buf = (evictLoop jb.maxUnits jb.buf.size jb.buf).1 := rfl

/-! ## A push -/

section Push

variable {seq : UInt32} {genUs now : Int} {data : Option Ctx}

/-- The number that is due when the unit is inserted. -/
def baseOut (seq : UInt32) : UInt32 := if jb.started then jb.nextOut else seq

/-- Whether a push of `seq` is accepted. -/
def accepts (seq : UInt32) : Bool := !(jb.started && seqLt seq jb.nextOut)

theorem push_of_rejected (h : jb.accepts seq = false) :
    jb.push seq genUs data now = (jb, false, []) := by
  have : (jb.started && seqLt seq jb.nextOut) = true := by simpa [accepts] using h
  simp [push, this]

theorem seqLt_baseOut (h : jb.accepts seq = true) : seqLt seq (jb.baseOut seq) = false := by
  unfold baseOut
  split_ifs with hs
  · simpa [accepts, hs] using h
  · exact seqLt_self seq

/-- The buffer between the insertion of the unit and the eviction. -/
def stored (seq : UInt32) (genUs : Int) (data : Option Ctx) (now : Int) : JitterBuffer Ctx :=
  ((jb.startAt seq now).estimateJitter seq genUs now).store seq genUs data now

theorem push_of_accepted (h : jb.accepts seq = true) :
    jb.push seq genUs data now =
      let stored := jb.stored seq genUs data now
      ((stored.detectMissing seq now).1.evictOverflow.1, true,
        (stored.detectMissing seq now).2 ++ (stored.detectMissing seq now).1.evictOverflow.2) := by
  have : (jb.started && seqLt seq jb.nextOut) = false := by
    rwa [accepts, Bool.not_eq_true'] at h
  simp only [push, this, Bool.false_eq_true, if_false, stored]

theorem push_accepted_eq : (jb.push seq genUs data now).2.1 = jb.accepts seq := by
  cases h : jb.accepts seq with
  | false => rw [push_of_rejected jb h]
  | true => rw [push_of_accepted jb h]

/-- **Where a push leaves the due number**: at its own number after a jump, else where it was. -/
theorem push_nextOut (h : jb.accepts seq = true) :
    (jb.push seq genUs data now).1.nextOut =
      if seqDelta seq (jb.baseOut seq) > 1024 then seq else jb.baseOut seq := by
  have hbase : (jb.stored seq genUs data now).nextOut = jb.baseOut seq := by
    simp [stored, startAt_nextOut, baseOut]
  rw [push_of_accepted jb h]
  simp only [evictOverflow_nextOut]
  rw [detectMissing_nextOut _ _ _ (by rw [hbase]; exact seqLt_baseOut jb h), hbase]

theorem push_started (h : jb.accepts seq = true) :
    (jb.push seq genUs data now).1.started = true := by
  rw [push_of_accepted jb h]
  simp [stored]

@[simp] theorem push_maxUnits : (jb.push seq genUs data now).1.maxUnits = jb.maxUnits := by
  cases h : jb.accepts seq with
  | false => rw [push_of_rejected jb h]
  | true => rw [push_of_accepted jb h]; simp [stored]

theorem push_buf (h : jb.accepts seq = true) :
    (jb.push seq genUs data now).1.buf =
      (evictLoop jb.maxUnits (jb.stored seq genUs data now).buf.size
        (jb.stored seq genUs data now).buf).1 := by
  rw [push_of_accepted jb h]
  simp only [evictOverflow_buf, detectMissing_buf, detectMissing_maxUnits]
  simp [stored]

theorem size_stored (seq : UInt32) (genUs now : Int) (data : Option Ctx) :
    (jb.stored seq genUs data now).buf.size =
      jb.buf.size + if jb.buf.contains seq then 0 else 1 := by
  simp only [stored, store, estimateJitter_buf, startAt_buf]
  split_ifs with hdata hin hin
  · simp
  · rw [TreeMap.getElem?_eq_none_of_contains_eq_false (Bool.eq_false_iff.2 hin)] at hdata
    simp at hdata
  · simp [TreeMap.size_insert, hin]
  · simp [TreeMap.size_insert, hin]

/-- **A push loses a unit** when it makes the buffer too large, and only then. -/
theorem lost_mem_push_iff :
    (∃ n, .lost n ∈ (jb.push seq genUs data now).2.2) ↔
      jb.accepts seq = true ∧ jb.maxUnits < jb.buf.size + if jb.buf.contains seq then 0 else 1 := by
  cases ha : jb.accepts seq with
  | false => simp [push_of_rejected jb ha]
  | true =>
    have hmax : (jb.stored seq genUs data now).maxUnits = jb.maxUnits := by simp [stored]
    rw [push_of_accepted jb ha, ← size_stored jb seq genUs now data]
    simp only [List.mem_append, lost_not_mem_detectMissing, false_or, true_and]
    simp only [evictOverflow, detectMissing_buf, detectMissing_maxUnits, hmax]
    constructor
    · intro h
      obtain ⟨n, hn⟩ := h
      by_contra hle
      rw [evictLoop_of_le _ (Nat.le_of_not_lt hle)] at hn
      cases hn
    · intro h
      exact ⟨1, lost_mem_evictLoop h⟩

/-- A unit of this number would not make the buffer too large. -/
def RoomFor (seq : UInt32) : Prop :=
  jb.accepts seq = true → jb.buf.size + (if jb.buf.contains seq then 0 else 1) ≤ jb.maxUnits

instance : Decidable (jb.RoomFor seq) := inferInstanceAs (Decidable (_ → _))

variable (genUs now data) in
theorem roomFor_iff : jb.RoomFor seq ↔ ∀ n, .lost n ∉ (jb.push seq genUs data now).2.2 := by
  rw [← not_exists, lost_mem_push_iff, RoomFor]
  simp

theorem push_buf_eq_stored (ha : jb.accepts seq = true) (hroom : jb.RoomFor seq) :
    (jb.push seq genUs data now).1.buf = (jb.stored seq genUs data now).buf := by
  have hsize := size_stored jb seq genUs now data
  rw [push_buf jb ha, evictLoop_of_le _ (by rw [hsize]; exact hroom ha)]

/-- With room for it, an accepted unit of a new number is inserted, and nothing else changes. -/
theorem push_buf_of_room (ha : jb.accepts seq = true) (hroom : jb.RoomFor seq)
    (hnone : jb.buf[seq]? = none) :
    (jb.push seq genUs data now).1.buf =
      jb.buf.insert seq { seq := seq, genUs := genUs, firstRecvUs := now, data := data } := by
  rw [push_buf_eq_stored jb ha hroom, stored, store_buf_of_vacant _ _ _ _ _ (by simp [hnone])]
  simp

theorem getElem?_push {k : UInt32} {u : JbUnit Ctx}
    (h : (jb.push seq genUs data now).1.buf[k]? = some u) :
    jb.buf[k]? = some u ∨
      k = seq ∧ u = { seq := seq, genUs := genUs, firstRecvUs := now, data := data } := by
  cases ha : jb.accepts seq with
  | false => rw [push_of_rejected jb ha] at h; exact Or.inl h
  | true =>
    rw [push_buf jb ha] at h
    have h := getElem?_evictLoop h
    simp only [stored, store, estimateJitter_buf, startAt_buf] at h
    split_ifs at h
    · simp only [estimateJitter_buf, startAt_buf] at h
      exact Or.inl h
    · simp only [TreeMap.getElem?_insert, Std.compare_eq_iff_eq] at h
      split_ifs at h with hk
      · exact Or.inr ⟨hk.symm, (Option.some.inj h).symm⟩
      · exact Or.inl h

end Push

/-! ## A pop -/

section Pop

variable {now : Int}

/-- The head is due: hand it out, unless it is to be held back a little longer. -/
theorem pop_of_due {u : JbUnit Ctx} (hne : ¬(!jb.started || jb.buf.isEmpty) = true)
    (hb : jb.buf[jb.nextOut]? = some u) :
    jb.pop now = if now - u.firstRecvUs < jb.targetDelayUs && !jb.starved now then
      ({ jb with headMissingSinceUs := 0 }, none, [])
    else (jb.takeOut jb.nextOut u now, some u, []) := by
  simp only [pop, if_neg hne, hb]

/-- The head is missing: wait for it, or skip to the first buffered unit. -/
theorem pop_of_missing (hne : ¬(!jb.started || jb.buf.isEmpty) = true)
    (hb : jb.buf[jb.nextOut]? = none) :
    jb.pop now = if jb.waitsForHead now then
      ({ jb with headMissingSinceUs := jb.missingSince now }, none,
        (if jb.onMissing then [.missing jb.nextOut] else []) ++ [.nackRequested])
    else match OrderedMap.first? jb.buf with
      | some (head, u) => (jb.takeOut head u now, some u, [.lost (seqDelta head jb.nextOut)])
      | none => (jb, none, []) := by
  unfold pop
  rw [if_neg hne]
  generalize jb.buf[jb.nextOut]? = o at hb
  subst hb
  rfl

variable (now) in
/-- **What a pop does**: nothing to the units, or it takes the unit that is due, or, with the
head missing and not waited for any longer, the first one of the map. -/
theorem pop_spec :
    ((jb.pop now).2.1 = none ∧ (jb.pop now).1.buf = jb.buf ∧
      (jb.pop now).1.nextOut = jb.nextOut ∧ (jb.pop now).1.started = jb.started ∧
      (jb.pop now).1.maxUnits = jb.maxUnits) ∨
    (∃ u, jb.started = true ∧ jb.buf[jb.nextOut]? = some u ∧ (jb.pop now).2.1 = some u ∧
      (jb.pop now).1 = jb.takeOut jb.nextOut u now) ∨
    (∃ head u, jb.started = true ∧ jb.buf[jb.nextOut]? = none ∧ jb.waitsForHead now = false ∧
      OrderedMap.first? jb.buf = some (head, u) ∧ (jb.pop now).2.1 = some u ∧
      (jb.pop now).1 = jb.takeOut head u now) := by
  by_cases hne : (!jb.started || jb.buf.isEmpty) = true
  · have hpop : jb.pop now = (jb, none, []) := by simp only [pop, if_pos hne]
    rw [hpop]
    exact Or.inl ⟨rfl, rfl, rfl, rfl, rfl⟩
  · have hst : jb.started = true := by
      simp only [Bool.or_eq_true, Bool.not_eq_true', not_or, Bool.not_eq_false] at hne
      exact hne.1
    cases hb : jb.buf[jb.nextOut]? with
    | some u =>
      rw [pop_of_due jb hne hb]
      split_ifs
      · exact Or.inl ⟨rfl, rfl, rfl, rfl, rfl⟩
      · exact Or.inr (Or.inl ⟨u, hst, rfl, rfl, rfl⟩)
    | none =>
      rw [pop_of_missing jb hne hb]
      by_cases hw : jb.waitsForHead now = true
      · rw [if_pos hw]
        exact Or.inl ⟨rfl, rfl, rfl, rfl, rfl⟩
      · rw [if_neg hw]
        cases hf : OrderedMap.first? jb.buf with
        | none => exact Or.inl ⟨rfl, rfl, rfl, rfl, rfl⟩
        | some kv => exact Or.inr (Or.inr ⟨kv.1, kv.2, hst, rfl, by simpa using hw, rfl, rfl, rfl⟩)

theorem getElem?_pop {k : UInt32} {u : JbUnit Ctx} (h : (jb.pop now).1.buf[k]? = some u) :
    jb.buf[k]? = some u := by
  have herase : ∀ k', (jb.buf.erase k')[k]? = some u → jb.buf[k]? = some u := by
    intro k' h
    rw [TreeMap.getElem?_erase] at h
    split_ifs at h
    exact h
  rcases pop_spec jb now with ⟨-, hbuf, -⟩ | ⟨v, -, -, -, hjb⟩ | ⟨head, v, -, -, -, -, -, hjb⟩
  · rwa [hbuf] at h
  · rw [hjb] at h
    exact herase jb.nextOut h
  · rw [hjb] at h
    exact herase head h

/-- There are units, and the one that is due is not among them. -/
def headMissing (jb : JitterBuffer Ctx) : Bool :=
  jb.started && !jb.buf.isEmpty && !jb.buf.contains jb.nextOut

theorem headMissing_iff : jb.headMissing = true ↔
    ¬(!jb.started || jb.buf.isEmpty) = true ∧ jb.buf[jb.nextOut]? = none := by
  rw [headMissing, TreeMap.contains_eq_isSome_getElem?]
  cases jb.started <;> cases jb.buf.isEmpty <;> cases jb.buf[jb.nextOut]? <;> simp

theorem pop_isSome_iff (h : jb.headMissing = true) :
    (jb.pop now).2.1.isSome = true ↔ jb.waitsForHead now = false := by
  obtain ⟨hne, hb⟩ := (headMissing_iff jb).1 h
  rw [pop_of_missing jb hne hb]
  cases hw : jb.waitsForHead now with
  | true => simp
  | false =>
    cases hf : OrderedMap.first? jb.buf with
    | some kv => simp
    | none =>
      have hempty : jb.buf.isEmpty = true := by
        rw [TreeMap.isEmpty_eq_size_eq_zero, OrderedMap.size_of_first?_eq_none hf]
        rfl
      simp [hempty] at hne

@[simp] theorem takeOut_buf (k : UInt32) (u : JbUnit Ctx) :
    (jb.takeOut k u now).buf = jb.buf.erase k := rfl
@[simp] theorem takeOut_nextOut (k : UInt32) (u : JbUnit Ctx) :
    (jb.takeOut k u now).nextOut = u.seq + 1 := rfl
@[simp] theorem takeOut_started (k : UInt32) (u : JbUnit Ctx) :
    (jb.takeOut k u now).started = jb.started := rfl

@[simp] theorem takeOut_maxUnits (k : UInt32) (u : JbUnit Ctx) :
    (jb.takeOut k u now).maxUnits = jb.maxUnits := rfl

end Pop

/-! ## Slots and the units in them -/

/-- Every unit is stored under its own number. -/
def Keyed (jb : JitterBuffer Ctx) : Prop :=
  ∀ (k : UInt32) (u : JbUnit Ctx), jb.buf[k]? = some u → u.seq = k

theorem Keyed.push {jb : JitterBuffer Ctx} (hk : jb.Keyed) (seq : UInt32) (genUs now : Int)
    (data : Option Ctx) : (jb.push seq genUs data now).1.Keyed := by
  intro k u hu
  rcases getElem?_push jb hu with h | ⟨rfl, rfl⟩
  · exact hk k u h
  · rfl

theorem Keyed.pop {jb : JitterBuffer Ctx} (hk : jb.Keyed) (now : Int) : (jb.pop now).1.Keyed :=
  fun k u hu => hk k u (getElem?_pop jb hu)

end Rtstream.JitterBuffer
