import Rtstream.JitterBufferUnits

/-!
# A full jitter buffer

A push that makes the buffer larger than `max_units_` evicts units from the front of the map until
it fits. `total_buffered_` is meant to count the units, but an eviction does not take its unit off,
and the front of the map is the smallest number, which after a wrap is the newest.

* `size_le_maxUnits`: the buffer never holds more than `max_units_`.
* `totalBuffered_eq`: the counter is ahead of the size by the units that were evicted, and by the
  empty slots that were filled.
* `evicts_oldest_iff`: an eviction takes the oldest unit if and only if the numbers do not lie on
  both sides of the wrap.
* `sound_iff`: all is well after every push if and only if no push evicts or fills an empty slot.
-/

namespace Rtstream.JitterBuffer

open Std (TreeMap)

variable {Ctx : Type} (jb : JitterBuffer Ctx)

/-! ## The size -/

theorem size_push_le {seq : UInt32} (ha : jb.accepts seq = true) (genUs now : Int)
    (data : Option Ctx) : (jb.push seq genUs data now).1.buf.size ≤ jb.maxUnits := by
  rw [(count_lost_push ha genUs now data).2]
  exact min_le_right _ _

theorem size_step_le (h : jb.buf.size ≤ jb.maxUnits) (i : JbInput Ctx) :
    (step jb i).1.buf.size ≤ (step jb i).1.maxUnits := by
  cases i with
  | push seq genUs data now =>
    show (jb.push seq genUs data now).1.buf.size ≤ (jb.push seq genUs data now).1.maxUnits
    rw [push_maxUnits]
    cases ha : jb.accepts seq with
    | false => rwa [push_of_rejected jb ha]
    | true => exact size_push_le jb ha genUs now data
  | pop now =>
    have hsize := size_step jb (.pop now)
    have hmax : (step jb (.pop now)).1.maxUnits = jb.maxUnits := by
      rcases pop_spec jb now with ⟨-, -, -, -, hmax⟩ | ⟨u, -, -, -, hjb⟩ |
        ⟨head, u, -, -, -, -, -, hjb⟩
      · exact hmax
      · exact congrArg (·.maxUnits) hjb
      · exact congrArg (·.maxUnits) hjb
    simp only [acceptedPushes] at hsize
    omega
  | setRttMs ms => exact h

/-- **The capacity** is kept by every run. -/
theorem size_le_maxUnits (is : List (JbInput Ctx)) (h : jb.buf.size ≤ jb.maxUnits) :
    (Runs.after step jb is).buf.size ≤ (Runs.after step jb is).maxUnits :=
  Runs.invariant (I := fun jb => jb.buf.size ≤ jb.maxUnits)
    (fun jb i hjb => size_step_le jb hjb i) h is

/-! ## The counter -/

section Fields

variable (seq : UInt32) (genUs now : Int)

@[simp] theorem estimateJitter_totalBuffered :
    (jb.estimateJitter seq genUs now).totalBuffered = jb.totalBuffered := by
  simp only [estimateJitter]; split_ifs <;> rfl
@[simp] theorem startAt_totalBuffered :
    (jb.startAt seq now).totalBuffered = jb.totalBuffered := by
  unfold startAt; split_ifs <;> rfl
@[simp] theorem detectMissing_totalBuffered :
    (jb.detectMissing seq now).1.totalBuffered = jb.totalBuffered := by
  obtain ⟨_, _, _, h⟩ := detectMissing_eq jb seq now
  rw [h]

end Fields

/-- The push fills a slot that holds no unit. -/
def refills (jb : JitterBuffer Ctx) : JbInput Ctx → ℕ
  | .push seq _ _ _ =>
      if jb.accepts seq && jb.buf.contains seq && (jb.buf[seq]?.getD {}).data.isNone then 1 else 0
  | _ => 0

theorem totalBuffered_push (seq : UInt32) (genUs now : Int) (data : Option Ctx)
    (ha : jb.accepts seq = true) :
    (jb.push seq genUs data now).1.totalBuffered =
      jb.totalBuffered + if (jb.buf[seq]?.getD {}).data.isSome then 0 else 1 := by
  rw [push_of_accepted jb ha]
  show ((jb.stored seq genUs data now).detectMissing seq now).1.totalBuffered = _
  rw [detectMissing_totalBuffered]
  simp only [stored, store, estimateJitter_buf, startAt_buf]
  split_ifs <;> simp

theorem totalBuffered_takeOut (h : jb.buf.size ≤ jb.totalBuffered) {k : UInt32} {u : JbUnit Ctx}
    (hk : jb.buf[k]? = some u) (now : Int) :
    (jb.takeOut k u now).totalBuffered + 1 = jb.totalBuffered := by
  have herase := OrderedMap.size_erase_add_one hk
  show jb.totalBuffered - 1 + 1 = _
  omega

theorem totalBuffered_pop (h : jb.buf.size ≤ jb.totalBuffered) (now : Int) :
    (jb.pop now).1.totalBuffered + pops jb (.pop now) = jb.totalBuffered := by
  simp only [pops]
  by_cases hne : (!jb.started || jb.buf.isEmpty) = true
  · simp only [pop, if_pos hne]
    rfl
  cases hb : jb.buf[jb.nextOut]? with
  | some u =>
    rw [pop_of_due jb hne hb]
    split_ifs
    · rfl
    · exact totalBuffered_takeOut jb h hb now
  | none =>
    rw [pop_of_missing jb hne hb]
    split_ifs
    · rfl
    · rfl
    · cases hf : OrderedMap.first? jb.buf with
      | none => rfl
      | some kv => exact totalBuffered_takeOut jb h (OrderedMap.getElem?_first? hf) now

/-- **One call**: the counter gets ahead of the size by what is evicted and what is refilled. -/
theorem totalBuffered_step (h : jb.buf.size ≤ jb.totalBuffered) (i : JbInput Ctx) :
    (step jb i).1.totalBuffered + jb.buf.size =
      jb.totalBuffered + (step jb i).1.buf.size + (evictions jb i + refills jb i) := by
  have hsize := size_step jb i
  cases i with
  | push seq genUs data now =>
    have hstep : (step jb (.push seq genUs data now)).1 = (jb.push seq genUs data now).1 := rfl
    rw [hstep] at hsize ⊢
    simp only [acceptedPushes, duplicates, refills, pops, push_accepted_eq] at hsize ⊢
    cases ha : jb.accepts seq with
    | false =>
      simp only [ha, push_of_rejected jb ha, Bool.false_and, Bool.false_eq_true, if_false]
        at hsize ⊢
      omega
    | true =>
      have htotal := totalBuffered_push jb seq genUs now data ha
      simp only [ha, Bool.true_and, if_true] at hsize ⊢
      cases hin : jb.buf.contains seq with
      | false =>
        rw [TreeMap.getElem?_eq_none_of_contains_eq_false hin] at htotal
        simp [hin] at htotal hsize ⊢
        omega
      | true =>
        cases hdata : (jb.buf[seq]?.getD {}).data <;> simp [hin, hdata] at htotal hsize ⊢ <;> omega
  | pop now =>
    have htotal := totalBuffered_pop jb h now
    have hstep : (step jb (.pop now)).1 = (jb.pop now).1 := rfl
    rw [hstep] at hsize ⊢
    simp only [acceptedPushes, duplicates, refills, evictions] at hsize ⊢
    omega
  | setRttMs ms => rfl

/-- **The counter** is ahead of the size by what the run has evicted and refilled. -/
theorem totalBuffered_eq (is : List (JbInput Ctx)) (h : jb.buf.size ≤ jb.totalBuffered) :
    (Runs.after step jb is).totalBuffered + jb.buf.size =
      jb.totalBuffered + (Runs.after step jb is).buf.size +
        Runs.total step (fun jb i => evictions jb i + refills jb i) jb is := by
  induction is generalizing jb with
  | nil => rfl
  | cons i is ih =>
    have hstep := totalBuffered_step jb h i
    have hrest := ih (step jb i).1 (by omega)
    simp only [Runs.after_cons, Runs.total]
    omega

/-! ## What is evicted -/

/-- What the push evicts is older than all that is left, and something is left. -/
def EvictsOldest (jb : JitterBuffer Ctx) (i : JbInput Ctx) : Prop :=
  ∀ k ∈ charges jb i, (∃ k', (step jb i).1.buf.contains k' = true) ∧
    ∀ k', (step jb i).1.buf.contains k' = true → seqLt k k' = true

/-- A push that makes the buffer one unit too large evicts the first one. -/
theorem evictLoop_of_succ {maxUnits : ℕ} {buf : TreeMap UInt32 (JbUnit Ctx)}
    (hsize : buf.size = maxUnits + 1) {k : UInt32} {u : JbUnit Ctx}
    (hf : OrderedMap.first? buf = some (k, u)) :
    (evictLoop maxUnits buf.size buf).1 = buf.erase k := by
  have herase := OrderedMap.size_erase_add_one (OrderedMap.getElem?_first? hf)
  rw [hsize, evictLoop, if_pos (by omega), hf]
  simp only [evictLoop_of_le maxUnits (show (buf.erase k).size ≤ maxUnits by omega)]

theorem seqLt_iff_of_lt {a b : UInt32} (h : a < b) :
    seqLt a b = true ↔ b.toNat - a.toNat ≤ 2 ^ 31 := by
  have hlt := UInt32.lt_iff_toNat_lt.1 h
  have hb := b.toNat_lt
  rw [seqLt_iff, UInt32.toNat_sub, Nat.mod_eq_of_lt (by omega)]
  omega

section Front

variable {buf : TreeMap UInt32 (JbUnit Ctx)} {first last k : UInt32} {u v : JbUnit Ctx}

/-- What is left lies between the first and the last number. -/
theorem between_of_contains_erase (hfirst : OrderedMap.first? buf = some (first, u))
    (hlast : OrderedMap.last? buf = some (last, v)) (hk : (buf.erase first).contains k = true) :
    first < k ∧ k ≤ last := by
  obtain ⟨hne, hin⟩ := OrderedMap.contains_erase_iff.1 hk
  obtain ⟨w, hw⟩ := OrderedMap.contains_iff.1 hin
  have hle := OrderedMap.first?_le hfirst hw
  have hle' := OrderedMap.le_last? hlast hw
  rw [Std.isLE_compare, UInt32.le_iff_toNat_le] at hle hle'
  rw [UInt32.lt_iff_toNat_lt, UInt32.le_iff_toNat_le]
  have hne' : k.toNat ≠ first.toNat := fun h => hne (UInt32.toNat_inj.1 h)
  omega

theorem exists_contains (h : buf.size ≠ 0) : ∃ k, buf.contains k = true := by
  cases hf : OrderedMap.first? buf with
  | none => exact absurd (OrderedMap.size_of_first?_eq_none hf) h
  | some kv => exact ⟨kv.1, OrderedMap.contains_of_getElem? (OrderedMap.getElem?_first? hf)⟩

/-- The first number is the oldest of all if it is older than the last one. -/
theorem first_oldest_iff (hfirst : OrderedMap.first? buf = some (first, u))
    (hlast : OrderedMap.last? buf = some (last, v)) (hsize : 2 ≤ buf.size) :
    (∀ k, (buf.erase first).contains k = true → seqLt first k = true) ↔
      seqLt first last = true := by
  have herase := OrderedMap.size_erase_add_one (OrderedMap.getElem?_first? hfirst)
  obtain ⟨k₀, hk₀⟩ := @exists_contains _ (buf.erase first) (by omega)
  obtain ⟨hlt₀, hle₀⟩ := between_of_contains_erase hfirst hlast hk₀
  have hlt : first < last := UInt32.lt_of_lt_of_le hlt₀ hle₀
  constructor
  · intro h
    apply h last
    exact OrderedMap.contains_erase_iff.2 ⟨fun heq => UInt32.lt_irrefl _ (heq ▸ hlt),
      OrderedMap.contains_of_getElem? (OrderedMap.getElem?_last? hlast)⟩
  · intro h k hk
    obtain ⟨hltk, hlek⟩ := between_of_contains_erase hfirst hlast hk
    rw [seqLt_iff_of_lt hltk]
    rw [seqLt_iff_of_lt hlt] at h
    rw [UInt32.le_iff_toNat_le] at hlek
    omega

end Front

/-- **Which unit is evicted.** The unit with the smallest number is; it is the oldest one if and
only if it is older than the one with the largest number, which is so on one side of the wrap. -/
theorem evicts_oldest_iff (hsize : jb.buf.size ≤ jb.maxUnits) (hpos : 0 < jb.maxUnits)
    {seq : UInt32} (ha : jb.accepts seq = true) (hroom : ¬ jb.RoomFor seq) (genUs now : Int)
    (data : Option Ctx) {first last : UInt32} {u v : JbUnit Ctx}
    (hfirst : OrderedMap.first? (jb.stored seq genUs data now).buf = some (first, u))
    (hlast : OrderedMap.last? (jb.stored seq genUs data now).buf = some (last, v)) :
    (∀ k, k ∈ charges jb (.push seq genUs data now) ↔ k = first) ∧
      (jb.EvictsOldest (.push seq genUs data now) ↔ seqLt first last = true) := by
  have hfull : (jb.stored seq genUs data now).buf.size = jb.maxUnits + 1 := by
    have hstored := size_stored jb seq genUs now data
    have hover : ¬ jb.buf.size + (if jb.buf.contains seq then 0 else 1) ≤ jb.maxUnits :=
      fun h => hroom fun _ => h
    split_ifs at hstored hover <;> omega
  have hbuf : (jb.push seq genUs data now).1.buf = (jb.stored seq genUs data now).buf.erase first :=
    (push_buf jb ha).trans (evictLoop_of_succ hfull hfirst)
  have hmem : ∀ k, k ∈ charges jb (.push seq genUs data now) ↔ k = first := by
    intro k
    rw [charges, if_pos ha, hbuf, List.mem_filter, TreeMap.mem_keys, Bool.not_eq_true',
      Bool.eq_false_iff, ne_eq, OrderedMap.contains_erase_iff, ← TreeMap.contains_iff_mem]
    constructor
    · intro h
      by_contra hne
      exact h.2 ⟨hne, h.1⟩
    · rintro rfl
      exact ⟨OrderedMap.contains_of_getElem? (OrderedMap.getElem?_first? hfirst), fun h => h.1 rfl⟩
  refine ⟨hmem, ?_⟩
  rw [← first_oldest_iff hfirst hlast (by omega), ← hbuf]
  constructor
  · intro h
    exact (h first ((hmem first).2 rfl)).2
  · intro h k hk
    obtain rfl := (hmem k).1 hk
    refine ⟨exists_contains ?_, h⟩
    have herase := OrderedMap.size_erase_add_one (OrderedMap.getElem?_first? hfirst)
    show (jb.push seq genUs data now).1.buf.size ≠ 0
    rw [hbuf]
    omega

/-- All is well after a push. -/
def Sound (jb : JitterBuffer Ctx) : JbInput Ctx → Prop
  | .push seq genUs data now =>
      let jb' := (jb.push seq genUs data now).1
      jb'.buf.size ≤ jb'.maxUnits ∧ jb'.totalBuffered = jb'.buf.size ∧
        jb.EvictsOldest (.push seq genUs data now)
  | _ => True

/-- The slot for `seq`, if there is one, holds a unit. -/
def SlotFilled (jb : JitterBuffer Ctx) (seq : UInt32) : Prop :=
  jb.accepts seq = true → jb.buf.contains seq = true → (jb.buf[seq]?.getD {}).data.isSome = true

instance (jb : JitterBuffer Ctx) (seq : UInt32) : Decidable (jb.SlotFilled seq) :=
  inferInstanceAs (Decidable (_ → _ → _))

/-- A push neither evicts a unit nor fills an empty slot. -/
def Counts (jb : JitterBuffer Ctx) : JbInput Ctx → Prop
  | .push seq _ _ _ => jb.RoomFor seq ∧ jb.SlotFilled seq
  | _ => True

instance (jb : JitterBuffer Ctx) : DecidablePred (Counts jb)
  | .push seq _ _ _ => inferInstanceAs (Decidable (jb.RoomFor seq ∧ jb.SlotFilled seq))
  | .pop _ | .setRttMs _ => inferInstanceAs (Decidable True)

theorem evictions_eq_zero_iff {seq : UInt32} {genUs now : Int} {data : Option Ctx} :
    evictions jb (.push seq genUs data now) = 0 ↔ jb.RoomFor seq := by
  rw [evictions_eq_surplus, surplus, RoomFor]
  cases jb.accepts seq with
  | false => simp
  | true => simp [Nat.sub_eq_zero_iff_le]

theorem refills_eq_zero_iff {seq : UInt32} {genUs now : Int} {data : Option Ctx} :
    refills jb (.push seq genUs data now) = 0 ↔ jb.SlotFilled seq := by
  simp only [refills, SlotFilled, ← Option.not_isSome, Bool.and_eq_true, Bool.not_eq_true']
  split_ifs with h
  · simp [h]
  · simpa [Option.isSome_iff_ne_none] using h

theorem counts_iff (i : JbInput Ctx) : Counts jb i ↔ evictions jb i + refills jb i = 0 := by
  cases i with
  | push seq genUs data now =>
    rw [Nat.add_eq_zero_iff, evictions_eq_zero_iff, refills_eq_zero_iff]
    exact Iff.rfl
  | _ => exact ⟨fun _ => rfl, fun _ => trivial⟩

theorem evictsOldest_of_room {seq : UInt32} (h : jb.RoomFor seq) (genUs now : Int)
    (data : Option Ctx) : jb.EvictsOldest (.push seq genUs data now) := by
  intro k hk
  rw [charges_push_of_room h genUs now data] at hk
  cases hk

theorem along_sound_iff (htotal : jb.totalBuffered = jb.buf.size)
    (hsize : jb.buf.size ≤ jb.maxUnits) (is : List (JbInput Ctx)) :
    Runs.Along step Sound jb is ↔ Runs.Along step Counts jb is := by
  induction is generalizing jb with
  | nil => exact Iff.rfl
  | cons i is ih =>
    have hstep := totalBuffered_step jb htotal.ge i
    have hsize' := size_step_le jb hsize i
    have hhead : Sound jb i ↔ Counts jb i := by
      cases i with
      | push seq genUs data now =>
        constructor
        · intro h
          have htotal' : (step jb (.push seq genUs data now)).1.totalBuffered =
            (step jb (.push seq genUs data now)).1.buf.size := h.2.1
          rw [counts_iff]
          omega
        · intro h
          have hzero := (counts_iff jb (.push seq genUs data now)).1 h
          have htotal' : (step jb (.push seq genUs data now)).1.totalBuffered =
            (step jb (.push seq genUs data now)).1.buf.size := by omega
          exact ⟨hsize', htotal', evictsOldest_of_room jb h.1 genUs now data⟩
      | _ => exact Iff.rfl
    rw [Runs.along_cons, Runs.along_cons, hhead]
    refine and_congr_right fun hcounts => ih _ ?_ hsize'
    rw [counts_iff] at hcounts
    omega

/-- **All is well** after every push of a run if and only if no push evicts or refills. -/
theorem sound_iff (maxUnits : ℕ) (onMissing : Bool) (nackIntervalUs : Int)
    (is : List (JbInput Ctx)) :
    Runs.Along step Sound (create maxUnits onMissing nackIntervalUs) is ↔
      Runs.Along step Counts (create maxUnits onMissing nackIntervalUs) is :=
  along_sound_iff _ rfl (Nat.zero_le _) is

/-- In a buffer for two units, unit `2 ^ 32 - 2` and its successor are followed by unit 0. -/
def wrapRun : List (JbInput ℕ) :=
  [.push 0xFFFFFFFE 0 (some 0) 1000000, .push 0xFFFFFFFF 0 (some 1) 1000001,
    .push 0 0 (some 2) 1000002]

/-- The push of unit 0 evicts unit 0, the newest one, and two units are counted as three. -/
theorem evicts_newest :
    WithinSpread 0xFFFFFFFE wrapRun ∧ ¬ Runs.Along step Sound (create 2 true 10000) wrapRun ∧
      charges (Runs.before step (create 2 true 10000) wrapRun 2) (.push 0 0 (some 2) 1000002) =
        [0] ∧
      (Runs.after step (create 2 true 10000) wrapRun).totalBuffered = 3 ∧
      (Runs.after step (create 2 true 10000) wrapRun).buf.size = 2 := by
  refine ⟨?_, ?_, by decide +kernel, by decide +kernel, by decide +kernel⟩
  · intro seq genUs data now h
    simp only [wrapRun, List.mem_cons, List.not_mem_nil, or_false, JbInput.push.injEq] at h
    rcases h with ⟨rfl, -⟩ | ⟨rfl, -⟩ | ⟨rfl, -⟩ <;> decide
  · rw [along_sound_iff _ rfl (Nat.zero_le _)]
    decide +kernel

end Rtstream.JitterBuffer
