import Rtstream.JitterBufferLoss

/-!
# What becomes of the units

A unit that is pushed may be ignored, because one of its number is there already; it may be
evicted, popped, or still be there. The buffer never replaces a unit, so what is popped is what the
first push of its number brought.

Calls are counted from zero. `Files` says that a call put a unit into the buffer and that it stayed
there until another call.

* `files_of_buffered`: every unit in the buffer was put there by a push.
* `units_conserved`: every unit popped is the one that the earliest accepted push of its number
  brought since the number last left the buffer, no push is delivered twice, and the books balance.
-/

namespace Rtstream.JitterBuffer

open Std (TreeMap)

variable {Ctx : Type}

/-- The pushes carry data. -/
def WithData (is : List (JbInput Ctx)) : Prop :=
  ∀ seq genUs data now, JbInput.push seq genUs data now ∈ is → data.isSome = true

/-- No slot is empty. -/
def Filled (jb : JitterBuffer Ctx) : Prop :=
  ∀ (k : UInt32) (u : JbUnit Ctx), jb.buf[k]? = some u → u.data.isSome = true

/-- Call `j` put `u` into the buffer, where its number was missing, and it is there until call
`n`. -/
structure Files (jb : JitterBuffer Ctx) (is : List (JbInput Ctx)) (j n : ℕ) (u : JbUnit Ctx) :
    Prop where
  earlier : j < n
  pushed : is[j]? = some (.push u.seq u.genUs u.data u.firstRecvUs)
  accepted : (Runs.before step jb is j).accepts u.seq = true
  absent : (Runs.before step jb is j).buf[u.seq]? = none
  stays : ∀ m, j < m → m ≤ n → (Runs.before step jb is m).buf[u.seq]? = some u

/-! ## One call -/

variable {jb : JitterBuffer Ctx}

/-- A push fills a slot only if there is none. -/
theorem getElem?_push_of_filled (hfilled : jb.Filled) {seq k : UInt32} {genUs now : Int}
    {data : Option Ctx} {u : JbUnit Ctx}
    (h : (jb.push seq genUs data now).1.buf[k]? = some u) :
    jb.buf[k]? = some u ∨ jb.buf[k]? = none ∧ jb.accepts seq = true ∧ k = seq ∧
      u = { seq := seq, genUs := genUs, firstRecvUs := now, data := data } := by
  cases ha : jb.accepts seq with
  | false =>
    rw [push_of_rejected jb ha] at h
    exact Or.inl h
  | true =>
    rw [push_buf jb ha] at h
    have hstored := getElem?_evictLoop h
    simp only [stored, store, estimateJitter_buf, startAt_buf] at hstored
    split_ifs at hstored with hdata
    · simp only [estimateJitter_buf, startAt_buf] at hstored
      exact Or.inl hstored
    · have hnone : jb.buf[seq]? = none := by
        cases hslot : jb.buf[seq]? with
        | none => rfl
        | some v => exact absurd (hfilled seq v hslot) (by simpa [hslot] using hdata)
      simp only [TreeMap.getElem?_insert, Std.compare_eq_iff_eq] at hstored
      split_ifs at hstored with hk
      · obtain rfl := hk
        exact Or.inr ⟨hnone, rfl, rfl, (Option.some.inj hstored).symm⟩
      · exact Or.inl hstored

/-- **Where a unit comes from**: it was there before the call, or the call pushed it. -/
theorem getElem?_step (hfilled : jb.Filled) {i : JbInput Ctx} {k : UInt32} {u : JbUnit Ctx}
    (h : (step jb i).1.buf[k]? = some u) :
    jb.buf[k]? = some u ∨ jb.buf[k]? = none ∧ jb.accepts k = true ∧ u.seq = k ∧
      i = .push k u.genUs u.data u.firstRecvUs := by
  cases i with
  | push seq genUs data now =>
    rcases getElem?_push_of_filled hfilled h with h | ⟨hnone, ha, rfl, rfl⟩
    · exact Or.inl h
    · exact Or.inr ⟨hnone, ha, rfl, rfl⟩
  | pop now =>
    left
    have h : (jb.pop now).1.buf[k]? = some u := h
    rcases pop_spec jb now with ⟨-, hbuf, -⟩ | ⟨v, -, -, -, hjb⟩ | ⟨head, v, -, -, -, -, -, hjb⟩
    · rwa [hbuf] at h
    · rw [hjb, takeOut_buf, TreeMap.getElem?_erase] at h
      split_ifs at h
      exact h
    · rw [hjb, takeOut_buf, TreeMap.getElem?_erase] at h
      split_ifs at h
      exact h
  | setRttMs ms => exact Or.inl h

theorem Filled.step (hfilled : jb.Filled) {i : JbInput Ctx} (hdata : WithData [i]) :
    (JitterBuffer.step jb i).1.Filled := by
  intro k u hu
  rcases getElem?_step hfilled hu with hu | ⟨-, -, -, rfl⟩
  · exact hfilled k u hu
  · exact hdata k _ _ _ List.mem_cons_self

/-! ## The run so far -/

theorem filled_before {is : List (JbInput Ctx)} (hfilled : jb.Filled) (hdata : WithData is)
    (n : ℕ) :
    (Runs.before JitterBuffer.step jb is n).Filled := by
  have halong : Runs.Along JitterBuffer.step (fun _ i => WithData [i]) jb (is.take n) := by
    apply Runs.along_of_forall
    intro i hi _ seq genUs data now h
    obtain rfl := List.mem_singleton.1 h
    exact hdata seq genUs data now (List.mem_of_mem_take hi)
  exact halong.invariant (fun _ _ hf hd => hf.step hd) hfilled

/-- **Every unit in the buffer was put there by a push**, and has been there since. -/
theorem files_of_buffered {is : List (JbInput Ctx)} (hempty : ∀ k : UInt32, jb.buf[k]? = none)
    (hdata : WithData is) {n : ℕ} (hn : n ≤ is.length) {k : UInt32} {u : JbUnit Ctx}
    (hu : (Runs.before JitterBuffer.step jb is n).buf[k]? = some u) :
    u.seq = k ∧ ∃ j, Files jb is j n u := by
  have hfilled : jb.Filled := fun k u hk => by rw [hempty k] at hk; cases hk
  induction n generalizing k u with
  | zero =>
    rw [Runs.before_zero, hempty k] at hu
    cases hu
  | succ n ih =>
    have hi : is[n]? = some is[n] := List.getElem?_eq_getElem hn
    have hu' := hu
    rw [Runs.before_succ hi] at hu'
    rcases getElem?_step (filled_before hfilled hdata n) hu' with hold | ⟨hnone, ha, rfl, hpush⟩
    · -- The unit was there before call `n`: it stays one call longer.
      obtain ⟨rfl, j, hj⟩ := ih (Nat.le_of_succ_le hn) hold
      refine ⟨rfl, j, hj.earlier.trans (Nat.lt_succ_self n), hj.pushed, hj.accepted, hj.absent, ?_⟩
      intro m hjm hmn
      rcases Nat.lt_or_eq_of_le hmn with hlt | rfl
      · exact hj.stays m hjm (Nat.le_of_lt_succ hlt)
      · exact hu
    · -- Call `n` is the push.
      refine ⟨rfl, n, Nat.lt_succ_self n, by rw [hi, hpush], ha, hnone, ?_⟩
      intro m hnm hmn
      obtain rfl : m = n + 1 := by omega
      exact hu

/-! ## Evicting -/

/-- With fuel for all of it, the loop evicts until the buffer fits. -/
theorem size_evictLoop {maxUnits fuel : ℕ} {buf : TreeMap UInt32 (JbUnit Ctx)}
    (hfuel : buf.size ≤ fuel) :
    (evictLoop maxUnits fuel buf).1.size = min buf.size maxUnits := by
  induction fuel generalizing buf with
  | zero =>
    rw [Nat.le_zero.1 hfuel, Nat.zero_min]
    exact Nat.le_zero.1 hfuel
  | succ fuel ih =>
    simp only [evictLoop]
    split_ifs with hlt
    · cases hf : OrderedMap.first? buf with
      | none =>
        have hzero := OrderedMap.size_of_first?_eq_none hf
        omega
      | some kv =>
        have herase := OrderedMap.size_erase_add_one (OrderedMap.getElem?_first? hf)
        have hrest : (evictLoop maxUnits fuel (buf.erase kv.1)).1.size =
            min (buf.erase kv.1).size maxUnits := ih (by omega)
        simp only
        omega
    · exact (min_eq_left (Nat.not_lt.1 hlt)).symm

/-- **What a push evicts**: the units that do not fit, and each of them is counted as lost. -/
theorem count_lost_push {seq : UInt32} (ha : jb.accepts seq = true) (genUs now : Int)
    (data : Option Ctx) :
    (jb.push seq genUs data now).2.2.count (.lost 1) =
        (jb.stored seq genUs data now).buf.size - jb.maxUnits ∧
      (jb.push seq genUs data now).1.buf.size =
        min (jb.stored seq genUs data now).buf.size jb.maxUnits := by
  have hmax : (jb.stored seq genUs data now).maxUnits = jb.maxUnits := by simp [stored]
  obtain ⟨n, hevs, hsize⟩ := evictLoop_events jb.maxUnits
    (jb.stored seq genUs data now).buf.size (jb.stored seq genUs data now).buf
  have hleft : (evictLoop jb.maxUnits (jb.stored seq genUs data now).buf.size
      (jb.stored seq genUs data now).buf).1.size =
        min (jb.stored seq genUs data now).buf.size jb.maxUnits := size_evictLoop le_rfl
  have hcount : (jb.push seq genUs data now).2.2.count (.lost 1) = n := by
    rw [push_of_accepted jb ha]
    simp only [evictOverflow, detectMissing_buf, detectMissing_maxUnits, hmax, List.count_append,
      List.count_eq_zero.2 (lost_not_mem_detectMissing _ seq now 1), hevs,
      List.count_replicate_self, Nat.zero_add]
  rw [hcount, push_buf jb ha]
  exact ⟨by omega, hleft⟩

/-! ## Counting -/

/-- The push is accepted. -/
def acceptedPushes (jb : JitterBuffer Ctx) : JbInput Ctx → ℕ
  | .push seq genUs data now => if (jb.push seq genUs data now).2.1 then 1 else 0
  | _ => 0

/-- The push is accepted, and ignored because a unit of its number is there. -/
def duplicates (jb : JitterBuffer Ctx) : JbInput Ctx → ℕ
  | .push seq genUs data now =>
      if (jb.push seq genUs data now).2.1 && jb.buf.contains seq then 1 else 0
  | _ => 0

/-- The turns of the loop in `evict_overflow_locked`, each of which counts one lost. -/
def evictions (jb : JitterBuffer Ctx) : JbInput Ctx → ℕ
  | .push seq genUs data now => (jb.push seq genUs data now).2.2.count (.lost 1)
  | _ => 0

/-- The unit popped. -/
def pops (jb : JitterBuffer Ctx) : JbInput Ctx → ℕ
  | .pop now => (jb.pop now).2.1.toList.length
  | _ => 0

/-- How many units the push makes too many. -/
def surplus (jb : JitterBuffer Ctx) : JbInput Ctx → ℕ
  | .push seq _ _ _ =>
      if jb.accepts seq then jb.buf.size + (if jb.buf.contains seq then 0 else 1) - jb.maxUnits
      else 0
  | _ => 0

theorem evictions_eq_surplus (jb : JitterBuffer Ctx) (i : JbInput Ctx) :
    evictions jb i = surplus jb i := by
  cases i with
  | push seq genUs data now =>
    simp only [evictions, surplus]
    cases ha : jb.accepts seq with
    | false => simp [push_of_rejected jb ha]
    | true =>
      rw [if_pos rfl, ← size_stored jb seq genUs now data]
      exact (count_lost_push ha genUs now data).1
  | pop now => rfl
  | setRttMs ms => rfl

/-- **One call**: what it accepts is popped, evicted or ignored, or makes the buffer larger. -/
theorem size_step (jb : JitterBuffer Ctx) (i : JbInput Ctx) :
    jb.buf.size + acceptedPushes jb i =
      pops jb i + evictions jb i + duplicates jb i + (step jb i).1.buf.size := by
  cases i with
  | push seq genUs data now =>
    show _ + _ = 0 + _ + _ + (jb.push seq genUs data now).1.buf.size
    simp only [acceptedPushes, evictions, duplicates, push_accepted_eq]
    cases ha : jb.accepts seq with
    | false => simp [push_of_rejected jb ha]
    | true =>
      obtain ⟨hcount, hsize⟩ := count_lost_push ha genUs now data
      have hstored := size_stored jb seq genUs now data
      simp only [Bool.true_and, if_true] at hstored ⊢
      split_ifs at hstored ⊢ <;> omega
  | pop now =>
    show jb.buf.size + 0 = (jb.pop now).2.1.toList.length + 0 + 0 + (jb.pop now).1.buf.size
    rcases pop_spec jb now with ⟨hnone, hbuf, -⟩ | ⟨u, -, hu, hsome, hjb⟩ |
        ⟨head, u, -, -, -, hf, hsome, hjb⟩
    · rw [hnone, hbuf]
      exact (Nat.zero_add _).symm
    · have hsize := OrderedMap.size_erase_add_one hu
      rw [hsome, hjb, takeOut_buf, Option.toList_some, List.length_singleton]
      omega
    · have hsize := OrderedMap.size_erase_add_one (OrderedMap.getElem?_first? hf)
      rw [hsome, hjb, takeOut_buf, Option.toList_some, List.length_singleton]
      omega
  | setRttMs ms => exact (Nat.zero_add _).symm

/-! ## Runs -/

/-- The pop that is call `n` hands out the unit that call `j` pushed. -/
def Delivers (jb : JitterBuffer Ctx) (is : List (JbInput Ctx)) (j n : ℕ) (u : JbUnit Ctx) : Prop :=
  Files jb is j n u ∧ ∃ now, is[n]? = some (.pop now) ∧
    ((Runs.before step jb is n).pop now).2.1 = some u

theorem pop_some {now : Int} {u : JbUnit Ctx} (hk : jb.Keyed) (h : (jb.pop now).2.1 = some u) :
    jb.buf[u.seq]? = some u ∧ (jb.pop now).1.buf[u.seq]? = none := by
  rcases pop_spec jb now with ⟨hnone, -⟩ | ⟨v, -, hv, hsome, hjb⟩ |
    ⟨head, v, -, -, -, hf, hsome, hjb⟩
  · rw [hnone] at h
    cases h
  · obtain rfl : v = u := Option.some.inj (hsome.symm.trans h)
    rw [hjb, takeOut_buf, hk _ v hv]
    exact ⟨hv, TreeMap.getElem?_erase_self⟩
  · obtain rfl : v = u := Option.some.inj (hsome.symm.trans h)
    have hv := OrderedMap.getElem?_first? hf
    rw [hjb, takeOut_buf, hk _ v hv]
    exact ⟨hv, TreeMap.getElem?_erase_self⟩

theorem keyed_before {is : List (JbInput Ctx)} (hk : jb.Keyed) (n : ℕ) :
    (Runs.before JitterBuffer.step jb is n).Keyed :=
  Runs.invariant (I := Keyed) (fun _ i hk => hk.step i) hk (is.take n)

/-- A push is not delivered later than it has been delivered. -/
theorem Delivers.le {is : List (JbInput Ctx)} {j n n' : ℕ} {u u' : JbUnit Ctx} (hk : jb.Keyed)
    (h : Delivers jb is j n u) (h' : Delivers jb is j n' u') : n' ≤ n := by
  obtain ⟨hfiles, now, hpop, hsome⟩ := h
  obtain ⟨hfiles', -⟩ := h'
  by_contra hlt
  -- Both units carry the number that call `j` pushed. After call `n` it is not there.
  have hseq : u'.seq = u.seq := by
    have hpush := hfiles'.pushed.symm.trans hfiles.pushed
    injection hpush with hpush
    injection hpush
  have hgone := (pop_some (keyed_before hk n) hsome).2
  have hstays := hfiles'.stays (n + 1) (hfiles.earlier.trans (Nat.lt_succ_self n)) (by omega)
  rw [Runs.before_succ hpop, hseq] at hstays
  exact absurd (hgone.symm.trans hstays) (by simp)

/-- **Units are conserved.** Every unit popped is the one that the earliest accepted push of its
number brought since the number was last missing from the buffer; no push is delivered twice;
a push evicts the units that it makes too many, and no other call evicts any; and every accepted
push was popped, is still there, was evicted, or was ignored. -/
theorem units_conserved (maxUnits : ℕ) (onMissing : Bool) (nackIntervalUs : Int)
    (is : List (JbInput Ctx)) (hdata : WithData is) :
    let fresh : JitterBuffer Ctx := create maxUnits onMissing nackIntervalUs
    (∀ n now u, is[n]? = some (.pop now) →
      ((Runs.before step fresh is n).pop now).2.1 = some u → ∃ j, Delivers fresh is j n u) ∧
    (∀ j n n' u u', Delivers fresh is j n u → Delivers fresh is j n' u' → n = n') ∧
    (∀ n i, is[n]? = some i →
      evictions (Runs.before step fresh is n) i = surplus (Runs.before step fresh is n) i) ∧
    Runs.total step acceptedPushes fresh is =
      Runs.total step pops fresh is + (Runs.after step fresh is).buf.size +
        Runs.total step evictions fresh is + Runs.total step duplicates fresh is := by
  intro fresh
  have hkeyed : fresh.Keyed := keyed_create maxUnits onMissing nackIntervalUs
  refine ⟨?_, ?_, fun n i _ => evictions_eq_surplus _ i, ?_⟩
  · intro n now u hi hu
    have hn : n ≤ is.length := (List.getElem?_eq_some_iff.1 hi).1.le
    have hempty : ∀ k : UInt32, fresh.buf[k]? = none := fun k => by simp [fresh, create]
    have hbuffered := (pop_some (keyed_before hkeyed n) hu).1
    obtain ⟨-, j, hj⟩ := files_of_buffered hempty hdata hn hbuffered
    exact ⟨j, hj, now, hi, hu⟩
  · intro j n n' u u' h h'
    exact Nat.le_antisymm (h'.le hkeyed h) (h.le hkeyed h')
  · have hbalance := @Runs.total_balance _ _ _ step (fun _ => True) (·.buf.size) acceptedPushes
      (fun jb i => pops jb i + evictions jb i + duplicates jb i)
      (fun jb i _ => ⟨trivial, size_step jb i⟩) fresh trivial is
    have hfresh : fresh.buf.size = 0 := rfl
    rw [Runs.total_add, Runs.total_add] at hbalance
    omega

/-- In a buffer for two, a number is pushed twice, a third number evicts the first one, and the
second one is popped. -/
theorem units_conserved_three :
    Runs.total step acceptedPushes (create 2 true 10000)
      ([.push 0 0 (some 0) 1000000, .push 0 1 (some 1) 1000001, .push 1 2 (some 2) 1000002,
        .push 2 3 (some 3) 1000003, .pop 2000000] : List (JbInput ℕ)) = 4 := by
  have hdata : WithData ([.push 0 0 (some 0) 1000000, .push 0 1 (some 1) 1000001,
      .push 1 2 (some 2) 1000002, .push 2 3 (some 3) 1000003, .pop 2000000] :
      List (JbInput ℕ)) := by
    intro seq genUs data now hmem
    simp only [List.mem_cons, JbInput.push.injEq, reduceCtorEq, List.not_mem_nil, or_false] at hmem
    rcases hmem with ⟨-, -, rfl, -⟩ | ⟨-, -, rfl, -⟩ | ⟨-, -, rfl, -⟩ | ⟨-, -, rfl, -⟩ <;> rfl
  rw [(units_conserved 2 true 10000 _ hdata).2.2.2]
  decide +kernel

end Rtstream.JitterBuffer
