import Rtstream.JitterBufferSpec

/-!
# The order in which units leave the jitter buffer

Units should leave in the order of their numbers. They do as long as a gap is never skipped
*backwards*: `pop` skips to the first unit of the map, and that unit can be behind the number
that is due. A jump of more than 1024 re-aligns `next_out_` and leaves the older units in the
buffer (`popped_out_of_order` is such a run), and around the 32-bit wrap the numerically first
unit is the newest one.

* `popped_increasing`: in every run whose skips go forward (`SkipsForward`), the popped numbers
  increase and the due number never moves back.

The proof measures numbers by their distance from the start of a window of half the number
space, where `seq_lt` is the order of the distances.
-/

namespace Rtstream.JitterBuffer

open Std (TreeMap)

variable {Ctx : Type}

/-- How far `s` is past `base`. -/
def ahead (base s : UInt32) : ℕ := (s - base).toNat

/-- All pushed numbers lie in the half of the number space that starts at `base`. -/
def WithinSpread (base : UInt32) (is : List (JbInput Ctx)) : Prop :=
  ∀ seq genUs data now, JbInput.push seq genUs data now ∈ is → ahead base seq < 2 ^ 31

/-- A pop that skips a gap does not go back: the first unit is not behind the due number. -/
def SkipsForward (jb : JitterBuffer Ctx) : JbInput Ctx → Prop
  | .pop now => jb.buf[jb.nextOut]? = none → jb.waitsForHead now = false →
      ∀ kv, OrderedMap.first? jb.buf = some kv → seqLt kv.1 jb.nextOut = false
  | _ => True

instance (jb : JitterBuffer Ctx) : DecidablePred (SkipsForward jb)
  | .push _ _ _ _ | .setRttMs _ => inferInstanceAs (Decidable True)
  | .pop now =>
    match hf : OrderedMap.first? jb.buf with
    | none => .isTrue fun _ _ kv h => by simp [hf] at h
    | some kv => decidable_of_iff
        (jb.buf[jb.nextOut]?.isNone → jb.waitsForHead now = false → seqLt kv.1 jb.nextOut = false)
        (by simp [SkipsForward, hf])

/-! ## Distances -/

theorem seqLt_iff_ahead {base a b : UInt32} (ha : ahead base a < 2 ^ 31)
    (hb : ahead base b ≤ 2 ^ 31) : seqLt a b = true ↔ ahead base a < ahead base b := by
  rw [seqLt_iff_before]
  exact Serial.before_iff (w := 31) ha hb

theorem le_ahead_of_not_seqLt {base a b : UInt32} (ha : ahead base a < 2 ^ 31)
    (hb : ahead base b ≤ 2 ^ 31) (h : seqLt a b = false) : ahead base b ≤ ahead base a := by
  by_contra hlt
  rw [(seqLt_iff_ahead ha hb).2 (Nat.lt_of_not_le hlt)] at h
  cases h

theorem ahead_succ {base a : UInt32} (ha : ahead base a < 2 ^ 31) :
    ahead base (a + 1) = ahead base a + 1 :=
  @Serial.offset_succ 31 base.toBitVec a.toBitVec
    (show ahead base a + 1 < 2 * 2 ^ 31 by omega)

/-! ## The invariant -/

/-- What holds of the buffer and of the numbers popped so far: everything lies in the window,
and everything popped lies before the due number. -/
structure Ordered (base : UInt32) (jb : JitterBuffer Ctx) (popped : List UInt32) : Prop where
  keyed : jb.Keyed
  keys : ∀ (k : UInt32) (u : JbUnit Ctx), jb.buf[k]? = some u → ahead base k < 2 ^ 31
  next : jb.started = true → ahead base jb.nextOut ≤ 2 ^ 31
  fresh : jb.started = false → popped = []
  increasing : popped.Pairwise fun a b => ahead base a < ahead base b
  window : ∀ s ∈ popped, ahead base s < 2 ^ 31
  before : ∀ s ∈ popped, ahead base s < ahead base jb.nextOut

variable {base : UInt32} {jb : JitterBuffer Ctx} {popped : List UInt32}

/-- The invariant looks at the units, the due number and nothing else. -/
theorem Ordered.congr (h : Ordered base jb popped) {jb' : JitterBuffer Ctx}
    (hbuf : jb'.buf = jb.buf) (hnext : jb'.nextOut = jb.nextOut)
    (hst : jb'.started = jb.started) : Ordered base jb' popped where
  keyed := fun k u hu => h.keyed k u (hbuf ▸ hu)
  keys := fun k u hu => h.keys k u (hbuf ▸ hu)
  next := fun hs => hnext ▸ h.next (hst ▸ hs)
  fresh := fun hs => h.fresh (hst ▸ hs)
  increasing := h.increasing
  window := h.window
  before := fun s hs => hnext ▸ h.before s hs

/-- The due number stays, or moves forward to the pushed number. -/
theorem Ordered.ahead_push_nextOut (h : Ordered base jb popped) {seq : UInt32}
    (hseq : ahead base seq < 2 ^ 31) (genUs now : Int) (data : Option Ctx)
    (ha : jb.accepts seq = true) :
    ahead base (jb.push seq genUs data now).1.nextOut ≤ 2 ^ 31 ∧
      (jb.started = true →
        ahead base jb.nextOut ≤ ahead base (jb.push seq genUs data now).1.nextOut) := by
  rw [push_nextOut jb ha]
  constructor
  · split_ifs
    · exact hseq.le
    · unfold baseOut
      split_ifs with hs
      · exact h.next hs
      · exact hseq.le
  · intro hs
    have hbase : jb.baseOut seq = jb.nextOut := by simp [baseOut, hs]
    have hlt := seqLt_baseOut jb ha
    rw [hbase] at hlt ⊢
    split_ifs
    · exact le_ahead_of_not_seqLt hseq (h.next hs) hlt
    · exact le_rfl

theorem Ordered.push (h : Ordered base jb popped) {seq : UInt32} (hseq : ahead base seq < 2 ^ 31)
    (genUs now : Int) (data : Option Ctx) :
    Ordered base (jb.push seq genUs data now).1 popped ∧
      (jb.started = true →
        ahead base jb.nextOut ≤ ahead base (jb.push seq genUs data now).1.nextOut) := by
  cases ha : jb.accepts seq with
  | false =>
    rw [push_of_rejected jb ha]
    exact ⟨h, fun _ => le_rfl⟩
  | true =>
    obtain ⟨hle, hge⟩ := h.ahead_push_nextOut hseq genUs now data ha
    refine ⟨⟨h.keyed.push seq genUs now data, ?_, fun _ => hle, ?_, h.increasing, h.window, ?_⟩,
      hge⟩
    · intro k u hu
      rcases getElem?_push jb hu with hu | ⟨rfl, -⟩
      · exact h.keys k u hu
      · exact hseq
    · intro hs
      rw [push_started jb ha] at hs
      cases hs
    · intro s hs
      cases hst : jb.started with
      | false => rw [h.fresh hst] at hs; cases hs
      | true => exact (h.before s hs).trans_le (hge hst)

theorem Ordered.takeOut (h : Ordered base jb popped) (hs : jb.started = true) {k : UInt32}
    {u : JbUnit Ctx} (hu : jb.buf[k]? = some u) (hk : ahead base jb.nextOut ≤ ahead base k)
    (now : Int) :
    Ordered base (jb.takeOut k u now) (popped ++ [u.seq]) ∧
      ahead base jb.nextOut ≤ ahead base (jb.takeOut k u now).nextOut := by
  have hseq : u.seq = k := h.keyed k u hu
  have hwin := h.keys k u hu
  have hnext : ahead base (jb.takeOut k u now).nextOut = ahead base k + 1 := by
    rw [takeOut_nextOut, hseq, ahead_succ hwin]
  have herase : ∀ {k' : UInt32} {v : JbUnit Ctx}, (jb.takeOut k u now).buf[k']? = some v →
      jb.buf[k']? = some v := fun {k' v} hv => by
    rw [takeOut_buf, TreeMap.getElem?_erase] at hv
    split_ifs at hv
    exact hv
  refine ⟨⟨fun k' v hv => h.keyed k' v (herase hv), fun k' v hv => h.keys k' v (herase hv),
    fun _ => by omega, fun hf => ?_, ?_, ?_, ?_⟩, by omega⟩
  · rw [takeOut_started, hs] at hf
    cases hf
  · rw [List.pairwise_append]
    refine ⟨h.increasing, List.pairwise_singleton _ _, ?_⟩
    intro a ha b hb
    rw [List.mem_singleton.1 hb, hseq]
    exact (h.before a ha).trans_le hk
  · intro s hs'
    rcases List.mem_append.1 hs' with hs' | hs'
    · exact h.window s hs'
    · rw [List.mem_singleton.1 hs', hseq]
      exact hwin
  · intro s hs'
    rw [hnext]
    rcases List.mem_append.1 hs' with hs' | hs'
    · have := h.before s hs'
      omega
    · rw [List.mem_singleton.1 hs', hseq]
      omega

theorem Ordered.pop (h : Ordered base jb popped) {now : Int}
    (hskip : SkipsForward jb (.pop now)) :
    Ordered base (jb.pop now).1 (popped ++ ((jb.pop now).2.1.toList.map (·.seq))) ∧
      (jb.started = true → ahead base jb.nextOut ≤ ahead base (jb.pop now).1.nextOut) := by
  rcases pop_spec jb now with
    ⟨hnone, hbuf, hnext, hst, -⟩ | ⟨u, hs, hu, hsome, hjb⟩ |
    ⟨head, u, hs, hmiss, hw, hf, hsome, hjb⟩
  · rw [hnone]
    refine ⟨?_, fun _ => hnext ▸ le_rfl⟩
    simpa using h.congr hbuf hnext hst
  · -- The head is due: the number popped is the due number.
    rw [hsome, hjb]
    obtain ⟨hord, hge⟩ := h.takeOut hs hu le_rfl now
    exact ⟨hord, fun _ => hge⟩
  · -- A gap is skipped: the first unit is not behind, by the condition on the step.
    rw [hsome, hjb]
    have hhead := OrderedMap.getElem?_first? hf
    have hfwd : seqLt head jb.nextOut = false := hskip hmiss hw (head, u) hf
    have hge := le_ahead_of_not_seqLt (h.keys head u hhead) (h.next hs) hfwd
    obtain ⟨hord, hge'⟩ := h.takeOut hs hhead hge now
    exact ⟨hord, fun _ => hge'⟩

/-! ## Runs -/

theorem poppedSeqs_append (os os' : List (JbOutput Ctx)) :
    poppedSeqs (os ++ os') = poppedSeqs os ++ poppedSeqs os' := List.filterMap_append

theorem poppedSeqs_event (evs : List JbEvent) :
    poppedSeqs (evs.map (.event : JbEvent → JbOutput Ctx)) = [] := by
  induction evs with
  | nil => rfl
  | cons e evs ih => exact ih

theorem poppedSeqs_popped (u : Option (JbUnit Ctx)) :
    poppedSeqs (u.toList.map JbOutput.popped) = u.toList.map (·.seq) := by
  cases u <;> rfl

theorem poppedSeqs_step (jb : JitterBuffer Ctx) (i : JbInput Ctx) :
    poppedSeqs (step jb i).2 =
      match i with
      | .pop now => (jb.pop now).2.1.toList.map (·.seq)
      | _ => [] := by
  cases i with
  | push seq genUs data now =>
    show poppedSeqs (.pushed seq _ :: _) = []
    simp [poppedSeqs]
  | pop now =>
    show poppedSeqs (_ ++ _) = _
    rw [poppedSeqs_append, poppedSeqs_event, List.append_nil, poppedSeqs_popped]
  | setRttMs ms => rfl

theorem Ordered.step (h : Ordered base jb popped) {i : JbInput Ctx}
    (hspread : WithinSpread base [i]) (hskip : SkipsForward jb i) :
    Ordered base (step jb i).1 (popped ++ poppedSeqs (step jb i).2) ∧
      (jb.started = true →
        ahead base jb.nextOut ≤ ahead base (JitterBuffer.step jb i).1.nextOut) := by
  rw [poppedSeqs_step]
  cases i with
  | push seq genUs data now =>
    rw [List.append_nil]
    exact h.push (hspread seq genUs data now List.mem_cons_self) genUs now data
  | pop now => exact h.pop hskip
  | setRttMs ms =>
    rw [List.append_nil]
    exact ⟨h.congr (setRttMs_buf jb ms) (setRttMs_nextOut jb ms) (setRttMs_started jb ms),
      fun _ => (congrArg (ahead base) (setRttMs_nextOut jb ms)).ge⟩

theorem step_started (hs : jb.started = true) (i : JbInput Ctx) :
    (JitterBuffer.step jb i).1.started = true := by
  cases i with
  | push seq genUs data now =>
    show (jb.push seq genUs data now).1.started = true
    cases ha : jb.accepts seq with
    | false => rw [push_of_rejected jb ha]; exact hs
    | true => exact push_started jb ha
  | pop now =>
    show (jb.pop now).1.started = true
    rcases pop_spec jb now with ⟨-, -, -, hst, -⟩ | ⟨u, -, -, -, hjb⟩ |
        ⟨head, u, -, -, -, -, -, hjb⟩
    · rw [hst, hs]
    · rw [hjb, takeOut_started, hs]
    · rw [hjb, takeOut_started, hs]
  | setRttMs ms => exact hs

theorem Ordered.run {is : List (JbInput Ctx)} (h : Ordered base jb popped)
    (hspread : WithinSpread base is) (hskip : Runs.Along JitterBuffer.step SkipsForward jb is) :
    Ordered base (Runs.after JitterBuffer.step jb is)
      (popped ++ poppedSeqs (Runs.trace JitterBuffer.step jb is)) ∧
    (jb.started = true →
      ahead base jb.nextOut ≤ ahead base (Runs.after JitterBuffer.step jb is).nextOut) := by
  induction is generalizing jb popped with
  | nil => exact ⟨by simpa [poppedSeqs] using h, fun _ => le_rfl⟩
  | cons i is ih =>
    obtain ⟨hi, his⟩ := hskip
    obtain ⟨hord, hge⟩ := h.step (fun s g d t hm => hspread s g d t (by simp_all)) hi
    obtain ⟨hord', hge'⟩ := ih hord (fun s g d t hm => hspread s g d t (by simp [hm])) his
    refine ⟨?_, fun hs => (hge hs).trans (hge' ?_)⟩
    · rw [Runs.after_cons, Runs.trace_cons, poppedSeqs_append, ← List.append_assoc]
      exact hord'
    · exact step_started hs i

theorem ordered_create (base : UInt32) (maxUnits : ℕ) (onMissing : Bool) (nackIntervalUs : Int) :
    Ordered base (create maxUnits onMissing nackIntervalUs : JitterBuffer Ctx) [] where
  keyed := fun k u hu => by simp [create] at hu
  keys := fun k u hu => by simp [create] at hu
  next := fun hs => by simp [create] at hs
  fresh := fun _ => rfl
  increasing := List.Pairwise.nil
  window := by simp
  before := by simp

/-- **Units leave in order.** In every run whose skips go forward, the numbers of the units
popped increase in the wrap-safe order, none is popped twice, and the due number never moves
back. -/
theorem popped_increasing (maxUnits : ℕ) (onMissing : Bool) (nackIntervalUs : Int)
    (base : UInt32) (is : List (JbInput Ctx)) (hspread : WithinSpread base is)
    (hskip : Runs.Along JitterBuffer.step SkipsForward
      (create maxUnits onMissing nackIntervalUs) is) :
    let fresh : JitterBuffer Ctx := create maxUnits onMissing nackIntervalUs
    let popped := poppedSeqs (Runs.trace JitterBuffer.step fresh is)
    popped.Pairwise (fun a b => seqLt a b = true) ∧ popped.Nodup ∧
      ∀ is₁ is₂, is = is₁ ++ is₂ → (Runs.after JitterBuffer.step fresh is₁).started = true →
        ahead base (Runs.after JitterBuffer.step fresh is₁).nextOut ≤
          ahead base (Runs.after JitterBuffer.step fresh is).nextOut := by
  intro fresh popped
  have hord : Ordered base fresh [] := ordered_create base maxUnits onMissing nackIntervalUs
  have hrun := (hord.run hspread hskip).1
  rw [List.nil_append] at hrun
  have hpair : popped.Pairwise fun a b => seqLt a b = true :=
    hrun.increasing.imp_of_mem fun {a b} ha hb hab =>
      (seqLt_iff_ahead (hrun.window a ha) (hrun.window b hb).le).2 hab
  refine ⟨hpair, hrun.increasing.imp fun {a b} hab => ?_, ?_⟩
  · rintro rfl
    exact lt_irrefl _ hab
  · rintro is₁ is₂ rfl hs
    obtain ⟨h₁, h₂⟩ := (Runs.along_append fresh is₁ is₂).1 hskip
    have hord₁ := (hord.run (fun s g d t hm => hspread s g d t (by simp [hm])) h₁).1
    rw [Runs.after_append]
    exact (hord₁.run (fun s g d t hm => hspread s g d t (by simp [hm])) h₂).2 hs

/-- Number 1 is skipped, after the wait for it. -/
theorem popped_increasing_skip :
    (poppedSeqs (Runs.trace JitterBuffer.step (create 512 true 10000)
      ([.push 0 0 (some 0) 1000000, .push 2 0 (some 1) 1000001, .pop 2000000, .pop 3000000] :
        List (JbInput ℕ)))).Pairwise (fun a b => seqLt a b = true) := by
  refine (popped_increasing 512 true 10000 0 _ ?_ (by decide +kernel)).1
  intro seq genUs data now h
  simp only [List.mem_cons, List.not_mem_nil, or_false, reduceCtorEq, JbInput.push.injEq] at h
  rcases h with ⟨rfl, -⟩ | ⟨rfl, -⟩ <;> decide

/-- A jump of more than 1024 over a buffered unit, and two pops. -/
def realignRun : List (JbInput ℕ) :=
  [.push 0 0 (some 0) 1000000, .push 2000 0 (some 1) 1000001, .pop 2000000, .pop 3000000]

/-- The unit that the jump left behind is popped after the one that jumped. -/
theorem popped_out_of_order :
    WithinSpread 0 realignRun ∧ (clocks realignRun).Pairwise (· ≤ ·) ∧
      ¬ (poppedSeqs (Runs.trace JitterBuffer.step (create 512 true 10000)
        realignRun)).Pairwise (fun a b => seqLt a b = true) := by
  refine ⟨?_, by decide, by decide +kernel⟩
  intro seq genUs data now h
  simp only [realignRun, List.mem_cons, List.not_mem_nil, or_false, reduceCtorEq,
    JbInput.push.injEq] at h
  rcases h with ⟨rfl, -⟩ | ⟨rfl, -⟩ <;> decide

end Rtstream.JitterBuffer
