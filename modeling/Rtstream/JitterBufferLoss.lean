import Rtstream.JitterBufferOrder

/-!
# What the jitter buffer counts as lost

The buffer adds to `net_lost` in two places: a pop that skips a gap adds the distance it skips,
and an eviction adds one. A jump of more than 1024 adds nothing. Every number that `next_out_` has
moved past should have been counted once if it was never popped, and not at all if it was.

A ledger (`Account`) goes with the run: how far `next_out_` has come from the first accepted
number, and which numbers were counted, popped and jumped over, as distances from there.

* `counted_once_iff`: in every run without evictions whose skips go forward, each number that was
  passed has been counted, popped or jumped over, exactly once. So the law holds if and only if
  the run has no jump.
* `miscounted`: an evicted number is counted again when it is skipped, numbers that are jumped over
  are not counted, and a skip backwards counts `2 ^ 32` too many.
-/

namespace Rtstream.JitterBuffer

open Std (TreeMap)

variable {Ctx : Type}

/-! ## The numbers a call counts -/

/-- What the calls add to `net_lost`. -/
def netLost (os : List (JbOutput Ctx)) : ℕ :=
  (os.map fun
    | .event (.lost n) => n.toNat
    | _ => 0).sum

/-- `n` numbers, from `k` on. -/
def numbersFrom (k : UInt32) (n : ℕ) : List UInt32 := (List.range n).map fun i => k + UInt32.ofNat i

/-- The numbers a call counts as lost: those of the units it evicts, and those between the due
number and the one it skips to. -/
def charges (jb : JitterBuffer Ctx) : JbInput Ctx → List UInt32
  | .push seq genUs data now =>
      if jb.accepts seq then
        (jb.stored seq genUs data now).buf.keys.filter fun k =>
          !(jb.push seq genUs data now).1.buf.contains k
      else []
  | .pop now => (jb.pop now).2.2.flatMap fun
      | .lost n => numbersFrom jb.nextOut n.toNat
      | _ => []
  | .setRttMs _ => []

/-- The push of `seq` is a jump, and re-aligns `next_out_`. -/
def Jumps (jb : JitterBuffer Ctx) (seq : UInt32) : Prop :=
  jb.accepts seq = true ∧ seqDelta seq (jb.baseOut seq) > 1024

instance (jb : JitterBuffer Ctx) (seq : UInt32) : Decidable (jb.Jumps seq) :=
  inferInstanceAs (Decidable (_ ∧ _))

/-- The numbers a call jumps over. -/
def jumpedOver (jb : JitterBuffer Ctx) : JbInput Ctx → List UInt32
  | .push seq _ _ _ =>
      if jb.Jumps seq then
        numbersFrom (jb.baseOut seq) (seqDelta seq (jb.baseOut seq)).toNat
      else []
  | _ => []

theorem netLost_append (os os' : List (JbOutput Ctx)) :
    netLost (os ++ os') = netLost os + netLost os' := by simp [netLost]

theorem netLost_of_not_lost {evs : List JbEvent} (h : ∀ n, .lost n ∉ evs) :
    netLost (evs.map (.event : JbEvent → JbOutput Ctx)) = 0 := by
  induction evs with
  | nil => rfl
  | cons e evs ih =>
    have hrest := ih fun n hn => h n (List.mem_cons_of_mem e hn)
    rw [List.map_cons, ← List.singleton_append, netLost_append, hrest]
    cases e with
    | lost n => exact absurd List.mem_cons_self (h n)
    | _ => rfl

theorem evictLoop_events (maxUnits fuel : ℕ) (buf : TreeMap UInt32 (JbUnit Ctx)) :
    ∃ n, (evictLoop maxUnits fuel buf).2 = List.replicate n (.lost 1) ∧
      (evictLoop maxUnits fuel buf).1.size + n = buf.size := by
  induction fuel generalizing buf with
  | zero => exact ⟨0, rfl, rfl⟩
  | succ fuel ih =>
    simp only [evictLoop]
    split_ifs
    · cases hf : OrderedMap.first? buf with
      | none => exact ⟨0, rfl, rfl⟩
      | some kv =>
        obtain ⟨n, hevs, hsize⟩ := ih (buf.erase kv.1)
        have herase := OrderedMap.size_erase_add_one (OrderedMap.getElem?_first? hf)
        exact ⟨n + 1, by simp [hevs, List.replicate_succ], by simp only; omega⟩
    · exact ⟨0, rfl, rfl⟩

/-- A push counts one for each unit that is not there afterwards. -/
theorem netLost_push (jb : JitterBuffer Ctx) {seq : UInt32} (genUs now : Int) (data : Option Ctx)
    (ha : jb.accepts seq = true) :
    (jb.push seq genUs data now).1.buf.size + netLost ((jb.push seq genUs data now).2.2.map
      (.event : JbEvent → JbOutput Ctx)) = (jb.stored seq genUs data now).buf.size := by
  have hmax : (jb.stored seq genUs data now).maxUnits = jb.maxUnits := by simp [stored]
  obtain ⟨n, hevs, hsize⟩ := evictLoop_events jb.maxUnits
    (jb.stored seq genUs data now).buf.size (jb.stored seq genUs data now).buf
  have hcount : netLost ((jb.push seq genUs data now).2.2.map
      (.event : JbEvent → JbOutput Ctx)) = n := by
    rw [push_of_accepted jb ha]
    simp only [evictOverflow, detectMissing_buf, detectMissing_maxUnits, hmax, List.map_append,
      netLost_append, netLost_of_not_lost (lost_not_mem_detectMissing _ seq now), hevs, zero_add]
    simp [netLost]
  rw [hcount, push_buf jb ha, hsize]

theorem netLost_pop (jb : JitterBuffer Ctx) (evs : List JbEvent) :
    netLost (evs.map (.event : JbEvent → JbOutput Ctx)) = (evs.flatMap fun
      | .lost n => numbersFrom jb.nextOut n.toNat
      | _ => []).length := by
  induction evs with
  | nil => rfl
  | cons e evs ih =>
    rw [List.map_cons, ← List.singleton_append, netLost_append, ih, List.flatMap_cons,
      List.length_append]
    cases e <;> simp [netLost, numbersFrom]

theorem netLost_step (jb : JitterBuffer Ctx) (i : JbInput Ctx) :
    netLost (step jb i).2 = (charges jb i).length := by
  cases i with
  | push seq genUs data now =>
    show netLost (JbOutput.pushed seq _ :: _) = _
    cases ha : jb.accepts seq with
    | false => simp [push_of_rejected jb ha, charges, ha, netLost]
    | true =>
      have hcount := netLost_push jb genUs now data ha
      have hlen := @OrderedMap.length_filter_not_contains _ _ _ _ _
        (jb.stored seq genUs data now).buf (jb.push seq genUs data now).1.buf fun k hk => by
          rw [push_buf jb ha] at hk
          obtain ⟨u, hu⟩ := OrderedMap.contains_iff.1 hk
          exact OrderedMap.contains_of_getElem? (getElem?_evictLoop hu)
      rw [charges, if_pos ha, ← List.singleton_append, netLost_append]
      have hpushed :
          netLost [(.pushed seq (jb.push seq genUs data now).2.1 : JbOutput Ctx)] = 0 := rfl
      rw [hpushed]
      omega
  | pop now =>
    show netLost (_ ++ _) = _
    rw [netLost_append, netLost_pop]
    cases (jb.pop now).2.1 <;> exact Nat.zero_add _
  | setRttMs ms => rfl

/-! ## The ledger of a run -/

/-- What became of the numbers, as distances from the first accepted one. -/
structure Account where
  /-- How far `next_out_` has come. -/
  pos : ℤ := 0
  charged : List ℤ := []
  popped : List ℤ := []
  jumped : List ℤ := []
  deriving DecidableEq

/-- `n` numbers, from `lo` on. -/
def placesFrom (lo : ℤ) (n : ℕ) : List ℤ := (List.range n).map fun i : ℕ => lo + i

theorem mem_placesFrom {lo x : ℤ} {n : ℕ} : x ∈ placesFrom lo n ↔ lo ≤ x ∧ x < lo + n := by
  simp only [placesFrom, List.mem_map, List.mem_range]
  constructor
  · rintro ⟨i, hi, rfl⟩
    omega
  · intro h
    exact ⟨(x - lo).toNat, by omega, by omega⟩

theorem nodup_placesFrom (lo : ℤ) (n : ℕ) : (placesFrom lo n).Nodup :=
  List.nodup_range.map fun i j h => by simpa using h

theorem placesFrom_add (lo : ℤ) (m n : ℕ) :
    placesFrom lo (m + n) = placesFrom lo m ++ placesFrom (lo + m) n := by
  rw [placesFrom, List.range_add, List.map_append, List.map_map]
  congr 1
  apply List.map_congr_left
  intro i _
  show lo + ((m + i : ℕ) : ℤ) = lo + m + i
  omega

namespace Account

/-- Where `k` lies when `due` is the due number. -/
def place (a : Account) (due k : UInt32) : ℤ := a.pos + (k - due).toInt32.toInt

/-- From `a` to `a'` there are `n` numbers, and each is counted, popped or jumped over, once. -/
def Advances (a a' : Account) (n : ℕ) : Prop :=
  a'.pos = a.pos + n ∧ (a'.charged ++ a'.popped ++ a'.jumped).Perm
    (a.charged ++ a.popped ++ a.jumped ++ placesFrom a.pos n)

/-- Every number that was passed has been counted, popped or jumped over, once, and no other. -/
def Balanced (a : Account) : Prop :=
  0 ≤ a.pos ∧ (a.charged ++ a.popped ++ a.jumped).Perm (placesFrom 0 a.pos.toNat)

variable {a a' : Account} {n : ℕ}

theorem balanced_empty : Balanced {} := ⟨le_rfl, List.Perm.refl _⟩

theorem Balanced.advance (h : a.Balanced) (hadv : a.Advances a' n) : a'.Balanced := by
  obtain ⟨hpos, hperm⟩ := h
  obtain ⟨hpos', hperm'⟩ := hadv
  have hnat : a'.pos.toNat = a.pos.toNat + n := by omega
  refine ⟨by omega, (hperm'.trans (hperm.append_right _)).trans (List.Perm.of_eq ?_)⟩
  rw [hnat, placesFrom_add, zero_add, Int.toNat_of_nonneg hpos]

theorem Balanced.mem_range (h : a.Balanced) {x : ℤ}
    (hx : x ∈ a.charged ++ a.popped ++ a.jumped) : 0 ≤ x ∧ x < a.pos := by
  have := mem_placesFrom.1 (h.2.subset hx)
  have := h.1
  omega

theorem Balanced.count (h : a.Balanced) {x : ℤ} (hx : 0 ≤ x) (hlt : x < a.pos) :
    a.charged.count x + a.popped.count x + a.jumped.count x = 1 := by
  rw [← List.count_append, ← List.count_append, h.2.count_eq]
  exact List.count_eq_one_of_mem (nodup_placesFrom _ _) (mem_placesFrom.2 (by omega))

/-- Each number that was passed has been counted once if it was not popped, and not at all if it
was. -/
def CountedOnce (a : Account) : Prop :=
  ∀ x, 0 ≤ x → x < a.pos → a.charged.count x = if x ∈ a.popped then 0 else 1

theorem Balanced.countedOnce_iff (h : a.Balanced) : a.CountedOnce ↔ a.jumped = [] := by
  constructor
  · intro hlaw
    apply List.eq_nil_iff_forall_not_mem.2
    intro x hx
    obtain ⟨hx0, hxlt⟩ := h.mem_range (List.mem_append_right _ hx)
    have hcount := h.count hx0 hxlt
    have hjumped := List.count_pos_iff.2 hx
    have hlaw := hlaw x hx0 hxlt
    rw [if_neg fun hp => by have := List.count_pos_iff.2 hp; omega] at hlaw
    omega
  · intro hnil x hx hlt
    have hcount := h.count hx hlt
    rw [hnil, List.count_nil, Nat.add_zero] at hcount
    split_ifs with hp
    · have := List.count_pos_iff.2 hp
      omega
    · rw [List.count_eq_zero.2 hp] at hcount
      omega

end Account

/-! ## One call -/

section Place

variable {a : Account} {k : UInt32} {n : ℕ}

/-- A number that is not behind is less than half the number space ahead. -/
theorem toNat_seqDelta_lt {s : UInt32} (h : seqLt s k = false) :
    (seqDelta s k).toNat < 2 ^ 31 := by
  rw [Bool.eq_false_iff, Ne, seqLt_iff] at h
  exact Nat.lt_of_not_le h

theorem place_add (a : Account) (k : UInt32) (hn : n < 2 ^ 31) :
    a.place k (k + UInt32.ofNat n) = a.pos + n := by
  have hdiff : k + UInt32.ofNat n - k = UInt32.ofNat n := by
    rw [UInt32.add_comm, UInt32.add_sub_cancel]
  have hsigned : (UInt32.ofNat n).toInt32.toInt = n := by
    show (UInt32.ofNat n).toBitVec.toInt = n
    rw [BitVec.toInt_eq_toNat_of_lt] <;> simp <;> omega
  rw [Account.place, hdiff, hsigned]

theorem place_pred (a : Account) (k : UInt32) : a.place k (k - 1) + 1 = a.pos := by
  have hdiff : k - 1 - k = -1 := by grind
  rw [Account.place, hdiff]
  show a.pos + -1 + 1 = a.pos
  omega

/-- A number that is not behind lies as far ahead as it says. -/
theorem place_of_ahead (a : Account) {s : UInt32} (h : seqLt s k = false) :
    a.place k s = a.pos + (seqDelta s k).toNat := by
  have hlt := toNat_seqDelta_lt h
  have hs : s = k + UInt32.ofNat (seqDelta s k).toNat := by
    rw [UInt32.ofNat_toNat, seqDelta, UInt32.add_comm, UInt32.sub_add_cancel]
  conv_lhs => rw [hs]
  exact place_add a k hlt

theorem place_pred_of_ahead (a : Account) {s : UInt32} (h : seqLt s k = false) :
    a.place k (s - 1) + 1 = a.pos + (seqDelta s k).toNat := by
  have hlt := toNat_seqDelta_lt h
  cases hd : (seqDelta s k).toNat with
  | zero =>
    obtain rfl : s = k := by
      have hzero : s - k = 0 := UInt32.toNat_inj.1 hd
      grind
    rw [place_pred]
    omega
  | succ n =>
    have hs : s - 1 = k + UInt32.ofNat n := by
      have hsucc : UInt32.ofNat n + 1 = s - k := by
        rw [← seqDelta, ← UInt32.ofNat_toNat (x := seqDelta s k), hd, UInt32.ofNat_add]
        rfl
      grind
    rw [hs, place_add a k (by omega)]
    omega

theorem map_place_numbersFrom (a : Account) (k : UInt32) (hn : n ≤ 2 ^ 31) :
    (numbersFrom k n).map (a.place k) = placesFrom a.pos n := by
  rw [numbersFrom, List.map_map]
  apply List.map_congr_left
  intro i hi
  exact place_add a k ((List.mem_range.1 hi).trans_le hn)

end Place

section Pop

variable (jb : JitterBuffer Ctx) {now : Int}

theorem lost_not_mem_pop (h : (jb.pop now).2.1 = none ∨ ∃ u, jb.buf[jb.nextOut]? = some u)
    (n : UInt32) : .lost n ∉ (jb.pop now).2.2 := by
  by_cases hne : (!jb.started || jb.buf.isEmpty) = true
  · simp only [pop, if_pos hne]
    simp
  cases hb : jb.buf[jb.nextOut]? with
  | some u =>
    rw [pop_of_due jb hne hb]
    split_ifs <;> simp
  | none =>
    rw [hb] at h
    rw [pop_of_missing jb hne hb] at h ⊢
    split_ifs at h ⊢
    · simp
    · simp
    · cases hf : OrderedMap.first? jb.buf with
      | none => simp
      | some kv => simp [hf] at h

/-- A skip counts its distance. -/
theorem pop_events_of_skip (hst : jb.started = true) {head : UInt32} {u : JbUnit Ctx}
    (hb : jb.buf[jb.nextOut]? = none) (hw : jb.waitsForHead now = false)
    (hf : OrderedMap.first? jb.buf = some (head, u)) :
    (jb.pop now).2.2 = [.lost (seqDelta head jb.nextOut)] := by
  have hne : ¬(!jb.started || jb.buf.isEmpty) = true := by
    rw [hst, Bool.not_true, Bool.false_or]
    intro hemp
    have hnone := OrderedMap.first?_eq_none_iff (m := jb.buf).2 fun k =>
      TreeMap.getElem?_of_isEmpty hemp
    rw [hnone] at hf
    cases hf
  rw [pop_of_missing jb hne hb, hw, if_neg Bool.false_ne_true, hf]

end Pop

/-- The number that is due when the call takes effect. -/
def due (jb : JitterBuffer Ctx) : JbInput Ctx → UInt32
  | .push seq _ _ _ => jb.baseOut seq
  | _ => jb.nextOut

/-- The ledger after a call. The last number passed is the one before `next_out_`. -/
def bookCall (jb : JitterBuffer Ctx) (a : Account) (i : JbInput Ctx) : Account :=
  let place := a.place (jb.due i)
  { pos := place ((step jb i).1.nextOut - 1) + 1
    charged := a.charged ++ (charges jb i).map place
    popped := a.popped ++ (poppedSeqs (step jb i).2).map place
    jumped := a.jumped ++ (jumpedOver jb i).map place }

/-- No unit is evicted. -/
def Fits (jb : JitterBuffer Ctx) : JbInput Ctx → Prop
  | .push seq _ _ _ => jb.RoomFor seq
  | _ => True

instance (jb : JitterBuffer Ctx) : DecidablePred (Fits jb)
  | .push seq _ _ _ => inferInstanceAs (Decidable (jb.RoomFor seq))
  | .pop _ | .setRttMs _ => inferInstanceAs (Decidable True)

/-- The call is no jump. -/
def NoJump (jb : JitterBuffer Ctx) : JbInput Ctx → Prop
  | .push seq _ _ _ => ¬ jb.Jumps seq
  | _ => True

instance (jb : JitterBuffer Ctx) : DecidablePred (NoJump jb)
  | .push seq _ _ _ => inferInstanceAs (Decidable (¬ jb.Jumps seq))
  | .pop _ | .setRttMs _ => inferInstanceAs (Decidable True)

variable {jb : JitterBuffer Ctx}

theorem due_of_rejected {seq : UInt32} (h : jb.accepts seq = false) :
    jb.baseOut seq = jb.nextOut := by
  have : jb.started = true := by
    rw [accepts, Bool.not_eq_false', Bool.and_eq_true] at h
    exact h.1
  rw [baseOut, if_pos this]

theorem charges_push_of_room {seq : UInt32} (hroom : jb.RoomFor seq) (genUs now : Int)
    (data : Option Ctx) : charges jb (.push seq genUs data now) = [] := by
  apply List.eq_nil_of_length_eq_zero
  rw [← netLost_step]
  show netLost (JbOutput.pushed seq _ :: _) = 0
  rw [← List.singleton_append, netLost_append,
    netLost_of_not_lost ((roomFor_iff jb genUs now data).1 hroom)]
  rfl

/-- **A push**: a jump passes the numbers it jumps over, any other push passes nothing. -/
theorem advances_push (a : Account) {seq : UInt32} {genUs now : Int} {data : Option Ctx}
    (hroom : jb.RoomFor seq) :
    ∃ n, a.Advances (bookCall jb a (.push seq genUs data now)) n := by
  have hcharges := charges_push_of_room hroom genUs now data
  have hpopped := poppedSeqs_step jb (.push seq genUs data now)
  have hnext : (step jb (.push seq genUs data now)).1 = (jb.push seq genUs data now).1 := rfl
  cases ha : jb.accepts seq with
  | false =>
    have hjumped : jumpedOver jb (.push seq genUs data now) = [] :=
      if_neg fun hj => by have := hj.1; rw [ha] at this; cases this
    refine ⟨0, ?_, ?_⟩
    · simp only [bookCall, hnext, push_of_rejected jb ha, due, due_of_rejected ha]
      simp [place_pred]
    · simp [bookCall, hcharges, hpopped, hjumped, placesFrom]
  | true =>
    have hfwd := seqLt_baseOut jb ha
    by_cases hj : jb.Jumps seq
    · have hjumped : jumpedOver jb (.push seq genUs data now) = _ := if_pos hj
      have hle := (toNat_seqDelta_lt hfwd).le
      refine ⟨(seqDelta seq (jb.baseOut seq)).toNat, ?_, ?_⟩
      · simp only [bookCall, hnext, push_nextOut jb ha, if_pos hj.2, due]
        exact place_pred_of_ahead a hfwd
      · simp only [bookCall, hcharges, hpopped, hjumped, due, map_place_numbersFrom a _ hle,
          List.map_nil, List.append_nil, List.append_assoc]
        exact List.Perm.refl _
    · have hjumped : jumpedOver jb (.push seq genUs data now) = [] := if_neg hj
      refine ⟨0, ?_, ?_⟩
      · simp only [bookCall, hnext, push_nextOut jb ha, if_neg fun h => hj ⟨ha, h⟩, due]
        simp [place_pred]
      · simp [bookCall, hcharges, hpopped, hjumped, placesFrom]

/-- A unit `n` numbers ahead is handed out, and the numbers before it are counted. -/
theorem advances_takeOut (a : Account) {now : Int} {u : JbUnit Ctx}
    (hfwd : seqLt u.seq jb.nextOut = false) (hsome : (jb.pop now).2.1 = some u)
    (hnext : (jb.pop now).1.nextOut = u.seq + 1)
    (hcharges : charges jb (.pop now) = numbersFrom jb.nextOut (seqDelta u.seq jb.nextOut).toNat) :
    a.Advances (bookCall jb a (.pop now)) ((seqDelta u.seq jb.nextOut).toNat + 1) := by
  set n := (seqDelta u.seq jb.nextOut).toNat with hn
  have hlt : n < 2 ^ 31 := toNat_seqDelta_lt hfwd
  have hplace : a.place jb.nextOut u.seq = a.pos + n := place_of_ahead a hfwd
  constructor
  · show a.place jb.nextOut ((jb.pop now).1.nextOut - 1) + 1 = _
    rw [hnext, UInt32.add_sub_cancel, hplace]
    omega
  · simp only [bookCall, poppedSeqs_step, hsome, hcharges, due, jumpedOver, Option.toList_some,
      List.map_cons, List.map_nil, hplace, map_place_numbersFrom a _ hlt.le, List.append_nil]
    rw [placesFrom_add]
    show (a.charged ++ placesFrom a.pos n ++ (a.popped ++ [a.pos + n]) ++ a.jumped).Perm
      (a.charged ++ a.popped ++ a.jumped ++ (placesFrom a.pos n ++ placesFrom (a.pos + n) 1))
    rw [show placesFrom (a.pos + n) 1 = [a.pos + (n : ℤ)] by simp [placesFrom]]
    apply List.perm_iff_count.2
    intro x
    simp only [List.count_append]
    omega

theorem charges_pop_of_quiet {now : Int} (h : ∀ n, .lost n ∉ (jb.pop now).2.2) :
    charges jb (.pop now) = [] := by
  apply List.flatMap_eq_nil_iff.2
  intro e he
  cases e with
  | lost n => exact absurd he (h n)
  | _ => rfl

/-- **A pop**: the numbers up to the one that is handed out are passed. -/
theorem advances_pop (hk : jb.Keyed) (a : Account) {now : Int}
    (hskip : SkipsForward jb (.pop now)) :
    ∃ n, a.Advances (bookCall jb a (.pop now)) n := by
  rcases pop_spec jb now with ⟨hnone, -, hnext, -⟩ | ⟨u, hst, hu, hsome, hjb⟩ |
      ⟨head, u, hst, hmiss, hw, hf, hsome, hjb⟩
  · have hcharges := charges_pop_of_quiet (lost_not_mem_pop jb (.inl hnone))
    have hstep : (step jb (.pop now)).1.nextOut = jb.nextOut := hnext
    refine ⟨0, ?_, ?_⟩
    · simp [bookCall, hstep, due, place_pred]
    · simp [bookCall, hcharges, poppedSeqs_step, hnone, jumpedOver, placesFrom]
  · have hseq : u.seq = jb.nextOut := hk _ u hu
    have hcharges := charges_pop_of_quiet (@lost_not_mem_pop _ jb now (.inr ⟨u, hu⟩))
    refine ⟨_, advances_takeOut a (by rw [hseq, seqLt_self]) hsome (by rw [hjb]; rfl) ?_⟩
    rw [hcharges, hseq, seqDelta, UInt32.sub_self]
    rfl
  · have hseq : u.seq = head := hk head u (OrderedMap.getElem?_first? hf)
    refine ⟨_, advances_takeOut a (by rw [hseq]; exact hskip hmiss hw (head, u) hf) hsome
      (by rw [hjb]; rfl) ?_⟩
    rw [charges, pop_events_of_skip jb hst hmiss hw hf, hseq]
    exact List.append_nil _

/-- A pop does not count more than it passes. -/
theorem netLost_pop_le (hk : jb.Keyed) {now : Int} (hskip : SkipsForward jb (.pop now)) :
    netLost (step jb (.pop now)).2 ≤
      (seqDelta (step jb (.pop now)).1.nextOut jb.nextOut).toNat := by
  rw [netLost_step]
  rcases pop_spec jb now with ⟨hnone, -⟩ | ⟨u, -, hu, -⟩ | ⟨head, u, hst, hmiss, hw, hf, -, hjb⟩
  · rw [charges_pop_of_quiet (lost_not_mem_pop jb (.inl hnone))]
    exact Nat.zero_le _
  · rw [charges_pop_of_quiet (lost_not_mem_pop jb (.inr ⟨u, hu⟩))]
    exact Nat.zero_le _
  · have hseq : u.seq = head := hk head u (OrderedMap.getElem?_first? hf)
    have hfwd : seqLt head jb.nextOut = false := hskip hmiss hw (head, u) hf
    have hlen : (charges jb (.pop now)).length = (seqDelta head jb.nextOut).toNat := by
      rw [charges, pop_events_of_skip jb hst hmiss hw hf]
      simp [numbersFrom]
    have hlt := toNat_seqDelta_lt hfwd
    have hstep : (step jb (.pop now)).1.nextOut = u.seq + 1 := congrArg (·.nextOut) hjb
    have hnext : seqDelta (u.seq + 1) jb.nextOut = seqDelta head jb.nextOut + 1 := by
      rw [hseq, seqDelta, seqDelta]
      grind
    rw [hlen, hstep, hnext, UInt32.toNat_add, UInt32.toNat_one]
    omega

/-- **One call**: what it passes is counted, popped or jumped over. -/
theorem advances_step (hk : jb.Keyed) (a : Account) {i : JbInput Ctx} (hfits : Fits jb i)
    (hskip : SkipsForward jb i) : ∃ n, a.Advances (bookCall jb a i) n := by
  cases i with
  | push seq genUs data now => exact advances_push a hfits
  | pop now => exact advances_pop hk a hskip
  | setRttMs ms =>
    refine ⟨0, ?_, ?_⟩
    · simp [bookCall, step, due, place_pred]
    · simp [bookCall, charges, poppedSeqs_step, jumpedOver, placesFrom]

theorem Keyed.step (hk : jb.Keyed) (i : JbInput Ctx) : (JitterBuffer.step jb i).1.Keyed := by
  cases i with
  | push seq genUs data now => exact hk.push seq genUs now data
  | pop now => exact hk.pop now
  | setRttMs ms => exact hk

/-! ## Runs -/

/-- The ledger after a run. -/
def account (jb : JitterBuffer Ctx) (a : Account) : List (JbInput Ctx) → Account
  | [] => a
  | i :: is => account (step jb i).1 (bookCall jb a i) is

theorem balanced_account {is : List (JbInput Ctx)} {a : Account} (hk : jb.Keyed)
    (ha : a.Balanced) (hfits : Runs.Along JitterBuffer.step Fits jb is)
    (hskip : Runs.Along JitterBuffer.step SkipsForward jb is) : (account jb a is).Balanced := by
  induction is generalizing jb a with
  | nil => exact ha
  | cons i is ih =>
    obtain ⟨n, hadv⟩ := advances_step hk a hfits.1 hskip.1
    exact ih (hk.step i) (ha.advance hadv) hfits.2 hskip.2

theorem length_charged_account (jb : JitterBuffer Ctx) (a : Account) (is : List (JbInput Ctx)) :
    (account jb a is).charged.length =
      a.charged.length + netLost (Runs.trace JitterBuffer.step jb is) := by
  induction is generalizing jb a with
  | nil => rfl
  | cons i is ih =>
    rw [account, ih, Runs.trace_cons, netLost_append, netLost_step]
    simp only [bookCall, List.length_append, List.length_map]
    omega

theorem jumpedOver_eq_nil_iff (jb : JitterBuffer Ctx) (i : JbInput Ctx) :
    jumpedOver jb i = [] ↔ NoJump jb i := by
  cases i with
  | push seq genUs data now =>
    simp only [jumpedOver, NoJump]
    split_ifs with hj
    · have hgap := UInt32.lt_iff_toNat_lt.1 hj.2
      simp only [hj, not_true_eq_false, iff_false]
      exact List.ne_nil_of_length_pos (by simp [numbersFrom]; omega)
    · exact iff_of_true rfl hj
  | _ => exact iff_of_true rfl trivial

theorem jumped_account (jb : JitterBuffer Ctx) (a : Account) (is : List (JbInput Ctx)) :
    (account jb a is).jumped = [] ↔
      a.jumped = [] ∧ Runs.Along JitterBuffer.step NoJump jb is := by
  induction is generalizing jb a with
  | nil => simp [account]
  | cons i is ih =>
    rw [account, ih, Runs.along_cons, ← jumpedOver_eq_nil_iff]
    simp only [bookCall, List.append_eq_nil_iff, List.map_eq_nil_iff, and_assoc]

theorem keyed_create (maxUnits : ℕ) (onMissing : Bool) (nackIntervalUs : Int) :
    (create maxUnits onMissing nackIntervalUs : JitterBuffer Ctx).Keyed := fun k u hu => by
  simp [create] at hu

/-- **Loss is counted once.** In a run that evicts nothing and skips no gap backwards, every number
that `next_out_` has moved past from the first accepted one on has been counted once if it was not
popped, and not at all if it was, if and only if no push jumped. What was counted, whether or not a
push jumped, is what `net_lost` got, and no pop adds more than the distance `next_out_` moves. -/
theorem counted_once_iff (maxUnits : ℕ) (onMissing : Bool) (nackIntervalUs : Int)
    (is : List (JbInput Ctx))
    (hfits : Runs.Along JitterBuffer.step Fits (create maxUnits onMissing nackIntervalUs) is)
    (hskip : Runs.Along JitterBuffer.step SkipsForward
      (create maxUnits onMissing nackIntervalUs) is) :
    let fresh : JitterBuffer Ctx := create maxUnits onMissing nackIntervalUs
    let a := account fresh {} is
    (a.CountedOnce ↔ Runs.Along JitterBuffer.step NoJump fresh is) ∧
      netLost (Runs.trace JitterBuffer.step fresh is) = a.charged.length ∧
      (∀ x ∈ a.charged, 0 ≤ x ∧ x < a.pos) ∧
      ∀ is₁ now is₂, is = is₁ ++ .pop now :: is₂ →
        let jb := Runs.after JitterBuffer.step fresh is₁
        netLost (step jb (.pop now)).2 ≤
          (seqDelta (step jb (.pop now)).1.nextOut jb.nextOut).toNat := by
  intro fresh a
  have hkeyed : fresh.Keyed := keyed_create maxUnits onMissing nackIntervalUs
  have hbal : a.Balanced := balanced_account hkeyed Account.balanced_empty hfits hskip
  refine ⟨?_, ?_, ?_, ?_⟩
  · rw [hbal.countedOnce_iff, jumped_account]
    exact and_iff_right rfl
  · rw [length_charged_account]
    exact (Nat.zero_add _).symm
  · intro x hx
    exact hbal.mem_range (List.mem_append_left _ (List.mem_append_left _ hx))
  · rintro is₁ now is₂ rfl
    obtain ⟨h₁, h₂⟩ := (Runs.along_append fresh is₁ _).1 hskip
    refine netLost_pop_le ?_ h₂.1
    exact Runs.Along.invariant (I := Keyed) (fun jb i hk _ => hk.step i) h₁ hkeyed

/-- Number 1 is skipped. -/
theorem counted_once_skip :
    (account (create 512 true 10000) {}
      ([.push 0 0 (some 0) 1000000, .push 2 0 (some 1) 1000001, .pop 2000000, .pop 3000000] :
        List (JbInput ℕ))).CountedOnce :=
  (counted_once_iff 512 true 10000 _ (by decide +kernel) (by decide +kernel)).1.2
    (by decide +kernel)

/-- In a buffer for one unit, unit 1 evicts unit 0; unit 1 is popped, skipping number 0. -/
def evictRun : List (JbInput ℕ) :=
  [.push 0 0 (some 0) 1000000, .push 1 0 (some 1) 1000001, .pop 2000000]

/-- Number 2000 comes after number 0 has been popped. -/
def jumpRun : List (JbInput ℕ) :=
  [.push 0 0 (some 0) 1000000, .pop 2000000, .push 2000 0 (some 1) 2000001]

/-- The evicted number is counted twice, the numbers that a jump passes are not counted, and the
skip back to a unit that a jump has left behind counts `2 ^ 32 - 2001`. -/
theorem miscounted :
    ¬ (account (create 1 true 10000) {} evictRun).CountedOnce ∧
      ¬ (account (create 512 true 10000) {} jumpRun).CountedOnce ∧
      netLost (Runs.trace JitterBuffer.step (create 512 true 10000) realignRun) =
        2 ^ 32 - 2001 := by
  refine ⟨?_, ?_, by decide +kernel⟩
  · intro h
    have hcount : (account (create 1 true 10000) {} evictRun).charged.count 0 = 2 := by
      decide +kernel
    have := h 0 le_rfl (by decide +kernel)
    rw [hcount, if_neg (by decide +kernel)] at this
    cases this
  · intro h
    have hcount : (account (create 512 true 10000) {} jumpRun).charged.count 1 = 0 := by
      decide +kernel
    have := h 1 (by decide) (by decide +kernel)
    rw [hcount, if_neg (by decide +kernel)] at this
    cases this

end Rtstream.JitterBuffer
