import Rtstream.JitterBufferIdle
import Rtstream.UdpReceiverSpec
import Rtstream.RtpReceiver
import Rtstream.Lib.MovingAverage
import Mathlib.Algebra.Order.Ring.Rat
import Mathlib.Tactic.Linarith
import Mathlib.Tactic.NormNum

/-!
# The estimates of round trip and jitter

Both receivers estimate the round trip from the pongs, which carry the time that the ping was
sent, and hand the estimate to the jitter buffer. That estimates the jitter from the units that
arrive in order. From the two it tunes its depth, after a conversion to `int64_t`. Nothing
authenticates a pong, so the time in it can be any number.

`along_goesWell`: while no pong shows a round trip over 2⁶³ - 600000 µs, the subtraction does not
overflow, the converted number fits, the jitter is at most 200 ms, and the depth is within its
bounds. `RtpReceiver.inRange_of_pongWithin` and `UdpReceiver.inRange_of_pongWithin` say this of
the receivers, whose steps are steps of the machine here (`link_step`).
-/

namespace Rtstream

open MovingAverage (blend)

/-! ## Conversions -/

/-- The values of `int64_t`. -/
def InInt64 (x : Int) : Prop := -2 ^ 63 ≤ x ∧ x < 2 ^ 63

instance (x : Int) : Decidable (InInt64 x) := inferInstanceAs (Decidable (_ ∧ _))

theorem inInt64_hostInt64 (buf : Bytes) : InInt64 (hostInt64 buf) :=
  ⟨BitVec.le_toInt _, BitVec.toInt_lt⟩

theorem exists_hostInt64 {x : Int} (h : InInt64 x) :
    ∃ buf : Bytes, buf.length = 8 ∧ hostInt64 buf = x := by
  obtain ⟨hlo, hhi⟩ := h
  refine ⟨(BigEndian.store 8 (x % 2 ^ 64).toNat).reverse, by simp, ?_⟩
  have htake : (BigEndian.store 8 (x % 2 ^ 64).toNat).reverse.take 8 =
      (BigEndian.store 8 (x % 2 ^ 64).toNat).reverse := List.take_of_length_le (by simp)
  rw [hostInt64, htake, List.reverse_reverse, BigEndian.load_store, BitVec.toInt_eq_toNat_cond,
    BitVec.toNat_ofNat]
  split_ifs <;> omega

namespace JitterBuffer

theorem intCast_le_iff {n : Int} {q : ℚ} : (n : ℚ) ≤ q ↔ n * q.den ≤ q.num := by
  have hpos : (0 : ℚ) < q.den := by exact_mod_cast q.den_pos
  conv_lhs => rw [← q.num_div_den, le_div_iff₀ hpos]
  exact_mod_cast Iff.rfl

theorem le_truncToInt {n : Int} {q : ℚ} (h : (n : ℚ) ≤ q) : n ≤ truncToInt q :=
  Int.le_tdiv_of_mul_le (by exact_mod_cast q.den_pos) (intCast_le_iff.1 h)

theorem truncToInt_lt {n : Int} {q : ℚ} (hn : 0 < n) (h : q < n) : truncToInt q < n := by
  have hnum : q.num < n * q.den := not_le.1 (mt intCast_le_iff.2 (not_le.2 h))
  rcases le_or_gt 0 q.num with hsign | hsign
  · rw [truncToInt, Int.tdiv_eq_ediv_of_nonneg hsign]
    exact Int.ediv_lt_of_lt_mul (by exact_mod_cast q.den_pos) hnum
  · have hneg : 0 ≤ (-q.num).tdiv q.den := Int.tdiv_nonneg (by omega) (Int.natCast_nonneg _)
    rw [Int.neg_tdiv] at hneg
    exact (Int.neg_nonneg.1 hneg).trans_lt hn

/-! ## The jitter estimate -/

variable {Ctx : Type} (jb : JitterBuffer Ctx) (seq : UInt32) (genUs now : Int)

/-- A unit that is due and was produced later than the last one teaches something. -/
def Learns : Prop :=
  seq = jb.nextOut ∧ jb.lastArrivalUs ≠ 0 ∧ genUs - jb.lastGenUs > 0 ∧ now - jb.lastArrivalUs ≥ 0

instance : Decidable (jb.Learns seq genUs now) := inferInstanceAs (Decidable (_ ∧ _))

/-- How far the time between arrivals is from the time between productions, cut at 200 ms. -/
def deviation : ℚ :=
  min |((now - jb.lastArrivalUs : Int) - (genUs - jb.lastGenUs : Int) : ℚ)| 200000

theorem deviation_nonneg : 0 ≤ jb.deviation genUs now := le_min (abs_nonneg _) (by norm_num)

/-- The absolute value and the cut, as the code has them. -/
theorem cut_eq_min (d : ℚ) : (if (if d < 0 then -d else d) > 200 * 1000 then 200 * 1000
    else if d < 0 then -d else d) = min |d| 200000 := by
  have habs : (if d < 0 then -d else d) = |d| := by
    split_ifs with hneg
    · exact (abs_of_neg hneg).symm
    · exact (abs_of_nonneg (not_lt.1 hneg)).symm
  rw [habs, min_def]
  norm_num
  split_ifs <;> linarith

/-- What of the buffer the estimates are made of, and what is made of them. -/
def estimates (jb : JitterBuffer Ctx) : ℚ × ℚ × Int × Int × Int × Int :=
  (jb.jitterUs, jb.rttMs, jb.minDelayUs, jb.maxDelayUs, jb.targetDelayUs, jb.maxWaitUs)

/-- **A unit moves the jitter estimate** by a sixteenth of the way to the deviation. -/
theorem estimateJitter_estimates :
    (jb.estimateJitter seq genUs now).estimates =
      if jb.Learns seq genUs now then
        (retuneTarget { jb with
          jitterUs := blend (1 / 16) jb.jitterUs (jb.deviation genUs now) }).estimates
      else jb.estimates := by
  by_cases hdue : seq = jb.nextOut
  · by_cases hlater : jb.lastArrivalUs ≠ 0 ∧ genUs - jb.lastGenUs > 0 ∧ now - jb.lastArrivalUs ≥ 0
    · rw [if_pos ⟨hdue, hlater⟩, estimateJitter, if_neg (not_not.2 hdue)]
      simp only [if_pos hlater, cut_eq_min]
      rw [deviation, blend, mul_one_div]
      rfl
    · rw [if_neg fun h => hlater h.2, estimateJitter, if_neg (not_not.2 hdue)]
      simp only [if_neg hlater]
      rfl
  · rw [if_neg fun h => hdue h.1, estimateJitter, if_pos hdue]

@[simp] theorem startAt_estimates : (jb.startAt seq now).estimates = jb.estimates := by
  unfold startAt; split_ifs <;> rfl
@[simp] theorem store_estimates (data : Option Ctx) :
    (jb.store seq genUs data now).estimates = jb.estimates := by
  simp only [store]; split_ifs <;> rfl
@[simp] theorem detectMissing_estimates :
    (jb.detectMissing seq now).1.estimates = jb.estimates := by
  obtain ⟨_, _, _, h⟩ := detectMissing_eq jb seq now
  rw [h]
  rfl

theorem push_estimates {seq : UInt32} (ha : jb.accepts seq = true) (data : Option Ctx) :
    (jb.push seq genUs data now).1.estimates =
      ((jb.startAt seq now).estimateJitter seq genUs now).estimates := by
  rw [push_of_accepted jb ha]
  show ((jb.stored seq genUs data now).detectMissing seq now).1.estimates = _
  rw [detectMissing_estimates, stored, store_estimates]

/-- A unit that is due is accepted, stays due, and is the last arrival. -/
theorem push_due {seq : UInt32} (hdue : jb.baseOut seq = seq) (data : Option Ctx) :
    jb.accepts seq = true ∧ (jb.push seq genUs data now).1.started = true ∧
      (jb.push seq genUs data now).1.nextOut = seq ∧
      (jb.push seq genUs data now).1.lastArrivalUs = now ∧
      (jb.push seq genUs data now).1.lastGenUs = genUs := by
  have ha : jb.accepts seq = true := by
    rw [baseOut] at hdue
    split_ifs at hdue with hstarted
    · simp [accepts, hdue]
    · simp [accepts, hstarted]
  have hnext : seq = (jb.startAt seq now).nextOut := by
    rw [startAt_nextOut]
    exact hdue.symm
  obtain ⟨harrival, hgen⟩ := @estimateJitter_arrival Ctx (jb.startAt seq now) seq genUs now hnext
  obtain ⟨harrival', hgen'⟩ := @push_arrival Ctx jb seq genUs now data ha
  refine ⟨ha, push_started jb ha, ?_, ?_, ?_⟩
  · rw [push_nextOut jb ha, hdue, ite_self]
  · rw [harrival', stored]
    simp only [store]
    split_ifs <;> exact harrival
  · rw [hgen', stored]
    simp only [store]
    split_ifs <;> exact hgen

@[simp] theorem pop_estimates : (jb.pop now).1.estimates = jb.estimates := by
  simp only [pop]
  split
  · rfl
  · split
    · split
      · rfl
      · split <;> rfl
    · split <;> rfl

end JitterBuffer

/-! ## The receiving end of a link -/

/-- What a receiver estimates, and the jitter buffer that uses it. -/
structure LinkEstimates (Ctx : Type) where
  curRtt : ℚ := 0
  jb : JitterBuffer Ctx

/-- What comes in. -/
inductive LinkInput (Ctx : Type)
  | pong (payload : Bytes) (now : Int)
  | push (seq : UInt32) (genUs : Int) (data : Option Ctx) (now : Int)
  | pop (now : Int)

namespace LinkEstimates

open JitterBuffer (truncToInt retuneTarget deviation Learns)

variable {Ctx : Type}

/-- `now_us() - sent` -/
def roundTripUs (payload : Bytes) (now : Int) : Int := now - hostInt64 payload

/-- `update_rtt` -/
def updateRtt (l : LinkEstimates Ctx) (ms : ℚ) : LinkEstimates Ctx :=
  let r := if l.curRtt = 0 then ms else l.curRtt * (7 / 8) + ms * (1 / 8)
  { curRtt := r, jb := l.jb.setRttMs r }

def step : Runs.Machine (LinkEstimates Ctx) (LinkInput Ctx) JbEvent := fun l i =>
  match i with
  | .pong payload now =>
      (if 8 ≤ payload.length then l.updateRtt ((roundTripUs payload now : Int) / 1000) else l, [])
  | .push seq genUs data now =>
      ({ l with jb := (l.jb.push seq genUs data now).1 }, (l.jb.push seq genUs data now).2.2)
  | .pop now => ({ l with jb := (l.jb.pop now).1 }, (l.jb.pop now).2.2)

def initial (maxUnits : ℕ) (onMissing : Bool) (nackIntervalUs : Int) : LinkEstimates Ctx :=
  { jb := .create maxUnits onMissing nackIntervalUs }

/-! ## In range -/

/-- The subtraction of a pong does not overflow. -/
def NoOverflow : LinkInput Ctx → Prop
  | .pong payload now => 8 ≤ payload.length → InInt64 (roundTripUs payload now)
  | _ => True

/-- The number that is converted to `int64_t`, the jitter, and what is tuned by them. -/
structure InRange (l : LinkEstimates Ctx) : Prop where
  converted : InInt64 (truncToInt (3 * l.jb.jitterUs + l.jb.rttMs * 1000))
  jitter : 0 ≤ l.jb.jitterUs ∧ l.jb.jitterUs ≤ 200000
  target : 15000 ≤ l.jb.targetDelayUs ∧ l.jb.targetDelayUs ≤ 250000
  maxWait : l.jb.maxWaitUs = 2 * l.jb.targetDelayUs + 50000

/-- A pong is read at a time that the clock can show, and shows a round trip of at most `bound`. -/
def Within (bound : Int) : LinkInput Ctx → Prop
  | .pong payload now =>
      0 ≤ now ∧ now < 2 ^ 63 ∧ (8 ≤ payload.length → roundTripUs payload now ≤ bound)
  | _ => True

/-- The largest round trip that all goes well with: three times the jitter fits on top of it. -/
def maxRoundTripUs : Int := 2 ^ 63 - 3 * 200000

/-- The invariant. The jitter stays below its bound, since it only ever moves towards it. -/
structure Bounded (l : LinkEstimates Ctx) : Prop where
  jitter_nonneg : 0 ≤ l.jb.jitterUs
  jitter_lt : l.jb.jitterUs < 200000
  rtt : l.jb.rttMs = l.curRtt
  le_rtt : -(2 ^ 63 - 1) / 1000 ≤ l.curRtt
  rtt_le : l.curRtt ≤ maxRoundTripUs / 1000
  min : l.jb.minDelayUs = 15 * 1000
  max : l.jb.maxDelayUs = 250 * 1000
  target : 15000 ≤ l.jb.targetDelayUs ∧ l.jb.targetDelayUs ≤ 250000
  maxWait : l.jb.maxWaitUs = 2 * l.jb.targetDelayUs + 50000

theorem Bounded.inRange {l : LinkEstimates Ctx} (h : Bounded l) : InRange l where
  converted := by
    have hmax : ((maxRoundTripUs : Int) : ℚ) = 2 ^ 63 - 600000 := by norm_num [maxRoundTripUs]
    have hnonneg := h.jitter_nonneg
    have hlt := h.jitter_lt
    have hlow := h.le_rtt
    have hhigh := h.rtt_le
    rw [hmax] at hhigh
    rw [h.rtt]
    constructor
    · apply JitterBuffer.le_truncToInt
      push_cast
      linarith
    · apply JitterBuffer.truncToInt_lt (by norm_num)
      push_cast
      linarith
  jitter := ⟨h.jitter_nonneg, h.jitter_lt.le⟩
  target := h.target
  maxWait := h.maxWait

theorem Bounded.congr {l l' : LinkEstimates Ctx} (h : Bounded l) (hrtt : l'.curRtt = l.curRtt)
    (hjb : l'.jb.estimates = l.jb.estimates) : Bounded l' := by
  simp only [JitterBuffer.estimates, Prod.mk.injEq] at hjb
  obtain ⟨hj, hr, hmin, hmax, htarget, hwait⟩ := hjb
  exact {
    jitter_nonneg := hj ▸ h.jitter_nonneg
    jitter_lt := hj ▸ h.jitter_lt
    rtt := by rw [hr, hrtt, h.rtt]
    le_rtt := hrtt ▸ h.le_rtt
    rtt_le := hrtt ▸ h.rtt_le
    min := hmin.trans h.min
    max := hmax.trans h.max
    target := htarget ▸ h.target
    maxWait := by rw [hwait, htarget, h.maxWait] }

theorem bounded_initial (maxUnits : ℕ) (onMissing : Bool) (nackIntervalUs : Int) :
    Bounded (initial maxUnits onMissing nackIntervalUs : LinkEstimates Ctx) where
  jitter_nonneg := le_rfl
  jitter_lt := by show (0 : ℚ) < 200000; norm_num
  rtt := rfl
  le_rtt := by show -(2 ^ 63 - 1) / 1000 ≤ (0 : ℚ); norm_num
  rtt_le := by show (0 : ℚ) ≤ _; norm_num [maxRoundTripUs]
  min := rfl
  max := rfl
  target := by show 15000 ≤ (40 * 1000 : Int) ∧ (40 * 1000 : Int) ≤ 250000; decide
  maxWait := by show (130 * 1000 : Int) = 2 * (40 * 1000) + 50000; decide

/-- New estimates within the bounds are tuned to. -/
theorem Bounded.retune {l : LinkEstimates Ctx} (h : Bounded l) {jitter rtt : ℚ} (hj : 0 ≤ jitter)
    (hj' : jitter < 200000) (hr : -(2 ^ 63 - 1) / 1000 ≤ rtt) (hr' : rtt ≤ maxRoundTripUs / 1000) :
    Bounded
      { curRtt := rtt, jb := retuneTarget { l.jb with jitterUs := jitter, rttMs := rtt } } where
  jitter_nonneg := hj
  jitter_lt := hj'
  rtt := rfl
  le_rtt := hr
  rtt_le := hr'
  min := h.min
  max := h.max
  target := by
    simp only [retuneTarget, h.min, h.max]
    omega
  maxWait := by
    simp only [retuneTarget]
    omega

theorem Bounded.push {l : LinkEstimates Ctx} (h : Bounded l) (seq : UInt32) (genUs : Int)
    (data : Option Ctx) (now : Int) :
    Bounded { l with jb := (l.jb.push seq genUs data now).1 } := by
  cases ha : l.jb.accepts seq with
  | false =>
    rw [JitterBuffer.push_of_rejected l.jb ha]
    exact h
  | true =>
    have hpush := l.jb.push_estimates genUs now ha data
    have hstart : Bounded { l with jb := l.jb.startAt seq now } :=
      h.congr rfl (l.jb.startAt_estimates seq now)
    generalize l.jb.startAt seq now = jb at hpush hstart
    rw [JitterBuffer.estimateJitter_estimates] at hpush
    split_ifs at hpush with hlearns
    · have hj : 0 ≤ blend (1 / 16) jb.jitterUs (jb.deviation genUs now) :=
        MovingAverage.le_blend (by norm_num) (by norm_num) hstart.jitter_nonneg
          (jb.deviation_nonneg genUs now)
      have hj' : blend (1 / 16) jb.jitterUs (jb.deviation genUs now) < 200000 :=
        MovingAverage.blend_lt (by norm_num) (by norm_num) hstart.jitter_lt (min_le_right _ _)
      have hrtt : jb.rttMs = l.curRtt := hstart.rtt
      refine (hstart.retune hj hj' hstart.le_rtt hstart.rtt_le).congr rfl ?_
      rw [hpush, ← hrtt]
    · exact hstart.congr rfl hpush

/-- **A pong** moves the estimate of the round trip, which stays between the bounds. -/
theorem Bounded.pong {l : LinkEstimates Ctx} (h : Bounded l) {payload : Bytes} {now : Int}
    (hnow : 0 ≤ now) (hle : roundTripUs payload now ≤ maxRoundTripUs) :
    Bounded (l.updateRtt ((roundTripUs payload now : Int) / 1000)) := by
  have hsent := (inInt64_hostInt64 payload).2
  have hlow : -(2 ^ 63 - 1) ≤ roundTripUs payload now := by
    rw [roundTripUs]
    omega
  have hms : -(2 ^ 63 - 1) / 1000 ≤ ((roundTripUs payload now : Int) / 1000 : ℚ) := by
    gcongr
    exact_mod_cast hlow
  have hms' : ((roundTripUs payload now : Int) / 1000 : ℚ) ≤ maxRoundTripUs / 1000 := by
    gcongr
  generalize ((roundTripUs payload now : Int) / 1000 : ℚ) = ms at hms hms'
  have hblend : l.curRtt * (7 / 8) + ms * (1 / 8) = blend (1 / 8) l.curRtt ms := by
    rw [blend]
    ring
  rw [updateRtt, hblend]
  apply h.retune h.jitter_nonneg h.jitter_lt
  · split_ifs
    · exact hms
    · exact MovingAverage.le_blend (by norm_num) (by norm_num) h.le_rtt hms
  · split_ifs
    · exact hms'
    · exact MovingAverage.blend_le (by norm_num) (by norm_num) h.rtt_le hms'

theorem Bounded.step {l : LinkEstimates Ctx} (h : Bounded l) {i : LinkInput Ctx}
    (hi : Within maxRoundTripUs i) : Bounded (step l i).1 := by
  cases i with
  | pong payload now =>
    obtain ⟨hnow, -, hle⟩ := hi
    show Bounded (if 8 ≤ payload.length then _ else l)
    split_ifs with hlen
    · exact h.pong hnow (hle hlen)
    · exact h
  | push seq genUs data now => exact h.push seq genUs data now
  | pop now => exact h.congr rfl (l.jb.pop_estimates now)

theorem noOverflow_of_within {bound : Int} (hb : bound < 2 ^ 63) {i : LinkInput Ctx}
    (hi : Within bound i) : NoOverflow i := by
  cases i with
  | pong payload now =>
    obtain ⟨hnow, -, hle⟩ := hi
    intro hlen
    have hsent := (inInt64_hostInt64 payload).2
    have hbound := hle hlen
    rw [roundTripUs] at hbound ⊢
    constructor <;> omega
  | push seq genUs data now => trivial
  | pop now => trivial

/-- One step goes well: nothing overflows, and all is in range after it. -/
def GoesWell (l : LinkEstimates Ctx) (i : LinkInput Ctx) : Prop :=
  NoOverflow i ∧ InRange (step l i).1

/-- **A run with round trips up to the bound goes well.** -/
theorem along_goesWell {l : LinkEstimates Ctx} (h : Bounded l) {is : List (LinkInput Ctx)}
    (his : ∀ i ∈ is, Within maxRoundTripUs i) : Runs.Along step GoesWell l is := by
  induction is generalizing l with
  | nil => trivial
  | cons i is ih =>
    have hi := his i List.mem_cons_self
    have hstep := h.step hi
    exact ⟨⟨noOverflow_of_within (by decide) hi, hstep.inRange⟩,
      ih hstep fun j hj => his j (List.mem_cons_of_mem i hj)⟩

/-- A machine whose steps are such steps, or leave the estimates alone. -/
theorem inRange_of_steps {σ ι ο : Type*} (m : Runs.Machine σ ι ο) (link : σ → LinkEstimates Ctx)
    {P : ι → Prop} (hstep : ∀ s i, P i → link (m s i).1 = link s ∨
      ∃ l, Within maxRoundTripUs l ∧ link (m s i).1 = (step (link s) l).1)
    (s : σ) (hs : Bounded (link s)) {is : List ι} (his : ∀ i ∈ is, P i) :
    InRange (link (Runs.after m s is)) := by
  have hrun : Runs.Along m (fun _ i => P i) s is := Runs.along_of_forall s fun i hi _ => his i hi
  have hbounded : Bounded (link (Runs.after m s is)) := by
    refine hrun.invariant (I := fun s => Bounded (link s)) ?_ hs
    intro s i h hi
    rcases hstep s i hi with hsame | ⟨l, hl, hnext⟩
    · exact hsame.symm ▸ h
    · exact hnext.symm ▸ h.step hl
  exact hbounded.inRange

end LinkEstimates

/-! ## The receivers -/

namespace RtpReceiver

def link (rx : RtpReceiver) : LinkEstimates RtpPkt := { curRtt := rx.curRtt, jb := rx.jb }

/-- A pong shows a round trip of at most `bound`. -/
def PongWithin (bound : Int) : RtpInput → Prop
  | .datagram buf now => (UdpHeader.read buf).payloadType = PayloadType.statsPong.code →
      LinkEstimates.Within bound
        (.pong ((UdpHeader.read buf).limit (buf.drop UdpHeader.kSize)) now : LinkInput RtpPkt)
  | .pop _ => True

/-- **A step of the receiver** is a pong, a push or a pop, or leaves the estimates alone. -/
theorem link_step (rx : RtpReceiver) {bound : Int} {i : RtpInput} (hi : PongWithin bound i) :
    (rx.step i).1.link = rx.link ∨
      ∃ l, LinkEstimates.Within bound l ∧
        (rx.step i).1.link = (LinkEstimates.step rx.link l).1 := by
  cases i with
  | datagram buf now =>
    show (rx.recv buf now).1.link = _ ∨ ∃ l, _ ∧ (rx.recv buf now).1.link = _
    unfold recv
    split_ifs with hlen hrtp hmagic hsize
    · exact Or.inl rfl
    · cases parseRtp buf with
      | none => exact Or.inl rfl
      | some p => exact Or.inr ⟨.push _ _ _ now, trivial, rfl⟩
    · exact Or.inl rfl
    · simp only [recvControl]
      by_cases hpong : (UdpHeader.read buf).payloadType = PayloadType.statsPong.code
      · rw [if_pos hpong]
        refine Or.inr ⟨.pong _ now, hi hpong, ?_⟩
        simp only [LinkEstimates.step]
        by_cases h8 : 8 ≤ ((UdpHeader.read buf).limit (buf.drop UdpHeader.kSize)).length
        · rw [if_pos h8, if_pos h8]
          rfl
        · rw [if_neg h8, if_neg h8]
      · rw [if_neg hpong]
        split_ifs <;> exact Or.inl rfl
    · exact Or.inl rfl
  | pop now =>
    refine Or.inr ⟨.pop now, trivial, ?_⟩
    show (rx.popUnit now).1.link = _
    unfold popUnit
    dsimp only
    split <;> rfl

theorem inRange_of_pongWithin {is : List RtpInput}
    (his : ∀ i ∈ is, PongWithin LinkEstimates.maxRoundTripUs i) :
    LinkEstimates.InRange (Runs.after step {} is).link :=
  LinkEstimates.inRange_of_steps step link (fun rx _ hi => rx.link_step hi) {}
    (LinkEstimates.bounded_initial 1024 true (10 * 1000)) his

end RtpReceiver

namespace UdpReceiver

def link (rx : UdpReceiver) : LinkEstimates UdpAssembled := { curRtt := rx.curRtt, jb := rx.jb }

def PongWithin (bound : Int) : UdpInput → Prop
  | .datagram buf now => (UdpHeader.read buf).payloadType = PayloadType.statsPong.code →
      LinkEstimates.Within bound (.pong (buf.drop UdpHeader.kSize) now : LinkInput UdpAssembled)
  | .pop _ => True

theorem link_onMedia (rx : UdpReceiver) (h : UdpHeader) (payload : Bytes) (now : Int) :
    (rx.onMedia h payload now).1.link = rx.link ∨
      ∃ g, (rx.onMedia h payload now).1.link =
        { rx.link with jb := (rx.jb.push g.frameId g.captureUs (some (assembled g)) now).1 } := by
  cases hu : rx.updated h payload now with
  | none =>
    rw [onMedia_of_not_updated h payload now hu]
    exact Or.inl rfl
  | some g =>
    rw [onMedia_of_updated h payload now hu]
    cases hc : complete g with
    | true =>
      rw [tryFinalize_of_complete _ _ hc]
      exact Or.inr ⟨g, rfl⟩
    | false =>
      cases hr : recoverGroup g with
      | some g' =>
        rw [tryFinalize_of_recovered _ _ hc hr]
        exact Or.inr ⟨g', rfl⟩
      | none =>
        rw [tryFinalize_of_missing _ _ hc hr]
        simp only [requestMissing]
        split_ifs <;> exact Or.inl rfl

/-- **A step of the receiver** is a pong, a push or a pop, or leaves the estimates alone. -/
theorem link_step (rx : UdpReceiver) {bound : Int} {i : UdpInput} (hi : PongWithin bound i) :
    (rx.step i).1.link = rx.link ∨
      ∃ l, LinkEstimates.Within bound l ∧
        (rx.step i).1.link = (LinkEstimates.step rx.link l).1 := by
  cases i with
  | datagram buf now =>
    show (rx.recv buf now).1.link = _ ∨ ∃ l, _ ∧ (rx.recv buf now).1.link = _
    simp only [recv]
    split_ifs with hlen hmagic hjson hpong h8
    · exact Or.inl rfl
    · exact Or.inl rfl
    · exact Or.inl rfl
    · refine Or.inr ⟨.pong _ now, hi hpong, ?_⟩
      simp only [LinkEstimates.step, if_pos h8]
      rfl
    · exact Or.inl rfl
    · rcases rx.link_onMedia (UdpHeader.read buf) (buf.drop UdpHeader.kSize) now with
        hsame | ⟨g, hpush⟩
      · exact Or.inl hsame
      · exact Or.inr ⟨.push _ _ _ now, trivial, hpush⟩
  | pop now => exact Or.inr ⟨.pop now, trivial, rfl⟩

theorem inRange_of_pongWithin {is : List UdpInput}
    (his : ∀ i ∈ is, PongWithin LinkEstimates.maxRoundTripUs i) :
    LinkEstimates.InRange (Runs.after step {} is).link :=
  LinkEstimates.inRange_of_steps step link (fun rx _ hi => rx.link_step hi) {}
    (LinkEstimates.bounded_initial 256 true (10 * 1000)) his

end UdpReceiver

end Rtstream
