import Rtstream.RtpReceiver
import Rtstream.UdpReceiver

/-!
# Timestamps that wrap, call after call

`extend_capture_us` and `extend_ts90` keep the time they return as the reference for the next
call. While each time is within half a period of the one before it, the reference is right, so the
next time is found exactly, and so on through any number of wraps.

**Theorem (`extend_exact`).** Both functions return the full times they were given the low bits of,
and their loops end.

The induction is over the calls after the first: what carries it is that the reference is the last
full time itself. It is never mistaken for "no reference", because the times are positive.
-/

namespace Rtstream

/-! ## The loops end -/

/-- Once enough turns are allowed, the candidate is near enough and more turns change nothing. -/
theorem raiseTo_ended {last cand : Int} {n : ℕ} (h : last ≤ cand + 2 ^ 31 + n * 2 ^ 32) :
    last ≤ raiseTo last n cand + 2 ^ 31 ∧
      ∀ fuel, n ≤ fuel → raiseTo last fuel cand = raiseTo last n cand := by
  induction n generalizing cand with
  | zero =>
    refine ⟨by simpa [raiseTo] using h, fun fuel _ => ?_⟩
    cases fuel with
    | zero => rfl
    | succ fuel => exact if_neg (by push_cast at h; omega)
  | succ n ih =>
    have hnext : last ≤ cand + 2 ^ 32 + 2 ^ 31 + n * 2 ^ 32 := by
      push_cast at h
      omega
    obtain ⟨hnear, hsame⟩ := ih hnext
    refine ⟨?_, fun fuel hfuel => ?_⟩
    · rw [raiseTo]
      split_ifs with hlt
      · exact hnear
      · omega
    · obtain ⟨fuel, rfl⟩ :=
        Nat.exists_eq_add_of_le' (Nat.le_trans (Nat.succ_le_succ n.zero_le) hfuel)
      rw [raiseTo, raiseTo, hsame fuel (by omega)]

/-- Lowering is raising, seen from the other side. -/
theorem lowerTo_eq_neg (last cand : Int) (fuel : ℕ) :
    lowerTo last fuel cand = -raiseTo (-last) fuel (-cand) := by
  induction fuel generalizing cand with
  | zero => exact (neg_neg cand).symm
  | succ fuel ih =>
    rw [lowerTo, raiseTo]
    by_cases hfar : cand > last + 2 ^ 31
    · rw [if_pos hfar, if_pos (by omega), ih, neg_sub', sub_neg_eq_add]
    · rw [if_neg hfar, if_neg (by omega), neg_neg]

theorem lowerTo_ended {last cand : Int} {n : ℕ} (h : cand ≤ last + 2 ^ 31 + n * 2 ^ 32) :
    lowerTo last n cand ≤ last + 2 ^ 31 ∧
      ∀ fuel, n ≤ fuel → lowerTo last fuel cand = lowerTo last n cand := by
  have hneg : -last ≤ -cand + 2 ^ 31 + n * 2 ^ 32 := by omega
  obtain ⟨hnear, hsame⟩ := raiseTo_ended hneg
  simp only [lowerTo_eq_neg]
  exact ⟨by omega, fun fuel hfuel => congrArg Neg.neg (hsame fuel hfuel)⟩

/-- One turn of each loop is enough from a spliced time. -/
theorem extendNext_eq_loops (last : Int) (lo : UInt32) {fuel : ℕ} (h : 1 ≤ fuel) :
    lowerTo last fuel (raiseTo last fuel (splice last lo)) = extendNext last lo := by
  have hbounds := splice_bounds last lo
  have hraise := (@raiseTo_ended last (splice last lo) 1 (by omega)).2
  have hlow : raiseTo last 1 (splice last lo) ≤ last + 2 ^ 31 + (1 : ℕ) * 2 ^ 32 := by
    simp only [raiseTo]
    split_ifs <;> push_cast <;> omega
  have hlower := (lowerTo_ended hlow).2
  rw [extendNext, hraise fuel h, hraise 2 (by omega), hlower fuel h, hlower 2 (by omega)]

/-! ## Call after call -/

/-- A unit of the program that extends times: a call gets low bits and what the clock reads, and
what it returns becomes the reference. -/
def extender (ticks : Int → Int) : Runs.Machine Int (UInt32 × Int) Int := fun last call =>
  let full := extendLow32 last (ticks call.2) call.1
  (full, [full])

/-- Full times in the order their packets arrive, each with what the clock reads then: the first is
within half a period of the clock, and each later one of the one before. -/
structure Steady (ticks : Int → Int) (calls : List (Int × Int)) : Prop where
  range : ∀ c ∈ calls, 0 < c.1 ∧ c.1 < 2 ^ 62
  first : ∀ c ∈ calls.head?, |c.1 - ticks c.2| < 2 ^ 31
  near : calls.IsChain fun a b => |b.1 - a.1| < 2 ^ 31

/-- What the calls are given of the full times: the low 32 bits, as the sender writes them. -/
def received (calls : List (Int × Int)) : List (UInt32 × Int) :=
  calls.map fun c => (toUInt32 c.1, c.2)

theorem trace_extender_later (ticks : Int → Int) {c : Int × Int} {calls : List (Int × Int)}
    (hpos : ∀ d ∈ c :: calls, 0 < d.1)
    (hnear : (c :: calls).IsChain fun a b => |b.1 - a.1| < 2 ^ 31) :
    Runs.trace (extender ticks) c.1 (received calls) = calls.map (·.1) := by
  induction calls generalizing c with
  | nil => rfl
  | cons d calls ih =>
    obtain ⟨hstep, hrest⟩ := List.isChain_cons_cons.mp hnear
    have hne : c.1 ≠ 0 := (hpos c List.mem_cons_self).ne'
    have hd : extendLow32 c.1 (ticks d.2) (toUInt32 d.1) = d.1 := by
      rw [extendLow32, if_neg hne, extendNext_eq (toNat_toUInt32 d.1).symm hstep]
    have hlater := ih (fun e he => hpos e (List.mem_cons_of_mem c he)) hrest
    simp only [received, List.map_cons, Runs.trace_cons, extender, hd] at hlater ⊢
    exact congrArg (d.1 :: ·) hlater

/-- **The calls return the full times**, through any number of wraps. -/
theorem trace_extender (ticks : Int → Int) {calls : List (Int × Int)} (h : Steady ticks calls) :
    Runs.trace (extender ticks) 0 (received calls) = calls.map (·.1) := by
  cases calls with
  | nil => rfl
  | cons c calls =>
    have hc : extendLow32 0 (ticks c.2) (toUInt32 c.1) = c.1 := by
      rw [extendLow32, if_pos rfl, extendFirst_eq (toNat_toUInt32 c.1).symm (h.first c rfl)]
    have hlater := trace_extender_later ticks (fun d hd => (h.range d hd).1) h.near
    simp only [received, List.map_cons, Runs.trace_cons, extender, hc] at hlater ⊢
    exact congrArg (c.1 :: ·) hlater

/-! ## In the receivers -/

/-- `extend_capture_us`, with the field it writes. -/
def UdpReceiver.extendCaptureUs : Runs.Machine UdpReceiver (UInt32 × Int) Int := fun rx call =>
  let full := extendLow32 rx.lastCaptureUs call.2 call.1
  ({ rx with lastCaptureUs := full }, [full])

/-- `extend_ts90`, with the field it writes. -/
def RtpReceiver.extendTs90s : Runs.Machine RtpReceiver (UInt32 × Int) Int := fun rx call =>
  let full := rx.extendTs90 call.1 call.2
  ({ rx with lastTs90Full := full }, [full])

/-- The local clock in 90 kHz ticks: `now_us() * 90 / 1000`. -/
def nowTicks (now : Int) : Int := (now * 90).tdiv 1000

theorem UdpReceiver.follows_extender :
    Runs.Follows extendCaptureUs (extender id)
      (fun rx last => rx.lastCaptureUs = last) id some := by
  rintro rx last call rfl
  exact ⟨rfl, rfl⟩

theorem RtpReceiver.follows_extender :
    Runs.Follows extendTs90s (extender nowTicks)
      (fun rx last => rx.lastTs90Full = last) id some := by
  rintro rx last call rfl
  exact ⟨rfl, rfl⟩

theorem UdpReceiver.tryFinalize_lastCaptureUs (rx : UdpReceiver) (g : Group) (now : Int) :
    (rx.tryFinalize g now).1.lastCaptureUs = rx.lastCaptureUs := by
  rw [tryFinalize]
  split_ifs
  · rfl
  · cases recoverGroup g with
    | some g => rfl
    | none =>
      simp only [requestMissing]
      split_ifs <;> rfl

theorem UdpReceiver.onMedia_lastCaptureUs (rx : UdpReceiver) (h : UdpHeader) (payload : Bytes)
    (now : Int) : (rx.onMedia h payload now).1.lastCaptureUs =
      (rx.extendCaptureUs (h.captureUsLo, now)).1.lastCaptureUs := by
  simp only [onMedia]
  split_ifs
  · exact tryFinalize_lastCaptureUs _ _ now
  · exact tryFinalize_lastCaptureUs _ _ now
  · rfl

theorem RtpReceiver.pushPacket_lastTs90Full (rx : RtpReceiver) (p : RtpPkt) (now : Int) :
    (rx.pushPacket p now).1.lastTs90Full = (rx.extendTs90s (p.ts, now)).1.lastTs90Full := rfl

/-- **Main theorem.** Both functions return the full times, whatever else the receiver holds, and
from every candidate the loops end with a time near enough. -/
theorem extend_exact :
    (∀ (rx : UdpReceiver) (calls : List (Int × Int)), rx.lastCaptureUs = 0 → Steady id calls →
      Runs.trace UdpReceiver.extendCaptureUs rx (received calls) = calls.map (·.1)) ∧
    (∀ (rx : RtpReceiver) (calls : List (Int × Int)), rx.lastTs90Full = 0 → Steady nowTicks calls →
      Runs.trace RtpReceiver.extendTs90s rx (received calls) = calls.map (·.1)) ∧
    (∀ last cand : Int, ∃ n : ℕ, last ≤ raiseTo last n cand + 2 ^ 31 ∧
      ∀ fuel, n ≤ fuel → raiseTo last fuel cand = raiseTo last n cand) ∧
    (∀ last cand : Int, ∃ n : ℕ, lowerTo last n cand ≤ last + 2 ^ 31 ∧
      ∀ fuel, n ≤ fuel → lowerTo last fuel cand = lowerTo last n cand) ∧
    (∀ (last : Int) (lo : UInt32) (fuel : ℕ), 1 ≤ fuel →
      lowerTo last fuel (raiseTo last fuel (splice last lo)) = extendNext last lo) := by
  refine ⟨?_, ?_, ?_, ?_, fun last lo fuel => extendNext_eq_loops last lo⟩
  · intro rx calls hrx h
    have hrun := (UdpReceiver.follows_extender.run hrx (received calls)).2
    rw [List.map_id, List.filterMap_some] at hrun
    rw [hrun, trace_extender id h]
  · intro rx calls hrx h
    have hrun := (RtpReceiver.follows_extender.run hrx (received calls)).2
    rw [List.map_id, List.filterMap_some] at hrun
    rw [hrun, trace_extender nowTicks h]
  · intro last cand
    exact ⟨(last - cand).toNat, raiseTo_ended (by omega)⟩
  · intro last cand
    exact ⟨(cand - last).toNat, lowerTo_ended (by omega)⟩

/-- Three packets across a wrap, the second out of order. -/
theorem extend_exact_wrap :
    Runs.trace UdpReceiver.extendCaptureUs {}
        (received [(2 ^ 32 - 1, 2 ^ 32 + 5), (2 ^ 32 - 7, 2 ^ 32 + 6), (2 ^ 32 + 3, 2 ^ 32 + 9)]) =
      [2 ^ 32 - 1, 2 ^ 32 - 7, 2 ^ 32 + 3] ∧
    Runs.trace RtpReceiver.extendTs90s {}
      (received [(2 ^ 32 - 1, 47721858845), (2 ^ 32, 47721858846)]) =
      [2 ^ 32 - 1, 2 ^ 32] :=
  ⟨extend_exact.1 {} _ rfl ⟨by simp, by simp [abs_lt], by simp [abs_lt]⟩,
    extend_exact.2.1 {} _ rfl ⟨by simp, by simp [nowTicks, abs_lt], by simp [abs_lt]⟩⟩

end Rtstream
