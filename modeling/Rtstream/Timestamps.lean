import Rtstream.MediaTypes
import Mathlib.Algebra.Order.Group.Abs
import Mathlib.Tactic.Common

/-!
# Timestamps that wrap

A header carries the low 32 bits of a 64-bit time. `extend_capture_us` and `extend_ts90` rebuild
the full time as the one with these low bits that lies nearest to a reference: the receiver's
own clock for the first packet, the previous packet's time after it. Both are `extendLow32`, in
microseconds and in 90 kHz ticks.
-/

namespace Rtstream

/-- `(ref & ~0xFFFFFFFFLL) | lo`. -/
def splice (ref : Int) (lo : UInt32) : Int := ref - ref % 2 ^ 32 + lo.toNat

/-- The first time: the spliced one, moved by one period when it is too far from `now`. -/
def extendFirst (now : Int) (lo : UInt32) : Int :=
  let cand := splice now lo
  let cand := if cand > now + 2 ^ 31 then cand - 2 ^ 32 else cand
  if cand < now - 2 ^ 31 then cand + 2 ^ 32 else cand

/-- `while (cand + (1LL << 31) < last) cand += (1LL << 32);` -/
def raiseTo (last : Int) : ℕ → Int → Int
  | 0, cand => cand
  | fuel + 1, cand => if cand + 2 ^ 31 < last then raiseTo last fuel (cand + 2 ^ 32) else cand

/-- `while (cand > last + (1LL << 31)) cand -= (1LL << 32);` -/
def lowerTo (last : Int) : ℕ → Int → Int
  | 0, cand => cand
  | fuel + 1, cand => if cand > last + 2 ^ 31 then lowerTo last fuel (cand - 2 ^ 32) else cand

/-- A later time: the spliced one, moved until it is near the previous time. One turn of a loop
is enough (`extendNext_near`), so the fuel is not felt. -/
def extendNext (last : Int) (lo : UInt32) : Int := lowerTo last 2 (raiseTo last 2 (splice last lo))

/-- The full time of a packet with low bits `lo`. A previous time of 0 stands for none. -/
def extendLow32 (last now : Int) (lo : UInt32) : Int :=
  if last = 0 then extendFirst now lo else extendNext last lo

theorem splice_bounds (ref : Int) (lo : UInt32) :
    ref - 2 ^ 32 < splice ref lo ∧ splice ref lo < ref + 2 ^ 32 := by
  have := lo.toNat_lt
  unfold splice
  omega

/-- **The loops have run to their end**: the time found is within half a period of the last. -/
theorem extendNext_near (last : Int) (lo : UInt32) :
    last ≤ extendNext last lo + 2 ^ 31 ∧ extendNext last lo ≤ last + 2 ^ 31 := by
  have := splice_bounds last lo
  simp only [extendNext, raiseTo, lowerTo]
  split_ifs <;> omega

theorem extendLow32_emod (last now : Int) (lo : UInt32) :
    extendLow32 last now lo % 2 ^ 32 = lo.toNat := by
  have := lo.toNat_lt
  simp only [extendLow32, extendFirst, extendNext, raiseTo, lowerTo, splice]
  split_ifs <;> omega

/-- A later time is the one near the previous time. -/
theorem extendNext_eq {last x : Int} {lo : UInt32} (hlow : x % 2 ^ 32 = lo.toNat)
    (hnear : |x - last| < 2 ^ 31) : extendNext last lo = x := by
  have hlt := lo.toNat_lt
  rw [abs_lt] at hnear
  simp only [extendNext, raiseTo, lowerTo, splice]
  split_ifs <;> omega

/-- The first time is the one near the clock. -/
theorem extendFirst_eq {now x : Int} {lo : UInt32} (hlow : x % 2 ^ 32 = lo.toNat)
    (hnear : |x - now| < 2 ^ 31) : extendFirst now lo = x := by
  have hlt := lo.toNat_lt
  rw [abs_lt] at hnear
  simp only [extendFirst, splice]
  split_ifs <;> omega

/-- **The last time is found again** from its own low bits; without a last time, also the clock must
be within half a period of zero. -/
theorem extendLow32_eq_last_iff (last now : Int) (lo : UInt32) :
    extendLow32 last now lo = last ↔
      (lo.toNat : Int) = last % 2 ^ 32 ∧ (last = 0 → -2 ^ 31 < now ∧ now ≤ 2 ^ 31) := by
  have hlow := extendLow32_emod last now lo
  have hnext : (lo.toNat : Int) = last % 2 ^ 32 → extendNext last lo = last := by
    intro h
    have hsplice : splice last lo = last := by
      rw [splice, h]
      omega
    simp only [extendNext, raiseTo, lowerTo, hsplice]
    split_ifs <;> omega
  have hfirst : (lo.toNat : Int) = 0 → (extendFirst now lo = 0 ↔ -2 ^ 31 < now ∧ now ≤ 2 ^ 31) := by
    intro h
    simp only [extendFirst, splice, h]
    split_ifs <;> omega
  by_cases hlast : last = 0
  · subst hlast
    rw [extendLow32, if_pos rfl] at hlow ⊢
    constructor
    · intro h
      have hzero : (lo.toNat : Int) = 0 := by rw [← hlow, h]; rfl
      exact ⟨hzero, fun _ => (hfirst hzero).1 h⟩
    · intro h
      exact (hfirst h.1).2 (h.2 rfl)
  · rw [extendLow32, if_neg hlast] at hlow ⊢
    constructor
    · intro h
      rw [h] at hlow
      exact ⟨hlow.symm, fun h => absurd h hlast⟩
    · intro h
      exact hnext h.1

end Rtstream
