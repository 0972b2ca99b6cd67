import Mathlib.Data.BitVec
import Mathlib.Tactic.Ring

/-!
# Serial numbers

Counters that wrap are compared by the sign of their difference: `a` is before `b` when
`a - b`, read as a signed number, is negative. The relation is not an order on all numbers. It
is one inside any window of half the number space, where it says what the distances from the
start of the window say (`before_iff`).
-/

namespace Serial

variable {w : ℕ}

/-- `a` is before `b`: their difference is negative as a signed number. -/
def Before (a b : BitVec (w + 1)) : Prop := (a - b).msb = true

instance (a b : BitVec (w + 1)) : Decidable (Before a b) := inferInstanceAs (Decidable (_ = true))

/-- How far `a` is past `base`, going forward. -/
def offset (base a : BitVec (w + 1)) : ℕ := (a - base).toNat

theorem offset_succ {base a : BitVec (w + 1)} (h : offset base a + 1 < 2 * 2 ^ w) :
    offset base (a + 1) = offset base a + 1 := by
  have hsum : a + 1 - base = (a - base) + 1 := by ring
  have hone : (1 : BitVec (w + 1)).toNat = 1 := by
    simp [Nat.mod_eq_of_lt (Nat.one_lt_two_pow (Nat.succ_ne_zero w))]
  simp only [offset] at h ⊢
  rw [hsum, BitVec.toNat_add, hone, Nat.mod_eq_of_lt]
  rw [pow_succ]
  omega

/-- **Inside a half window the comparison is the order of the offsets.** -/
theorem before_iff {base a b : BitVec (w + 1)} (ha : offset base a < 2 ^ w)
    (hb : offset base b ≤ 2 ^ w) : Before a b ↔ offset base a < offset base b := by
  have hdiff : a - b = (a - base) - (b - base) := by ring
  simp only [offset] at ha hb ⊢
  rw [Before, BitVec.msb_eq_decide, decide_eq_true_iff, hdiff, BitVec.toNat_sub, Nat.add_sub_cancel,
    pow_succ]
  by_cases hlt : (a - base).toNat < (b - base).toNat
  · simp only [hlt, iff_true]
    rw [Nat.mod_eq_of_lt (by omega)]
    omega
  · simp only [hlt, iff_false, not_le]
    rw [show 2 ^ w * 2 - (b - base).toNat + (a - base).toNat =
      ((a - base).toNat - (b - base).toNat) + 2 ^ w * 2 by omega, Nat.add_mod_right,
      Nat.mod_eq_of_lt (by omega)]
    omega

end Serial
