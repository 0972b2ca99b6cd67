import Mathlib.Algebra.Order.Field.Basic
import Mathlib.Tactic.GCongr
import Mathlib.Tactic.Ring

/-!
# Exponentially weighted moving averages

A sample moves the average towards itself by a fixed part of the distance. The average is between
the old one and the sample, so it stays where the samples are (`le_blend`, `blend_le`), and it
never quite reaches a bound that it has not reached before (`blend_lt`): what is left of the
distance shrinks by the same factor each time (`sub_blend`).
-/

namespace MovingAverage

variable {K : Type*} [Field K] {w avg x lo hi : K}

/-- The average after a sample of weight `w`. -/
def blend (w avg x : K) : K := avg + (x - avg) * w

theorem blend_eq (w avg x : K) : blend w avg x = (1 - w) * avg + w * x := by
  rw [blend]
  ring

theorem sub_blend (w avg x : K) : x - blend w avg x = (1 - w) * (x - avg) := by
  rw [blend]
  ring

variable [LinearOrder K] [IsStrictOrderedRing K]

theorem blend_le (hw : 0 ≤ w) (hw1 : w ≤ 1) (havg : avg ≤ hi) (hx : x ≤ hi) :
    blend w avg x ≤ hi := by
  have hrest : 0 ≤ 1 - w := sub_nonneg.2 hw1
  calc blend w avg x = (1 - w) * avg + w * x := blend_eq w avg x
    _ ≤ (1 - w) * hi + w * hi := by gcongr
    _ = hi := by ring

theorem le_blend (hw : 0 ≤ w) (hw1 : w ≤ 1) (havg : lo ≤ avg) (hx : lo ≤ x) :
    lo ≤ blend w avg x := by
  have hrest : 0 ≤ 1 - w := sub_nonneg.2 hw1
  calc lo = (1 - w) * lo + w * lo := by ring
    _ ≤ (1 - w) * avg + w * x := by gcongr
    _ = blend w avg x := (blend_eq w avg x).symm

theorem blend_lt (hw : 0 ≤ w) (hw1 : w < 1) (havg : avg < hi) (hx : x ≤ hi) :
    blend w avg x < hi := by
  have hrest : 0 < 1 - w := sub_pos.2 hw1
  calc blend w avg x = (1 - w) * avg + w * x := blend_eq w avg x
    _ < (1 - w) * hi + w * x := by gcongr
    _ ≤ (1 - w) * hi + w * hi := by gcongr
    _ = hi := by ring

end MovingAverage
