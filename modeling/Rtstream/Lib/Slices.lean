import Mathlib.Data.List.Basic
import Mathlib.Tactic.Ring

/-!
# Cutting a list into pieces

`slice xs off len` is the part of `xs` from `off`, at most `len` long. Cut every `n` entries,
the first `k` pieces put together are the first `k * n` entries (`flatten_slices`).
-/

namespace Slices

variable {α : Type*}

/-- The part of `xs` starting at `off`, at most `len` long. -/
def slice (xs : List α) (off len : ℕ) : List α := (xs.drop off).take len

@[simp] theorem length_slice (xs : List α) (off len : ℕ) :
    (slice xs off len).length = min len (xs.length - off) := by simp [slice]

theorem slice_middle (xs ys zs : List α) {off len : ℕ} (hoff : xs.length = off)
    (hlen : ys.length = len) : slice (xs ++ (ys ++ zs)) off len = ys := by
  rw [slice, ← hoff, List.drop_left, ← hlen, List.take_left]

/-- **The pieces put together are the list**, as far as they reach. -/
theorem flatten_slices (xs : List α) (n k : ℕ) :
    ((List.range k).map fun i => slice xs (i * n) n).flatten = xs.take (k * n) := by
  induction k with
  | zero => simp
  | succ k ih =>
    rw [List.range_succ, List.map_append, List.flatten_append, ih, add_mul, one_mul]
    simp only [List.map_cons, List.map_nil, List.flatten_cons, List.flatten_nil, List.append_nil,
      slice]
    rw [List.take_add]

/-! ## Cutting what was put together -/

variable {xs : List (List α)} {n : ℕ}

theorem length_flatten_of_length (h : ∀ x ∈ xs, x.length = n) :
    xs.flatten.length = xs.length * n := by
  induction xs with
  | nil => simp
  | cons x xs ih =>
    rw [List.flatten_cons, List.length_append, h x List.mem_cons_self,
      ih fun y hy => h y (List.mem_cons_of_mem x hy), List.length_cons, add_mul, one_mul, add_comm]

/-- **Cutting gives the pieces back**, when all are of one length. -/
theorem slice_flatten (h : ∀ x ∈ xs, x.length = n) {k : ℕ} (hk : k < xs.length) :
    slice xs.flatten (k * n) n = xs[k] := by
  induction xs generalizing k with
  | nil => exact absurd hk (Nat.not_lt_zero k)
  | cons x xs ih =>
    have hx : x.length = n := h x List.mem_cons_self
    cases k with
    | zero =>
      rw [slice, zero_mul, List.drop_zero, List.flatten_cons, ← hx, List.take_left]
      rfl
    | succ k =>
      have := ih (fun y hy => h y (List.mem_cons_of_mem x hy)) (k := k) (by simpa using hk)
      rw [slice, List.flatten_cons, add_mul, one_mul, add_comm, ← hx, List.drop_append,
        List.drop_of_length_le (by omega)]
      simpa [slice, ← hx] using this

end Slices
