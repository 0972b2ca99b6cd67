import Mathlib.Data.List.Rotate
import Mathlib.Tactic.Common

/-!
# Ring buffers

A buffer of fixed length is overwritten at a head that moves on by one and wraps. Read from the
head on, around the end, it is a window over everything written, the oldest entry first: writing
drops the first entry and appends the new one (`rotate_set`). `Holds` says of a buffer that it is
such a window, of what it was filled with at first and of what has been written since
(`holds_fill`, `Holds.write`).

Read as a plain prefix instead, it gives the same entries in another order: all of them while
there is room (`Holds.take`), the last ones after that (`Holds.perm`).
-/

namespace RingBuffer

variable {α : Type*}

/-- **Writing at the head** moves the window by one entry. -/
theorem rotate_set {buf : List α} {head : ℕ} (h : head < buf.length) (x : α) :
    (buf.set head x).rotate ((head + 1) % buf.length) = (buf.rotate head).tail ++ [x] := by
  have hmod := List.rotate_mod (buf.set head x) (head + 1)
  rw [List.length_set] at hmod
  rw [hmod, List.rotate_eq_drop_append_take (by simpa using Nat.succ_le_of_lt h),
    List.rotate_eq_drop_append_take h.le, List.drop_eq_getElem_cons h, List.cons_append,
    List.tail_cons, List.drop_set_of_lt (Nat.lt_succ_self head), List.take_set,
    List.take_add_one, List.getElem?_eq_getElem h, Option.toList_some, List.append_assoc]
  congr 1
  rw [List.set_append_right _ _ (by rw [List.length_take]; exact min_le_left _ _),
    List.length_take, min_eq_left h.le, Nat.sub_self]
  rfl

/-- `buf`, read from `head` on, is the window over `written`, after a first filling with `fill`. -/
structure Holds (fill : α) (buf : List α) (head : ℕ) (written : List α) : Prop where
  head_eq : head = written.length % buf.length
  window : buf.rotate head = (List.replicate buf.length fill ++ written).drop written.length

variable {fill : α} {buf : List α} {head : ℕ} {written : List α}

theorem holds_fill (fill : α) (n : ℕ) : Holds fill (List.replicate n fill) 0 [] where
  head_eq := (Nat.zero_mod _).symm
  window := by simp

theorem Holds.write (h : Holds fill buf head written) (hpos : 0 < buf.length) (x : α) :
    Holds fill (buf.set head x) ((head + 1) % buf.length) (written ++ [x]) where
  head_eq := by
    rw [List.length_set, List.length_append, List.length_singleton, h.head_eq, Nat.mod_add_mod]
  window := by
    have hlt : head < buf.length := h.head_eq ▸ Nat.mod_lt _ hpos
    rw [rotate_set hlt, h.window, List.length_set, List.tail_drop, List.length_append,
      List.length_singleton, ← List.append_assoc]
    refine (List.drop_append_of_le_length ?_).symm
    rw [List.length_append, List.length_replicate]
    omega

/-- Until the buffer is full, its prefix is what has been written. -/
theorem Holds.take (h : Holds fill buf head written) (hle : written.length ≤ buf.length) :
    buf.take written.length = written := by
  have hwindow := h.window
  rw [h.head_eq, List.rotate_mod, List.rotate_eq_drop_append_take hle,
    List.drop_append_of_le_length (by simpa using hle)] at hwindow
  exact (List.append_inj hwindow (by simp)).2

/-- A full buffer has the last entries written, in some order. -/
theorem Holds.perm (h : Holds fill buf head written) (hle : buf.length ≤ written.length) :
    buf.Perm (written.drop (written.length - buf.length)) := by
  have hwindow := h.window
  have hdrop : (List.replicate buf.length fill ++ written).drop written.length =
      written.drop (written.length - buf.length) := by
    rw [List.drop_append, List.drop_eq_nil_of_le (by simpa using hle), List.length_replicate,
      List.nil_append]
  rw [hdrop] at hwindow
  exact hwindow ▸ (List.rotate_perm buf head).symm

/-- **The prefix that is filled** has the last entries written. -/
theorem Holds.take_perm (h : Holds fill buf head written) :
    (buf.take (min written.length buf.length)).Perm
      (written.drop (written.length - buf.length)) := by
  rcases Nat.le_total written.length buf.length with hle | hle
  · rw [min_eq_left hle, h.take hle, Nat.sub_eq_zero_of_le hle, List.drop_zero]
  · rw [min_eq_right hle, List.take_length]
    exact h.perm hle

end RingBuffer
