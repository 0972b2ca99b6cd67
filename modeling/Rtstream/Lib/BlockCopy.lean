import Rtstream.Lib.Slices

/-!
# Copying blocks

A program of copies: each takes a block of a source and puts it at a place of one destination.

When every copy stays in its source and in the destination, the program runs through
(`exists_runAll`). When no two write to the same place, it does not matter in what order they are
made: each block stands in the destination as it stood in its source (`slice_runAll`).
-/

namespace Slices

variable {α : Type*}

/-- A copy of `len` entries from `off` on in `src` to `dst` in the destination. -/
structure BlockCopy (α : Type*) where
  dst : ℕ
  src : List α
  off : ℕ
  len : ℕ
  deriving DecidableEq, Repr

theorem getElem?_slice {xs : List α} {off len k : ℕ} (hk : k < len) :
    (slice xs off len)[k]? = xs[off + k]? := by
  rw [slice, List.getElem?_take_of_lt hk, List.getElem?_drop]

namespace BlockCopy

/-- The copy stays in the source and in a destination of that length. -/
def Fits (size : ℕ) (c : BlockCopy α) : Prop :=
  c.dst + c.len ≤ size ∧ c.off + c.len ≤ c.src.length

instance (size : ℕ) (c : BlockCopy α) : Decidable (c.Fits size) :=
  inferInstanceAs (Decidable (_ ∧ _))

/-- The block. -/
def block (c : BlockCopy α) : List α := slice c.src c.off c.len

def run (c : BlockCopy α) (out : List α) : List α :=
  out.take c.dst ++ c.block ++ out.drop (c.dst + c.len)

/-- One copy after the other, as long as they stay where they may. -/
def runAll : List (BlockCopy α) → List α → Option (List α)
  | [], out => some out
  | c :: cs, out => if c.Fits out.length then runAll cs (c.run out) else none

/-- They write to different places. -/
def Disjoint (c c' : BlockCopy α) : Prop := c.dst + c.len ≤ c'.dst ∨ c'.dst + c'.len ≤ c.dst

variable {c : BlockCopy α} {cs : List (BlockCopy α)} {out out' : List α}

/-- The copy of one row of a picture. The rows are `pitch` apart in the source, and one behind the
other from `base` on in the destination. -/
def row (base width : ℕ) (src : List α) (pitch i : ℕ) : BlockCopy α where
  dst := base + i * width
  src := src
  off := i * pitch
  len := width

section Run

variable (h : c.Fits out.length)
include h

theorem length_block : c.block.length = c.len := by
  have hsource := h.2
  rw [block, length_slice]
  omega

theorem length_run : (c.run out).length = out.length := by
  have hplace := h.1
  rw [run, List.length_append, List.length_append, length_block h, List.length_take,
    List.length_drop]
  omega

theorem slice_run : slice (c.run out) c.dst c.len = c.block := by
  have hplace := h.1
  rw [run, List.append_assoc]
  exact slice_middle _ _ _ (by rw [List.length_take]; omega) (length_block h)

theorem getElem?_run_of_outside {k : ℕ} (hk : k < c.dst ∨ c.dst + c.len ≤ k) :
    (c.run out)[k]? = out[k]? := by
  have hplace := h.1
  have hblock := length_block h
  rw [run]
  rcases hk with hk | hk
  · rw [List.append_assoc, List.getElem?_append_left (by rw [List.length_take]; omega),
      List.getElem?_take_of_lt hk]
  · have hfront : (out.take c.dst ++ c.block).length = c.dst + c.len := by
      rw [List.length_append, hblock, List.length_take]
      omega
    rw [List.getElem?_append_right (by omega), hfront, List.getElem?_drop]
    congr 1
    omega

theorem slice_run_of_disjoint {off len : ℕ} (hdis : off + len ≤ c.dst ∨ c.dst + c.len ≤ off) :
    slice (c.run out) off len = slice out off len := by
  refine List.ext_getElem? fun k => ?_
  by_cases hk : k < len
  · rw [getElem?_slice hk, getElem?_slice hk, getElem?_run_of_outside h (by omega)]
  · rw [List.getElem?_eq_none (by rw [length_slice]; omega),
      List.getElem?_eq_none (by rw [length_slice]; omega)]

end Run

/-- **A program whose copies fit runs through**, and the destination keeps its length. -/
theorem exists_runAll (h : ∀ c ∈ cs, c.Fits out.length) :
    ∃ out', runAll cs out = some out' ∧ out'.length = out.length := by
  induction cs generalizing out with
  | nil => exact ⟨out, rfl, rfl⟩
  | cons c cs ih =>
    obtain ⟨hc, hcs⟩ := List.forall_mem_cons.1 h
    have hlen := length_run hc
    obtain ⟨out', hrun, hlen'⟩ := ih (hlen ▸ hcs)
    exact ⟨out', by rw [runAll, if_pos hc, hrun], hlen'.trans hlen⟩

/-- What a program does not overwrite stays. -/
theorem slice_runAll_of_disjoint (h : runAll cs out = some out') {off len : ℕ}
    (hdis : ∀ c ∈ cs, off + len ≤ c.dst ∨ c.dst + c.len ≤ off) :
    slice out' off len = slice out off len := by
  induction cs generalizing out with
  | nil => rw [Option.some.inj h]
  | cons c cs ih =>
    obtain ⟨hc, hcs⟩ := List.forall_mem_cons.1 hdis
    rw [runAll] at h
    split_ifs at h with hfits
    rw [ih h hcs, slice_run_of_disjoint hfits hc]

/-- **Each block stands where it was put**, when no two are put in the same place. -/
theorem slice_runAll (h : runAll cs out = some out') (hdis : cs.Pairwise Disjoint) :
    ∀ c ∈ cs, slice out' c.dst c.len = c.block := by
  induction cs generalizing out with
  | nil => exact fun c hc => absurd hc List.not_mem_nil
  | cons c cs ih =>
    obtain ⟨hc, hcs⟩ := List.pairwise_cons.1 hdis
    rw [runAll] at h
    split_ifs at h with hfits
    refine List.forall_mem_cons.2 ⟨?_, ih h hcs⟩
    rw [slice_runAll_of_disjoint h hc, slice_run hfits]

end BlockCopy

end Slices
