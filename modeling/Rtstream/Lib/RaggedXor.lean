import Mathlib.Data.List.Basic
import Mathlib.Order.MinMax

/-!
# XOR of byte strings of different lengths

Strings are read as continued with zeros (`byteAt`), so strings of different lengths can be
added position by position. `column ds j` is the XOR of all strings at position `j`.

The use is single-erasure recovery: the column sums of all strings, added to those of all but
one, leave the missing one (`column_set_nil`), with the zeros it was read with
(`eq_pad_of_byteAt`).
-/

namespace RaggedXor

/-- Byte `j` of a string continued with zeros. -/
def byteAt (d : List UInt8) (j : ℕ) : UInt8 := d.getD j 0

/-- The XOR of all strings at position `j`. -/
def column (ds : List (List UInt8)) (j : ℕ) : UInt8 := ds.foldr (fun d a => byteAt d j ^^^ a) 0

/-- The string filled with zeros up to length `n`. -/
def pad (n : ℕ) (d : List UInt8) : List UInt8 := d ++ List.replicate (n - d.length) 0

/-- The longest length. -/
def maxLen (ds : List (List UInt8)) : ℕ := ds.foldl (fun m d => max m d.length) 0

/-- XOR `d` into `acc`, position by position, as far as both go. -/
def xorInto : List UInt8 → List UInt8 → List UInt8
  | a :: acc, b :: d => (a ^^^ b) :: xorInto acc d
  | acc, [] => acc
  | [], _ :: _ => []

/-! ## Reading strings byte by byte -/

@[simp] theorem byteAt_nil (j : ℕ) : byteAt [] j = 0 := by simp [byteAt]
@[simp] theorem byteAt_cons_zero (b : UInt8) (d : List UInt8) : byteAt (b :: d) 0 = b := rfl
@[simp] theorem byteAt_cons_succ (b : UInt8) (d : List UInt8) (j : ℕ) :
    byteAt (b :: d) (j + 1) = byteAt d j := by simp [byteAt]

theorem byteAt_of_lt {d : List UInt8} {j : ℕ} (h : j < d.length) : byteAt d j = d[j] := by
  simp [byteAt, h]

theorem byteAt_of_le {d : List UInt8} {j : ℕ} (h : d.length ≤ j) : byteAt d j = 0 := by
  simp [byteAt, h]

theorem byteAt_replicate_zero (n j : ℕ) : byteAt (List.replicate n 0) j = 0 := by
  by_cases h : j < n
  · simp [byteAt_of_lt (d := List.replicate n 0) (by simpa using h)]
  · exact byteAt_of_le (by simpa using Nat.le_of_not_lt h)

theorem length_pad {n : ℕ} {d : List UInt8} (h : d.length ≤ n) : (pad n d).length = n := by
  simp only [pad, List.length_append, List.length_replicate]
  omega

theorem pad_self (d : List UInt8) : pad d.length d = d := by simp [pad]

/-- A string is determined by its length and its bytes: with the bytes of `d`, it is `d` filled
up to its own length. -/
theorem eq_pad_of_byteAt {e d : List UInt8} (hlen : d.length ≤ e.length)
    (h : ∀ j, j < e.length → byteAt e j = byteAt d j) : e = pad e.length d := by
  apply List.ext_getElem (length_pad hlen).symm
  intro j hj _
  rw [← byteAt_of_lt hj, h j hj]
  by_cases hjd : j < d.length
  · simp [pad, List.getElem_append_left hjd, byteAt_of_lt hjd]
  · simp only [pad, List.getElem_append_right (Nat.le_of_not_lt hjd), List.getElem_replicate]
    exact byteAt_of_le (Nat.le_of_not_lt hjd)

/-! ## Column sums -/

@[simp] theorem column_nil (j : ℕ) : column [] j = 0 := rfl
@[simp] theorem column_cons (d : List UInt8) (ds : List (List UInt8)) (j : ℕ) :
    column (d :: ds) j = byteAt d j ^^^ column ds j := rfl

theorem column_append (ds es : List (List UInt8)) (j : ℕ) :
    column (ds ++ es) j = column ds j ^^^ column es j := by
  induction ds with
  | nil => simp
  | cons d ds ih => simp [ih, UInt8.xor_assoc]

/-- **Erasing one string takes it out of every column.** -/
theorem column_set_nil (ds : List (List UInt8)) {i : ℕ} (hi : i < ds.length) (j : ℕ) :
    column (ds.set i []) j ^^^ column ds j = byteAt ds[i] j := by
  induction ds generalizing i with
  | nil => exact absurd hi (Nat.not_lt_zero i)
  | cons d ds ih =>
    cases i with
    | zero =>
      simp only [List.set_cons_zero, column_cons, byteAt_nil, UInt8.zero_xor,
        List.getElem_cons_zero]
      rw [UInt8.xor_comm (byteAt d j), ← UInt8.xor_assoc, UInt8.xor_self, UInt8.zero_xor]
    | succ i =>
      simp only [List.set_cons_succ, column_cons, List.getElem_cons_succ]
      rw [← ih (by simpa using hi)]
      calc byteAt d j ^^^ column (ds.set i []) j ^^^ (byteAt d j ^^^ column ds j)
          = (byteAt d j ^^^ byteAt d j) ^^^ (column (ds.set i []) j ^^^ column ds j) := by
            rw [UInt8.xor_assoc, UInt8.xor_assoc,
              ← UInt8.xor_assoc (column (ds.set i []) j), UInt8.xor_comm _ (byteAt d j),
              UInt8.xor_assoc]
        _ = column (ds.set i []) j ^^^ column ds j := by rw [UInt8.xor_self, UInt8.zero_xor]

/-! ## The accumulating loop -/

@[simp] theorem length_xorInto (acc d : List UInt8) : (xorInto acc d).length = acc.length := by
  fun_induction xorInto acc d with
  | case1 a acc b d ih => simp [ih]
  | case2 acc => rfl
  | case3 b d => rfl

theorem byteAt_xorInto {acc d : List UInt8} {j : ℕ} (h : j < acc.length) :
    byteAt (xorInto acc d) j = byteAt acc j ^^^ byteAt d j := by
  fun_induction xorInto acc d generalizing j with
  | case1 a acc b d ih =>
    cases j with
    | zero => rfl
    | succ j => simpa using ih (by simpa using h)
  | case2 acc => simp
  | case3 b d => exact absurd h (Nat.not_lt_zero j)

@[simp] theorem length_foldl_xorInto (ds : List (List UInt8)) (acc : List UInt8) :
    (ds.foldl xorInto acc).length = acc.length := by
  induction ds generalizing acc with
  | nil => rfl
  | cons d ds ih => simp [ih]

theorem byteAt_foldl_xorInto (ds : List (List UInt8)) {acc : List UInt8} {j : ℕ}
    (h : j < acc.length) :
    byteAt (ds.foldl xorInto acc) j = byteAt acc j ^^^ column ds j := by
  induction ds generalizing acc with
  | nil => simp
  | cons d ds ih =>
    rw [List.foldl_cons, ih (by simpa using h), byteAt_xorInto h, column_cons, UInt8.xor_assoc]

/-! ## The longest length -/

theorem le_foldl_max (ds : List (List UInt8)) (m : ℕ) :
    m ≤ ds.foldl (fun m d => max m d.length) m := by
  induction ds generalizing m with
  | nil => exact le_rfl
  | cons d ds ih => exact (le_max_left m d.length).trans (ih _)

theorem length_le_foldl_max {ds : List (List UInt8)} {d : List UInt8} (h : d ∈ ds) (m : ℕ) :
    d.length ≤ ds.foldl (fun m d => max m d.length) m := by
  induction ds generalizing m with
  | nil => simp at h
  | cons e ds ih =>
    rcases List.mem_cons.1 h with rfl | h
    · exact (le_max_right m d.length).trans (le_foldl_max ds _)
    · exact ih h _

theorem length_le_maxLen {ds : List (List UInt8)} {d : List UInt8} (h : d ∈ ds) :
    d.length ≤ maxLen ds := length_le_foldl_max h 0

theorem foldl_max_le {ds : List (List UInt8)} {m n : ℕ} (hm : m ≤ n)
    (h : ∀ d ∈ ds, d.length ≤ n) : ds.foldl (fun m d => max m d.length) m ≤ n := by
  induction ds generalizing m with
  | nil => exact hm
  | cons d ds ih =>
    exact ih (max_le hm (h d List.mem_cons_self)) fun e he => h e (List.mem_cons_of_mem d he)

theorem maxLen_le {ds : List (List UInt8)} {n : ℕ} (h : ∀ d ∈ ds, d.length ≤ n) :
    maxLen ds ≤ n := foldl_max_le (Nat.zero_le n) h

theorem maxLen_concat (ds : List (List UInt8)) (d : List UInt8) :
    maxLen (ds ++ [d]) = max (maxLen ds) d.length := by simp [maxLen]

theorem column_of_le {ds : List (List UInt8)} {j : ℕ} (h : maxLen ds ≤ j) : column ds j = 0 := by
  have hall : ∀ d ∈ ds, d.length ≤ j := fun d hd => (length_le_maxLen hd).trans h
  clear h
  induction ds with
  | nil => rfl
  | cons d ds ih =>
    rw [column_cons, byteAt_of_le (hall d List.mem_cons_self),
      ih fun e he => hall e (List.mem_cons_of_mem d he), UInt8.zero_xor]

/-- The XOR of the strings, cut or filled with zeros to length `n`. -/
theorem eq_foldl_xorInto_iff {ds : List (List UInt8)} {n : ℕ} {e : List UInt8} :
    e = ds.foldl xorInto (List.replicate n 0) ↔
      e.length = n ∧ ∀ j < n, byteAt e j = column ds j := by
  have hbyte : ∀ j < n, byteAt (ds.foldl xorInto (List.replicate n 0)) j = column ds j := by
    intro j hj
    rw [byteAt_foldl_xorInto _ (by simpa using hj), byteAt_replicate_zero, UInt8.zero_xor]
  constructor
  · rintro rfl
    exact ⟨by simp, hbyte⟩
  · rintro ⟨hlength, h⟩
    have hpad := eq_pad_of_byteAt (d := ds.foldl xorInto (List.replicate n 0)) (e := e)
      (by simp [hlength]) fun j hj => by rw [h j (hlength ▸ hj), hbyte j (hlength ▸ hj)]
    rw [hpad, hlength]
    simp [pad]

end RaggedXor
