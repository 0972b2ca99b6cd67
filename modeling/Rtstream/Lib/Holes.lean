import Mathlib.Data.List.Nodup
import Mathlib.Tactic.Common

/-!
# Lists with holes

A receiver that collects the non-empty pieces of something keeps a list in which a piece that
has not arrived is the empty string. `mask xs A` is that list when exactly the pieces `A` have
arrived. It is complete when all have (`mask_complete_iff`), and when one string is empty in it,
one piece has not arrived (`exists_hole`).
-/

namespace Holes

variable {α : Type*}

/-- The pieces that have arrived, and empty strings in the place of the others. -/
def mask (xs : List (List α)) (A : ℕ → Bool) : List (List α) :=
  xs.mapIdx fun i x => if A i then x else []

variable {xs : List (List α)} {A B : ℕ → Bool}

@[simp] theorem length_mask : (mask xs A).length = xs.length := by simp [mask]

@[simp] theorem getElem_mask {i : ℕ} (h : i < (mask xs A).length) :
    (mask xs A)[i] = if A i then xs.get ⟨i, by simpa using h⟩ else [] := by simp [mask]

theorem mask_congr (h : ∀ i < xs.length, A i = B i) : mask xs A = mask xs B := by
  apply List.ext_getElem (by simp)
  intro i hi _
  rw [getElem_mask, getElem_mask, h i (by simpa using hi)]

theorem mask_none (h : ∀ i < xs.length, A i = false) :
    mask xs A = List.replicate xs.length [] := by
  apply List.ext_getElem (by simp)
  intro i hi _
  rw [getElem_mask, h i (by simpa using hi), List.getElem_replicate]
  rfl

theorem mask_all (h : ∀ i < xs.length, A i = true) : mask xs A = xs := by
  apply List.ext_getElem (by simp)
  intro i hi _
  rw [getElem_mask, h i (by simpa using hi), if_pos rfl]
  rfl

theorem mask_hole {j : ℕ} (hj : A j = false) (h : ∀ i < xs.length, i ≠ j → A i = true) :
    mask xs A = xs.set j [] := by
  apply List.ext_getElem (by simp)
  intro i hi _
  rw [getElem_mask, List.getElem_set]
  by_cases hij : j = i
  · subst hij
    simp [hj]
  · rw [if_neg hij, h i (by simpa using hi) (Ne.symm hij), if_pos rfl]
    rfl

theorem set_mask {i : ℕ} (hi : i < xs.length) :
    (mask xs A).set i xs[i] = mask xs fun j => A j || j == i := by
  apply List.ext_getElem (by simp)
  intro j hj _
  rw [List.getElem_set, getElem_mask]
  by_cases hij : i = j
  · subst hij
    simp
  · have hji : (j == i) = false := by simpa using Ne.symm hij
    simp [hij, hji]

/-! ## One hole -/

theorem exists_of_countP_eq_one {β : Type*} {p : β → Bool} {l : List β} (h : l.countP p = 1) :
    ∃ (j : ℕ) (hj : j < l.length), p l[j] = true ∧
      ∀ (i : ℕ) (hi : i < l.length), i ≠ j → p l[i] = false := by
  induction l with
  | nil => simp at h
  | cons b l ih =>
    rw [List.countP_cons] at h
    split_ifs at h with hb
    · have hall : ∀ a ∈ l, ¬ p a = true := List.countP_eq_zero.1 (by omega)
      refine ⟨0, by simp, hb, ?_⟩
      intro i hi h0
      cases i with
      | zero => exact absurd rfl h0
      | succ i => simpa using hall _ (List.getElem_mem (by simpa using hi))
    · obtain ⟨j, hj, hp, hrest⟩ := ih (by omega)
      refine ⟨j + 1, by simpa using hj, hp, ?_⟩
      intro i hi hij
      cases i with
      | zero => simpa using hb
      | succ i => exact hrest i (by simpa using hi) (by omega)

theorem exists_split_of_countP_eq_one {β : Type*} {p : β → Bool} {l : List β}
    (h : l.countP p = 1) :
    ∃ as b bs, l = as ++ b :: bs ∧ p b = true ∧ (∀ a ∈ as, p a = false) ∧
      ∀ a ∈ bs, p a = false := by
  obtain ⟨b, hb, hp⟩ := List.countP_pos_iff.1 (h ▸ Nat.one_pos)
  obtain ⟨as, bs, rfl⟩ := List.append_of_mem hb
  rw [List.countP_append, List.countP_cons_of_pos hp] at h
  have hnone : ∀ {l : List β}, l.countP p = 0 → ∀ a ∈ l, p a = false := by
    intro l hl a ha
    simpa using List.countP_eq_zero.1 hl a ha
  exact ⟨as, b, bs, rfl, hp, hnone (by omega), hnone (by omega)⟩

theorem countP_range_eq_pred_iff {n : ℕ} (hn : 0 < n) :
    (List.range n).countP A = n - 1 ↔
      ∃ j < n, A j = false ∧ ∀ i < n, i ≠ j → A i = true := by
  have hsum := List.length_eq_countP_add_countP A (l := List.range n)
  rw [List.length_range] at hsum
  constructor
  · intro h
    obtain ⟨j, hj, hA, hrest⟩ := exists_of_countP_eq_one
      (p := fun a => decide ¬ A a = true) (l := List.range n) (by omega)
    simp only [List.length_range] at hj hrest
    refine ⟨j, hj, by simpa using hA, ?_⟩
    intro i hi hij
    simpa using hrest i hi hij
  · intro h
    obtain ⟨j, hj, hA, hrest⟩ := h
    have hcount : (List.range n).countP (fun a => decide ¬ A a = true) = 1 := by
      rw [← List.count_eq_one_of_mem List.nodup_range (List.mem_range.2 hj), List.count]
      apply List.countP_congr
      intro i hi
      rw [decide_eq_true_eq, beq_iff_eq]
      constructor
      · intro hi'
        by_contra hij
        exact hi' (hrest i (List.mem_range.1 hi) hij)
      · rintro rfl
        simp [hA]
    omega

variable (hne : ∀ x ∈ xs, x ≠ [])
include hne

theorem getElem_mask_eq_nil_iff {i : ℕ} (h : i < (mask xs A).length) :
    (mask xs A)[i] = [] ↔ A i = false := by
  have hi : i < xs.length := by simpa using h
  have hx := hne xs[i] (List.getElem_mem hi)
  rw [getElem_mask]
  cases A i <;> simp [hx]

theorem mask_complete_iff :
    ((mask xs A).all fun x => !x.isEmpty) = true ↔ ∀ i < xs.length, A i = true := by
  rw [List.all_eq_true]
  constructor
  · intro h i hi
    have hi' : i < (mask xs A).length := by simpa using hi
    have := h _ (List.getElem_mem hi')
    by_contra hA
    rw [(getElem_mask_eq_nil_iff hne hi').2 (by simpa using hA)] at this
    simp at this
  · intro h x hx
    rw [mask_all h] at hx
    simpa using hne x hx

/-- With one empty string, one piece has not arrived. -/
theorem exists_hole (h : (mask xs A).countP (·.isEmpty) = 1) :
    ∃ j < xs.length, A j = false ∧ ∀ i < xs.length, i ≠ j → A i = true := by
  obtain ⟨j, hj, hp, hrest⟩ := exists_of_countP_eq_one h
  refine ⟨j, by simpa using hj, (getElem_mask_eq_nil_iff hne hj).1 (by simpa using hp), ?_⟩
  intro i hi hij
  have hi' : i < (mask xs A).length := by simpa using hi
  by_contra hA
  have := hrest i hi' hij
  rw [(getElem_mask_eq_nil_iff hne hi').2 (by simpa using hA)] at this
  simp at this

end Holes
