import Mathlib.Data.List.Sort

/-!
# Selecting an order statistic

The order statistic with index `i` of a list is entry `i` of the list in ascending order. A
selection algorithm rearranges a list so that this entry stands in its place, the smaller ones
before it and the larger ones behind it; the rest is in no particular order (`Selection`).
Whatever the algorithm, the entry is the order statistic (`Selection.getElem?_select`).
-/

namespace OrderStatistics

variable {α : Type*} [LinearOrder α]

/-- The list in ascending order. -/
def ascending (l : List α) : List α := l.insertionSort (· ≤ ·)

/-- An algorithm that puts entry `i` of the ascending order into its place. -/
structure Selection (α : Type*) [LinearOrder α] where
  select : List α → ℕ → List α
  perm : ∀ l i, (select l i).Perm l
  le_nth : ∀ l i (hi : i < (select l i).length), ∀ a ∈ (select l i).take i, a ≤ (select l i)[i]
  nth_le : ∀ l i (hi : i < (select l i).length),
    ∀ a ∈ (select l i).drop (i + 1), (select l i)[i] ≤ a

theorem ascending_perm (l : List α) : (ascending l).Perm l := List.perm_insertionSort _ l

@[simp] theorem length_ascending (l : List α) : (ascending l).length = l.length :=
  (ascending_perm l).length_eq

theorem pairwise_ascending (l : List α) : (ascending l).Pairwise (· ≤ ·) :=
  List.pairwise_insertionSort _ l

theorem ascending_of_perm {l l' : List α} (h : l.Perm l') : ascending l = ascending l' :=
  List.Perm.eq_of_pairwise (fun _ _ _ _ => le_antisymm) (pairwise_ascending l)
    (pairwise_ascending l') (((ascending_perm l).trans h).trans (ascending_perm l').symm)

theorem getElem_ascending_mono {l : List α} {i j : ℕ} (hij : i ≤ j)
    (hj : j < (ascending l).length) :
    (ascending l).get ⟨i, by omega⟩ ≤ (ascending l).get ⟨j, hj⟩ := by
  rcases hij.lt_or_eq with hlt | rfl
  · exact List.pairwise_iff_getElem.1 (pairwise_ascending l) i j (by omega) hj hlt
  · exact le_rfl

theorem ascending_le_of_le {l : List α} {i j : ℕ} {a b : α} (ha : (ascending l)[i]? = some a)
    (hb : (ascending l)[j]? = some b) (hij : i ≤ j) : a ≤ b := by
  obtain ⟨hi, rfl⟩ := List.getElem?_eq_some_iff.1 ha
  obtain ⟨hj, rfl⟩ := List.getElem?_eq_some_iff.1 hb
  exact getElem_ascending_mono hij hj

theorem mem_of_ascending {l : List α} {i : ℕ} {a : α} (h : (ascending l)[i]? = some a) : a ∈ l :=
  (ascending_perm l).subset (List.mem_of_getElem? h)

/-- An entry between the smaller ones and the larger ones. -/
theorem getElem?_ascending_split {as bs : List α} {a : α} (has : ∀ x ∈ as, x ≤ a)
    (hbs : ∀ x ∈ bs, a ≤ x) : (ascending (as ++ a :: bs))[as.length]? = some a := by
  have hsorted : ascending (as ++ a :: bs) = ascending as ++ a :: ascending bs := by
    refine List.Perm.eq_of_pairwise (fun _ _ _ _ => le_antisymm) (pairwise_ascending _) ?_ ?_
    · have has' : ∀ x ∈ ascending as, x ≤ a := fun x hx => has x ((ascending_perm as).subset hx)
      have hbs' : ∀ x ∈ ascending bs, a ≤ x := fun x hx => hbs x ((ascending_perm bs).subset hx)
      rw [List.pairwise_append, List.pairwise_cons]
      refine ⟨pairwise_ascending as, ⟨hbs', pairwise_ascending bs⟩, ?_⟩
      intro x hx y hy
      rcases List.mem_cons.1 hy with rfl | hy
      · exact has' x hx
      · exact (has' x hx).trans (hbs' y hy)
    · exact (ascending_perm _).trans
        ((ascending_perm as).symm.append ((ascending_perm bs).symm.cons a))
  rw [hsorted, ← length_ascending as, List.getElem?_append_right le_rfl, Nat.sub_self]
  rfl

namespace Selection

variable (sel : Selection α)

theorem length_select (l : List α) (i : ℕ) : (sel.select l i).length = l.length :=
  (sel.perm l i).length_eq

/-- **Whatever the algorithm, the entry is the order statistic.** -/
theorem getElem?_select {l : List α} {i : ℕ} (h : i < l.length) :
    (sel.select l i)[i]? = (ascending l)[i]? := by
  have hi : i < (sel.select l i).length := (sel.length_select l i).symm ▸ h
  have hsplit : sel.select l i = (sel.select l i).take i ++
      (sel.select l i)[i] :: (sel.select l i).drop (i + 1) := by
    rw [← List.drop_eq_getElem_cons hi, List.take_append_drop]
  have hget := getElem?_ascending_split (sel.le_nth l i hi) (sel.nth_le l i hi)
  rw [← hsplit, List.length_take, min_eq_left hi.le, ascending_of_perm (sel.perm l i)] at hget
  rw [hget, List.getElem?_eq_getElem hi]

/-- Sorting is a selection algorithm. -/
def sorting : Selection α where
  select l _ := ascending l
  perm l _ := ascending_perm l
  le_nth l i hi a ha := by
    obtain ⟨j, hj, rfl⟩ := List.mem_take_iff_getElem.1 ha
    exact getElem_ascending_mono (by omega) hi
  nth_le l i hi a ha := by
    obtain ⟨j, hj, rfl⟩ := List.mem_drop_iff_getElem.1 ha
    exact getElem_ascending_mono (i := i) (j := i + 1 + j) (by omega) (by omega)

end Selection

end OrderStatistics
