import Std.Data.TreeMap.Lemmas
import Mathlib.Data.List.Nodup
import Mathlib.Data.List.Perm.Subperm

/-!
# The ends of an ordered map

`Std.TreeMap` keeps its entries in the order of the keys. `first?` and `last?` are the entries
an iterator over it meets first and last, with what is known of them: they are entries, and no
key lies beyond them. `size_eq_countP` counts the entries of a map whose keys are known.
-/

namespace OrderedMap

open Std

variable {κ β : Type*} [Ord κ]

/-- `*m.begin()`, if there is an entry. -/
def first? (m : TreeMap κ β) : Option (κ × β) := m.toList.head?

/-- `*m.rbegin()`, if there is an entry. -/
def last? (m : TreeMap κ β) : Option (κ × β) := m.toList.getLast?

variable [TransOrd κ] [LawfulEqOrd κ]

/-! ## Keys -/

section Keys

variable {m : TreeMap κ β} {k k' : κ} {v : β}

omit [LawfulEqOrd κ] in
theorem contains_iff : m.contains k = true ↔ ∃ v, m[k]? = some v := by
  rw [TreeMap.contains_eq_isSome_getElem?, Option.isSome_iff_exists]

omit [LawfulEqOrd κ] in
theorem contains_of_getElem? (h : m[k]? = some v) : m.contains k = true := contains_iff.2 ⟨v, h⟩

theorem contains_erase_iff :
    (m.erase k).contains k' = true ↔ k' ≠ k ∧ m.contains k' = true := by
  rw [TreeMap.contains_erase, Bool.and_eq_true, bne_iff_ne, ne_eq, Std.compare_eq_iff_eq, eq_comm]

theorem getElem?_insert_of_entry (h : m[k]? = some v) (k' : κ) : (m.insert k v)[k']? = m[k']? := by
  rw [TreeMap.getElem?_insert]
  split_ifs with hk
  · rw [← Std.compare_eq_iff_eq.1 hk, h]
  · rfl

theorem getElem?_erase_of_none (h : m[k]? = none) (k' : κ) : (m.erase k)[k']? = m[k']? := by
  rw [TreeMap.getElem?_erase]
  split_ifs with hk
  · rw [← Std.compare_eq_iff_eq.1 hk, h]
  · rfl

end Keys

/-! ## The first and the last entry -/

theorem getElem?_of_mem_toList {m : TreeMap κ β} {k : κ} {v : β} (h : (k, v) ∈ m.toList) :
    m[k]? = some v := TreeMap.mem_toList_iff_getElem?_eq_some.1 h

theorem getElem?_first? {m : TreeMap κ β} {k : κ} {v : β} (h : first? m = some (k, v)) :
    m[k]? = some v := getElem?_of_mem_toList (List.mem_of_mem_head? h)

theorem getElem?_last? {m : TreeMap κ β} {k : κ} {v : β} (h : last? m = some (k, v)) :
    m[k]? = some v := getElem?_of_mem_toList (List.mem_of_getLast? h)

theorem first?_eq_none_iff {m : TreeMap κ β} : first? m = none ↔ ∀ k : κ, m[k]? = none := by
  rw [first?, List.head?_eq_none_iff]
  constructor
  · intro h k
    cases hk : m[k]? with
    | none => rfl
    | some v =>
      have := TreeMap.mem_toList_iff_getElem?_eq_some.2 hk
      simp [h] at this
  · intro h
    apply List.eq_nil_iff_forall_not_mem.2
    intro kv hkv
    have := getElem?_of_mem_toList (k := kv.1) (v := kv.2) hkv
    simp [h] at this

theorem last?_eq_none_iff {m : TreeMap κ β} : last? m = none ↔ ∀ k : κ, m[k]? = none := by
  rw [← first?_eq_none_iff, first?, last?, List.head?_eq_none_iff, List.getLast?_eq_none_iff]

theorem first?_le {m : TreeMap κ β} {k k' : κ} {v v' : β} (h : first? m = some (k, v))
    (h' : m[k']? = some v') : (compare k k').isLE := by
  have hmem := TreeMap.mem_toList_iff_getElem?_eq_some.2 h'
  have hord := TreeMap.ordered_keys_toList (t := m)
  obtain ⟨rest, hrest⟩ := List.head?_eq_some_iff.1 h
  rw [hrest] at hmem hord
  rcases List.mem_cons.1 hmem with hm | hm
  · obtain ⟨rfl, -⟩ := Prod.mk.inj hm
    simp
  · have := (List.pairwise_cons.1 hord).1 _ hm
    simp_all

theorem le_last? {m : TreeMap κ β} {k k' : κ} {v v' : β} (h : last? m = some (k, v))
    (h' : m[k']? = some v') : (compare k' k).isLE := by
  have hmem := TreeMap.mem_toList_iff_getElem?_eq_some.2 h'
  have hord := TreeMap.ordered_keys_toList (t := m)
  obtain ⟨init, hinit⟩ := List.getLast?_eq_some_iff.1 h
  rw [hinit] at hmem hord
  rcases List.mem_append.1 hmem with hm | hm
  · have := (List.pairwise_append.1 hord).2.2 _ hm (k, v) (by simp)
    simp_all
  · obtain ⟨rfl, -⟩ := Prod.mk.inj (List.mem_singleton.1 hm)
    simp

omit [TransOrd κ] [LawfulEqOrd κ] in
theorem size_of_first?_eq_none {m : TreeMap κ β} (h : first? m = none) : m.size = 0 := by
  rw [← TreeMap.length_toList, List.head?_eq_none_iff.1 h]
  rfl

omit [LawfulEqOrd κ] in
theorem size_erase_add_one {m : TreeMap κ β} {k : κ} {v : β} (h : m[k]? = some v) :
    (m.erase k).size + 1 = m.size := by
  have hmem : m.contains k = true := contains_of_getElem? h
  have hpos : m.size ≠ 0 := fun h0 => by
    have := TreeMap.isEmpty_eq_size_eq_zero (t := m)
    rw [h0] at this
    rw [TreeMap.contains_of_isEmpty (by simpa using this)] at hmem
    cases hmem
  rw [TreeMap.size_erase, if_pos hmem]
  omega

/-- **Counting entries.** The keys are `g i` for the `i < n` that `A` selects, without
repetition. -/
theorem size_eq_countP {m : TreeMap κ β} {n : ℕ} {A : ℕ → Bool} {g : ℕ → κ}
    (hg : ∀ i < n, ∀ j < n, g i = g j → i = j)
    (h : ∀ k, m[k]?.isSome ↔ ∃ i < n, A i = true ∧ g i = k) :
    m.size = (List.range n).countP A := by
  have hnodup : (((List.range n).filter A).map g).Nodup := by
    refine List.Nodup.map_on (fun i hi j hj => hg i ?_ j ?_) (List.nodup_range.filter A)
    · exact List.mem_range.1 (List.mem_of_mem_filter hi)
    · exact List.mem_range.1 (List.mem_of_mem_filter hj)
  have hperm : m.keys.Perm (((List.range n).filter A).map g) := by
    apply (List.perm_ext_iff_of_nodup TreeMap.nodup_keys hnodup).2
    intro k
    rw [TreeMap.mem_keys, TreeMap.mem_iff_isSome_getElem?, h]
    simp [and_assoc]
  rw [← TreeMap.length_keys, hperm.length_eq, List.length_map, List.countP_eq_length_filter]

theorem length_filter_not_contains {m m' : TreeMap κ β}
    (h : ∀ k, m'.contains k = true → m.contains k = true) :
    (m.keys.filter fun k => !m'.contains k).length + m'.size = m.size := by
  have hkept : (m.keys.filter fun k => m'.contains k).Perm m'.keys := by
    apply (List.perm_ext_iff_of_nodup (TreeMap.nodup_keys.filter _) TreeMap.nodup_keys).2
    intro k
    rw [List.mem_filter, TreeMap.mem_keys, TreeMap.mem_keys]
    exact ⟨fun hk => hk.2, fun hk => ⟨h k hk, hk⟩⟩
  have hsplit := List.length_eq_length_filter_add (l := m.keys) fun k => m'.contains k
  rw [hkept.length_eq, TreeMap.length_keys, TreeMap.length_keys] at hsplit
  omega

/-- When every entry of kind `p` has something in `l` that tells its key, there are no more such
entries than `l` is long. -/
theorem countP_le_length {α : Type*} {m : TreeMap κ β} {p : β → Bool} {f : κ × β → α} {l : List α}
    (hf : ∀ kv kv', f kv = f kv' → kv.1 = kv'.1)
    (h : ∀ (k : κ) (v : β), m[k]? = some v → p v = true → f (k, v) ∈ l) :
    m.toList.countP (fun kv => p kv.2) ≤ l.length := by
  have hkeys : (m.toList.map Prod.fst).Nodup := by
    rw [TreeMap.map_fst_toList_eq_keys]
    exact TreeMap.nodup_keys
  have hnodup : ((m.toList.filter fun kv => p kv.2).map f).Nodup := by
    rw [List.Nodup, List.pairwise_map] at hkeys ⊢
    exact (hkeys.filter _).imp fun hne heq => hne (hf _ _ heq)
  have hsub : (m.toList.filter fun kv => p kv.2).map f ⊆ l := by
    intro x hx
    obtain ⟨⟨k, v⟩, hkv, rfl⟩ := List.mem_map.1 hx
    obtain ⟨hmem, hp⟩ := List.mem_filter.1 hkv
    exact h k v (getElem?_of_mem_toList hmem) hp
  have hle := (List.subperm_of_subset hnodup hsub).length_le
  rwa [List.length_map, ← List.countP_eq_length_filter] at hle

end OrderedMap
