import Rtstream.Lib.OrderedMap

/-!
# A bounded map that drops its smallest key

A map with room for `cap` entries: when a new entry makes it larger, the entry with the smallest key
goes (`store`). Where keys grow with time that is the oldest entry, and the map is a queue of the
newest entries (`push`), from which entries can also be taken by their keys (`consume`).

* `store_perm_iff`: the map goes on agreeing with the queue exactly when the new key is not in use
  and the oldest entry has the smallest key (`Fits`).
* `mem_of_few`: an entry of the queue stays until it is consumed or `cap` newer ones have come.
-/

namespace SmallestOut

open Std (TreeMap TransOrd LawfulEqOrd)

variable {κ β : Type*}

/-! ## The queue -/

/-- The queue of the newest `cap` entries: the oldest is in front. -/
def push (cap : ℕ) (q : List (κ × β)) (e : κ × β) : List (κ × β) :=
  if q.length < cap then q ++ [e] else q.tail ++ [e]

/-- Entries are taken out by their keys. -/
def consume [DecidableEq κ] (ks : List κ) (q : List (κ × β)) : List (κ × β) :=
  q.filter fun e => e.1 ∉ ks

section Queue

variable {cap : ℕ} {q : List (κ × β)} {e : κ × β}

theorem length_push_le (hcap : 0 < cap) (h : q.length ≤ cap) (e : κ × β) :
    (push cap q e).length ≤ cap := by
  unfold push
  split_ifs with hlt
  · rw [List.length_append, List.length_singleton]
    exact hlt
  · rw [List.length_append, List.length_tail, List.length_singleton]
    omega

variable [DecidableEq κ]

theorem length_consume_le (ks : List κ) (q : List (κ × β)) : (consume ks q).length ≤ q.length :=
  List.length_filter_le _ _

theorem consume_of_new {k : κ} (h : ∀ e ∈ q, e.1 ≠ k) : consume [k] q = q :=
  List.filter_eq_self.2 fun e he => by simpa using h e he

theorem consume_head {e : κ × β} {rest : List (κ × β)} (h : ((e :: rest).map Prod.fst).Nodup) :
    consume [e.1] (e :: rest) = rest := by
  rw [List.map_cons, List.nodup_cons] at h
  rw [consume, List.filter_cons_of_neg (by simp)]
  refine consume_of_new fun e' he' heq => h.1 ?_
  rw [← heq]
  exact List.mem_map_of_mem he'

/-- What happens to the queue. -/
inductive Event (κ β : Type*)
  | store (e : κ × β)
  | consume (ks : List κ)

def step (cap : ℕ) (q : List (κ × β)) : Event κ β → List (κ × β)
  | .store e => push cap q e
  | .consume ks => consume ks q

theorem length_step_le (hcap : 0 < cap) (h : q.length ≤ cap) (event : Event κ β) :
    (step cap q event).length ≤ cap := by
  cases event with
  | store e => exact length_push_le hcap h e
  | consume ks => exact Nat.le_trans (length_consume_le ks q) h

/-- The entries that come. -/
def stored? : Event κ β → Option (κ × β)
  | .store e => some e
  | .consume _ => none

/-- The keys that are consumed. -/
def consumed : Event κ β → List κ
  | .store _ => []
  | .consume ks => ks

/-- An entry with few newer ones behind it stays, and so it is until there are `cap`. -/
theorem mem_of_few {older newer : List (κ × β)} {events : List (Event κ β)}
    (hq : q = older ++ e :: newer) (hlength : q.length ≤ cap)
    (hfew : newer.length + (events.filterMap stored?).length < cap)
    (hkept : e.1 ∉ events.flatMap consumed) : e ∈ events.foldl (step cap) q := by
  induction events generalizing q older newer with
  | nil => simp [hq]
  | cons event events ih =>
    rw [List.flatMap_cons, List.mem_append, not_or] at hkept
    cases event with
    | store new =>
      simp only [List.filterMap_cons, stored?, List.length_cons] at hfew
      have hpush := length_push_le (by omega) hlength new
      have hsplit : ∃ older', push cap q new = older' ++ e :: (newer ++ [new]) := by
        unfold push
        split_ifs with hroom
        · exact ⟨older, by rw [hq]; simp⟩
        · cases older with
          | nil =>
            -- With nothing older, the queue is full of newer entries.
            rw [hq, List.nil_append, List.length_cons] at hroom
            omega
          | cons old older => exact ⟨older, by rw [hq]; simp⟩
      obtain ⟨older', hsplit⟩ := hsplit
      exact ih hsplit hpush (by rw [List.length_append, List.length_singleton]; omega) hkept.2
    | consume ks =>
      simp only [List.filterMap_cons, stored?] at hfew
      have hsplit : consume ks q = consume ks older ++ e :: consume ks newer := by
        rw [hq, consume, List.filter_append,
          List.filter_cons_of_pos (by simpa [consumed] using hkept.1)]
        rfl
      have hshort := length_consume_le ks newer
      exact ih hsplit (Nat.le_trans (length_consume_le ks q) hlength) (by omega) hkept.2

end Queue

/-! ## The map -/

variable [Ord κ]

/-- Put an entry in; when there are too many, the one with the smallest key goes. -/
def store (cap : ℕ) (m : TreeMap κ β) (k : κ) (v : β) : TreeMap κ β :=
  let m := m.insert k v
  if m.size > cap then
    match OrderedMap.first? m with
    | some (k, _) => m.erase k
    | none => m
  else m

/-- The new key is not in use, but perhaps for the entry that is to go; and that is the one with the
smallest key. -/
def Fits (cap : ℕ) (q : List (κ × β)) (k : κ) : Prop :=
  if q.length < cap then ∀ e ∈ q, e.1 ≠ k
  else (∀ e ∈ q.tail, e.1 ≠ k) ∧ ∀ oldest ∈ q.head?, oldest.1 = k ∨
    compare oldest.1 k = .lt ∧ ∀ e ∈ q.tail, compare oldest.1 e.1 = .lt

/-- A new key fits unless the map is full; then the oldest entry must have the smallest key. -/
theorem fits_iff_of_new {cap : ℕ} {q : List (κ × β)} {k : κ} (hnew : ∀ e ∈ q, e.1 ≠ k) :
    Fits cap q k ↔ (cap ≤ q.length → ∀ oldest ∈ q.head?,
      compare oldest.1 k = .lt ∧ ∀ e ∈ q.tail, compare oldest.1 e.1 = .lt) := by
  unfold Fits
  split_ifs with hroom
  · exact iff_of_true hnew fun hfull => absurd hroom (Nat.not_lt.2 hfull)
  · rw [and_iff_right fun e he => hnew e (List.mem_of_mem_tail he),
      forall_prop_of_true (Nat.not_lt.1 hroom)]
    refine forall₂_congr fun oldest hold => or_iff_right ?_
    exact hnew oldest (List.mem_of_mem_head? hold)

/-! ## The map and the queue -/

variable [TransOrd κ] [LawfulEqOrd κ] {cap : ℕ} {m : TreeMap κ β} {q : List (κ × β)} {k : κ} {v : β}

omit [LawfulEqOrd κ] in
theorem nodup_keys (h : m.toList.Perm q) : (q.map Prod.fst).Nodup := by
  have hkeys : (m.toList.map Prod.fst).Nodup := by
    rw [TreeMap.map_fst_toList_eq_keys]
    exact TreeMap.nodup_keys
  exact (h.map Prod.fst).nodup_iff.1 hkeys

theorem getElem?_eq_some_iff (h : m.toList.Perm q) : m[k]? = some v ↔ (k, v) ∈ q := by
  rw [← TreeMap.mem_toList_iff_getElem?_eq_some, h.mem_iff]

theorem perm_of_mem_iff (hnodup : (q.map Prod.fst).Nodup)
    (h : ∀ k v, m[k]? = some v ↔ (k, v) ∈ q) : m.toList.Perm q := by
  have hkeys : (m.toList.map Prod.fst).Nodup := by
    rw [TreeMap.map_fst_toList_eq_keys]
    exact TreeMap.nodup_keys
  refine (List.perm_ext_iff_of_nodup (List.Nodup.of_map _ hkeys) (List.Nodup.of_map _ hnodup)).2 ?_
  rintro ⟨k, v⟩
  rw [TreeMap.mem_toList_iff_getElem?_eq_some, h]

theorem perm_erase [DecidableEq κ] (h : m.toList.Perm q) (k : κ) :
    (m.erase k).toList.Perm (consume [k] q) := by
  refine perm_of_mem_iff ((nodup_keys h).sublist (List.filter_sublist.map _)) fun k' v => ?_
  rw [TreeMap.getElem?_erase, consume, List.mem_filter, ← getElem?_eq_some_iff h]
  split_ifs with hk
  · rw [Std.compare_eq_iff_eq.1 hk]
    simp
  · have hne : k' ≠ k := fun heq => hk (Std.compare_eq_iff_eq.2 heq.symm)
    simp [hne]

theorem perm_consume [DecidableEq κ] (h : m.toList.Perm q) (ks : List κ) :
    (ks.foldl TreeMap.erase m).toList.Perm (consume ks q) := by
  induction ks generalizing m q with
  | nil => simpa [consume] using h
  | cons k ks ih =>
    have hrest := ih (perm_erase h k)
    have hboth : consume ks (consume [k] q) = consume (k :: ks) q := by
      simp only [consume, List.filter_filter]
      refine List.filter_congr fun e _ => ?_
      simp only [List.mem_cons, List.not_mem_nil, or_false, not_or, Bool.decide_and, Bool.and_comm]
    rwa [hboth] at hrest

theorem perm_insert [DecidableEq κ] (h : m.toList.Perm q) (k : κ) (v : β) :
    (m.insert k v).toList.Perm (consume [k] q ++ [(k, v)]) := by
  refine perm_of_mem_iff ?_ fun k' v' => ?_
  · rw [List.map_append, List.map_singleton, List.nodup_append]
    refine ⟨(nodup_keys h).sublist (List.filter_sublist.map _), List.nodup_singleton _, ?_⟩
    intro a ha b hb
    obtain ⟨e, he, rfl⟩ := List.mem_map.1 ha
    rw [List.mem_singleton.1 hb]
    simpa using (List.mem_filter.1 he).2
  · rw [TreeMap.getElem?_insert, List.mem_append, List.mem_singleton, consume, List.mem_filter,
      ← getElem?_eq_some_iff h]
    split_ifs with hk
    · obtain rfl := Std.compare_eq_iff_eq.1 hk
      simp [eq_comm]
    · have hne : k' ≠ k := fun heq => hk (Std.compare_eq_iff_eq.2 heq.symm)
      simp [hne]

theorem first?_eq_some_iff {e : κ × β} {rest : List (κ × β)} (h : m.toList.Perm (e :: rest)) :
    OrderedMap.first? m = some e ↔ ∀ e' ∈ rest, compare e.1 e'.1 = .lt := by
  have hnodup := nodup_keys h
  rw [List.map_cons, List.nodup_cons] at hnodup
  constructor
  · intro hfirst e' he'
    have hle := OrderedMap.first?_le hfirst
      ((getElem?_eq_some_iff h).2 (List.mem_cons_of_mem e he') : m[e'.1]? = some e'.2)
    have hne : compare e.1 e'.1 ≠ .eq := fun heq =>
      hnodup.1 (List.mem_map.2 ⟨e', he', (Std.compare_eq_iff_eq.1 heq).symm⟩)
    cases hcmp : compare e.1 e'.1 with
    | lt => rfl
    | eq => exact absurd hcmp hne
    | gt => rw [hcmp] at hle; cases hle
  · intro hall
    have hmem : m[e.1]? = some e.2 := (getElem?_eq_some_iff h).2 List.mem_cons_self
    cases hfirst : OrderedMap.first? m with
    | none => rw [OrderedMap.first?_eq_none_iff.1 hfirst] at hmem; cases hmem
    | some e' =>
      have hin : e' ∈ e :: rest :=
        (getElem?_eq_some_iff h).1 (OrderedMap.getElem?_first? hfirst)
      rcases List.mem_cons.1 hin with rfl | hin
      · rfl
      · -- Another first entry would not come after this one.
        have hle := OrderedMap.first?_le hfirst hmem
        have hlt := hall e' hin
        rw [Std.OrientedOrd.eq_swap, hlt] at hle
        cases hle

section Store

variable [DecidableEq κ] (h : m.toList.Perm q)
include h

theorem size_insert_le_length : (m.insert k v).size ≤ q.length + 1 := by
  rw [← TreeMap.length_toList, (perm_insert h k v).length_eq, List.length_append,
    List.length_singleton]
  exact Nat.succ_le_succ (length_consume_le [k] q)

/-- With room nothing goes, so the new key must not be in use. -/
theorem store_perm_of_room (hroom : q.length < cap) :
    (store cap m k v).toList.Perm (q ++ [(k, v)]) ↔ ∀ e ∈ q, e.1 ≠ k := by
  have hsmall : ¬ (m.insert k v).size > cap := by
    have hle := size_insert_le_length h (k := k) (v := v)
    omega
  rw [store, if_neg hsmall]
  constructor
  · intro hperm e he hek
    have hnodup := nodup_keys hperm
    rw [List.map_append, List.nodup_append] at hnodup
    exact hnodup.2.2 e.1 (List.mem_map_of_mem he) k (by simp) hek
  · intro hnew
    have hperm := perm_insert h k v
    rwa [consume_of_new hnew] at hperm

end Store

/-- Without room the entry with the smallest key goes. -/
theorem store_perm_of_full [DecidableEq κ] {oldest : κ × β} {rest : List (κ × β)}
    (h : m.toList.Perm (oldest :: rest)) (hfull : rest.length + 1 = cap)
    (hnew : ∀ e ∈ oldest :: rest, e.1 ≠ k) :
    (store cap m k v).toList.Perm (rest ++ [(k, v)]) ↔
      compare oldest.1 k = .lt ∧ ∀ e ∈ rest, compare oldest.1 e.1 = .lt := by
  have hperm := perm_insert h k v
  rw [consume_of_new hnew, List.cons_append] at hperm
  have hbig : (m.insert k v).size > cap := by
    rw [← TreeMap.length_toList, hperm.length_eq]
    simp
    omega
  have hfits : OrderedMap.first? (m.insert k v) = some oldest ↔
      compare oldest.1 k = .lt ∧ ∀ e ∈ rest, compare oldest.1 e.1 = .lt := by
    rw [first?_eq_some_iff hperm, List.forall_mem_append, List.forall_mem_singleton, and_comm]
  rw [store, if_pos hbig, ← hfits]
  cases hfirst : OrderedMap.first? (m.insert k v) with
  | none =>
    rw [OrderedMap.size_of_first?_eq_none hfirst] at hbig
    exact absurd hbig (Nat.not_lt_zero cap)
  | some first =>
    have herased := perm_erase hperm first.1
    rw [Option.some.injEq]
    constructor
    · intro hleft
      by_contra hne
      -- The entry that went is one that the queue keeps.
      have hin : first ∈ rest ++ [(k, v)] := by
        have hmem := (getElem?_eq_some_iff hperm).1 (OrderedMap.getElem?_first? hfirst)
        exact (List.mem_cons.1 hmem).resolve_left hne
      have hout := (hleft.symm.trans herased).mem_iff.1 hin
      simp [consume] at hout
    · rintro rfl
      rwa [consume_head (nodup_keys hperm)] at herased

/-- **The map goes on agreeing with the queue** exactly when the new entry fits. -/
theorem store_perm_iff [DecidableEq κ] (hcap : 0 < cap) (h : m.toList.Perm q)
    (hlength : q.length ≤ cap) :
    (store cap m k v).toList.Perm (push cap q (k, v)) ↔ Fits cap q k := by
  unfold push Fits
  split_ifs with hroom
  · exact store_perm_of_room h hroom
  · cases q with
    | nil => exact absurd hcap hroom
    | cons oldest rest =>
      rw [List.length_cons] at hroom hlength
      have hfull : rest.length + 1 = cap := by omega
      have hnodup := nodup_keys h
      simp only [List.tail_cons, List.head?_cons, Option.mem_some_iff, forall_eq']
      by_cases hrest : ∀ e ∈ rest, e.1 ≠ k
      · by_cases hold : oldest.1 = k
        · -- The new entry takes the place of the oldest.
          refine iff_of_true ?_ ⟨hrest, Or.inl hold⟩
          have hperm := perm_insert h k v
          rw [← hold, consume_head hnodup] at hperm
          have hsmall : ¬ (m.insert oldest.1 v).size > cap := by
            rw [← TreeMap.length_toList, hperm.length_eq]
            simp
            omega
          rwa [← hold, store, if_neg hsmall]
        · rw [store_perm_of_full h hfull (List.forall_mem_cons.2 ⟨hold, hrest⟩), or_iff_right hold,
            and_iff_right hrest]
      · refine iff_of_false (fun hperm => hrest fun e he hek => ?_) fun hfits => hrest hfits.1
        have hkeys := nodup_keys hperm
        rw [List.map_append, List.nodup_append] at hkeys
        exact hkeys.2.2 e.1 (List.mem_map_of_mem he) k (by simp) hek

end SmallestOut
