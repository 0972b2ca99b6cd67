import Rtstream.MediaTypes
import Rtstream.Lib.Holes
import Rtstream.Lib.RaggedXor

/-!
# `fec.h`: the XOR parity of a group

One parity packet for a group of packets: their XOR, short ones continued with zeros. A
receiver that misses exactly one of them XORs the rest with the parity. What it gets back is
the missing packet *filled with zeros to the length it asked for* (`fecRecover_set_nil`): the
parity does not record how long the missing packet was.
-/

namespace Rtstream

open RaggedXor

/-- `fec_generate`: the parity of a group. -/
def fecGenerate (data : List Bytes) : Bytes :=
  data.foldl xorInto (List.replicate (maxLen data) 0)

/-- The scan for empty slots: how many there are, and the index of the last one. -/
def missingSlots : List Bytes → (i missing missIdx : ℕ) → ℕ × ℕ
  | [], _, missing, missIdx => (missing, missIdx)
  | d :: known, i, missing, missIdx =>
      if d.isEmpty then missingSlots known (i + 1) (missing + 1) i
      else missingSlots known (i + 1) missing missIdx

/-- `fec_recover`: fill the one empty slot of `known` with `expectLen` bytes, or return `false`
and leave `known` alone. -/
def fecRecover (known : List Bytes) (expectLen : ℕ) : Bool × List Bytes :=
  let (missing, missIdx) := missingSlots known 0 0 0
  if missing ≠ 1 then (false, known)
  else (true, known.set missIdx
    ((known.filter fun d => !d.isEmpty).foldl xorInto (List.replicate expectLen 0)))

/-! ## The parity, byte by byte -/

@[simp] theorem length_fecGenerate (data : List Bytes) :
    (fecGenerate data).length = maxLen data := by simp [fecGenerate]

theorem byteAt_fecGenerate (data : List Bytes) (j : ℕ) :
    byteAt (fecGenerate data) j = column data j := by
  by_cases hj : j < maxLen data
  · rw [fecGenerate, byteAt_foldl_xorInto _ (by simpa using hj), byteAt_replicate_zero,
      UInt8.zero_xor]
  · have hle : maxLen data ≤ j := Nat.le_of_not_lt hj
    rw [byteAt_of_le (by simpa using hle), column_of_le hle]

/-! ## Recovery -/

theorem missingSlots_append (as bs : List Bytes) (i m x : ℕ) :
    missingSlots (as ++ bs) i m x =
      missingSlots bs (i + as.length) (missingSlots as i m x).1 (missingSlots as i m x).2 := by
  induction as generalizing i m x with
  | nil => rfl
  | cons d as ih =>
    simp only [List.cons_append, missingSlots, List.length_cons]
    split <;> rw [ih] <;> congr 1 <;> omega

theorem missingSlots_of_full {as : List Bytes} (h : ∀ d ∈ as, d ≠ []) (i m x : ℕ) :
    missingSlots as i m x = (m, x) := by
  induction as generalizing i with
  | nil => rfl
  | cons d as ih =>
    have hd : d.isEmpty = false := by simpa using h d List.mem_cons_self
    simp only [missingSlots, hd, Bool.false_eq_true, if_false]
    exact ih (fun e he => h e (List.mem_cons_of_mem d he)) (i + 1)

theorem missingSlots_fst (known : List Bytes) (i m x : ℕ) :
    (missingSlots known i m x).1 = m + known.countP (·.isEmpty) := by
  induction known generalizing i m x with
  | nil => simp [missingSlots]
  | cons d known ih =>
    simp only [missingSlots, List.countP_cons]
    split <;> simp_all [Nat.add_comm, Nat.add_left_comm]

/-- Nothing is recovered, and nothing changes, unless exactly one slot is empty. -/
theorem fecRecover_of_count_ne_one {known : List Bytes} (n : ℕ)
    (h : known.countP (·.isEmpty) ≠ 1) : fecRecover known n = (false, known) := by
  have hfst : (missingSlots known 0 0 0).1 ≠ 1 := by rw [missingSlots_fst]; omega
  simp [fecRecover, hfst]

theorem missingSlots_split {as bs : List Bytes} (has : ∀ d ∈ as, d ≠ []) (hbs : ∀ d ∈ bs, d ≠ []) :
    missingSlots (as ++ [] :: bs) 0 0 0 = (1, as.length) := by
  rw [missingSlots_append, missingSlots_of_full has]
  simp only [missingSlots, List.isEmpty_nil, if_true]
  rw [missingSlots_of_full hbs]
  simp

/-- With exactly one empty slot, that slot becomes the XOR of the others. -/
theorem fecRecover_split {as bs : List Bytes} (has : ∀ d ∈ as, d ≠ []) (hbs : ∀ d ∈ bs, d ≠ [])
    (n : ℕ) :
    fecRecover (as ++ [] :: bs) n =
      (true, as ++ (as ++ bs).foldl xorInto (List.replicate n 0) :: bs) := by
  have hscan := missingSlots_split has hbs
  have hkeep : ∀ {l : List Bytes}, (∀ d ∈ l, d ≠ []) → l.filter (fun d => !d.isEmpty) = l :=
    fun h => List.filter_eq_self.2 fun d hd => by simpa using h d hd
  simp [fecRecover, hscan, hkeep has, hkeep hbs]

theorem fecRecover_fst (known : List Bytes) (n : ℕ) :
    (fecRecover known n).1 = true ↔ known.countP (·.isEmpty) = 1 := by
  have hcount := missingSlots_fst known 0 0 0
  rw [Nat.zero_add] at hcount
  by_cases h : known.countP (·.isEmpty) = 1
  · simp [fecRecover, hcount, h]
  · simp [fecRecover_of_count_ne_one n h, h]

@[simp] theorem length_fecRecover (known : List Bytes) (n : ℕ) :
    (fecRecover known n).2.length = known.length := by
  simp only [fecRecover]
  split_ifs <;> simp

theorem exists_empty_slot {known : List Bytes} (h : known.countP (·.isEmpty) = 1) :
    ∃ as bs, known = as ++ [] :: bs ∧ (∀ d ∈ as, d ≠ []) ∧ ∀ d ∈ bs, d ≠ [] := by
  obtain ⟨as, d, bs, rfl, hd, has, hbs⟩ := Holes.exists_split_of_countP_eq_one h
  obtain rfl := List.isEmpty_iff.1 hd
  exact ⟨as, bs, rfl, fun e he => by simpa using has e he, fun e he => by simpa using hbs e he⟩

theorem fecRecover_ne_nil {known : List Bytes} {n : ℕ} (h : known.countP (·.isEmpty) = 1)
    (hn : 0 < n) : ∀ d ∈ (fecRecover known n).2, d ≠ [] := by
  obtain ⟨as, bs, rfl, has, hbs⟩ := exists_empty_slot h
  rw [fecRecover_split has hbs]
  intro d hd
  rcases List.mem_append.1 hd with hd | hd
  · exact has d hd
  · rcases List.mem_cons.1 hd with rfl | hd
    · exact List.ne_nil_of_length_pos (by simpa using hn)
    · exact hbs d hd

theorem fecGenerate_ne_nil {data : List Bytes} (hne : ∀ d ∈ data, d ≠ []) (hdata : data ≠ []) :
    fecGenerate data ≠ [] := by
  obtain ⟨d, hd⟩ := List.exists_mem_of_ne_nil data hdata
  have hpos := List.length_pos_of_ne_nil (hne d hd)
  have hle := length_le_maxLen hd
  apply List.ne_nil_of_length_pos
  rw [length_fecGenerate]
  omega

/-- **One lost packet is recovered, filled with zeros.** With every packet non-empty and packet
`i` erased, `fec_recover` puts packet `i` back, continued with zeros to the length asked for. -/
theorem fecRecover_set_nil {data : List Bytes} (hne : ∀ d ∈ data, d ≠ []) {i n : ℕ}
    (hi : i < data.length) (hn : maxLen data ≤ n) :
    fecRecover (data.set i [] ++ [fecGenerate data]) n =
      (true, data.set i (pad n data[i]) ++ [fecGenerate data]) := by
  have hset : ∀ d : Bytes, data.set i d = data.take i ++ d :: data.drop (i + 1) :=
    fun d => by rw [List.set_eq_take_append_cons_drop, if_pos hi]
  have hpar := fecGenerate_ne_nil hne (List.ne_nil_of_length_pos (Nat.zero_lt_of_lt hi))
  have has : ∀ d ∈ data.take i, d ≠ [] := fun d hd => hne d (List.mem_of_mem_take hd)
  have hbs : ∀ d ∈ data.drop (i + 1) ++ [fecGenerate data], d ≠ [] := fun d hd => by
    rcases List.mem_append.1 hd with hd | hd
    · exact hne d (List.mem_of_mem_drop hd)
    · rwa [List.mem_singleton.1 hd]
  rw [hset, List.append_assoc, List.cons_append, fecRecover_split has hbs, hset, List.append_assoc,
    List.cons_append]
  congr 3
  -- The recovered bytes: the columns of the others and of the parity leave packet `i`.
  have hcol : ∀ j, column (data.take i ++ (data.drop (i + 1) ++ [fecGenerate data])) j =
      byteAt data[i] j := fun j => by
    rw [← column_set_nil data hi j, hset]
    simp [column_append, byteAt_fecGenerate, UInt8.xor_assoc]
  have hrec := eq_pad_of_byteAt (d := data[i])
    (e := (data.take i ++ (data.drop (i + 1) ++ [fecGenerate data])).foldl xorInto
      (List.replicate n 0)) (by simpa using (length_le_maxLen (List.getElem_mem hi)).trans hn)
    fun j hj => by
      rw [byteAt_foldl_xorInto _ (by simpa using hj), byteAt_replicate_zero, UInt8.zero_xor, hcol]
  simpa using hrec

end Rtstream
