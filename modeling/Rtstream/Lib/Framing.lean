import Mathlib.Algebra.GroupWithZero.Nat
import Mathlib.Data.List.Forall2
import Mathlib.Tactic.Common

/-!
# Items read off a stream

A reader takes one item off the front of a buffer, or finds that there is not enough yet; a
handler does something for each item, until it stops. The bytes arrive in chunks, and a chunk
may end inside an item.

The chunks do not matter (`Reader.feedAll_flatten`): what the handler does is what it does with
the items of the whole stream. And the items of a stream that was written item by item are the
ones written (`Reader.items_encoded`).
-/

namespace Framing

variable {α ι σ ε : Type*}

/-- Reads one item off the front of a buffer. An item takes something, and later bytes do not
change what was read. -/
structure Reader (α ι : Type*) where
  next : List α → Option (ι × List α)
  next_length : ∀ {buf x rest}, next buf = some (x, rest) → rest.length < buf.length
  next_append : ∀ {buf x rest} more, next buf = some (x, rest) →
    next (buf ++ more) = some (x, rest ++ more)

/-- Does something for an item, as long as it is live. -/
structure Handler (ι σ ε : Type*) where
  live : σ → Bool
  handle : σ → ι → σ × List ε

namespace Handler

/-- One item after the other. -/
def run (h : Handler ι σ ε) (s : σ) : List ι → σ × List ε
  | [] => (s, [])
  | x :: xs =>
    if h.live s then
      let r := h.run (h.handle s x).1 xs
      (r.1, (h.handle s x).2 ++ r.2)
    else (s, [])

theorem run_dead {h : Handler ι σ ε} {s : σ} (hs : h.live s = false) (xs : List ι) :
    h.run s xs = (s, []) := by
  cases xs with
  | nil => rfl
  | cons x xs => simp [run, hs]

theorem run_cons {h : Handler ι σ ε} {s : σ} (hs : h.live s = true) (x : ι) (xs : List ι) :
    h.run s (x :: xs) = ((h.run (h.handle s x).1 xs).1,
      (h.handle s x).2 ++ (h.run (h.handle s x).1 xs).2) := if_pos hs

theorem run_append (h : Handler ι σ ε) (s : σ) (xs ys : List ι) :
    h.run s (xs ++ ys) =
      ((h.run (h.run s xs).1 ys).1, (h.run s xs).2 ++ (h.run (h.run s xs).1 ys).2) := by
  induction xs generalizing s with
  | nil => rfl
  | cons x xs ih =>
    cases hs : h.live s with
    | false => simp [run, hs, run_dead hs]
    | true => simp [run, hs, ih]

end Handler

namespace Reader

theorem next_nil (R : Reader α ι) : R.next [] = none := by
  cases h : R.next [] with
  | none => rfl
  | some p => exact absurd (R.next_length h) (Nat.not_lt_zero _)

/-- The items of a buffer, and what is left behind them. -/
def items (R : Reader α ι) (buf : List α) : List ι × List α :=
  match _h : R.next buf with
  | none => ([], buf)
  | some (x, rest) =>
    let r := R.items rest
    (x :: r.1, r.2)
termination_by buf.length
decreasing_by exact R.next_length _h

theorem items_of_none {R : Reader α ι} {buf : List α} (h : R.next buf = none) :
    R.items buf = ([], buf) := by
  rw [items]
  split
  · rfl
  · simp_all

theorem items_of_some {R : Reader α ι} {buf rest : List α} {x : ι}
    (h : R.next buf = some (x, rest)) :
    R.items buf = (x :: (R.items rest).1, (R.items rest).2) := by
  rw [items]
  split
  · simp_all
  · rename_i y rest' h'
    obtain ⟨rfl, rfl⟩ : x = y ∧ rest = rest' := by simpa [h] using h'
    rfl

theorem next_rest (R : Reader α ι) (buf : List α) : R.next (R.items buf).2 = none := by
  induction buf using items.induct R with
  | case1 buf h => rwa [items_of_none h]
  | case2 buf x rest h ih => rwa [items_of_some h]

/-- **Reading can be interrupted.** The items of a longer buffer are those of the first part, then
those that start in what it left over. -/
theorem items_append (R : Reader α ι) (buf more : List α) :
    R.items (buf ++ more) =
      ((R.items buf).1 ++ (R.items ((R.items buf).2 ++ more)).1,
        (R.items ((R.items buf).2 ++ more)).2) := by
  induction buf using items.induct R with
  | case1 buf h => simp [items_of_none h]
  | case2 buf x rest h ih => simp [items_of_some h, items_of_some (R.next_append more h), ih]

/-- What can be read off a part of a buffer can be read off the buffer, first. -/
theorem items_prefix (R : Reader α ι) {part buf : List α} (h : part <+: buf) :
    (R.items part).1 <+: (R.items buf).1 := by
  obtain ⟨more, rfl⟩ := h
  rw [items_append]
  exact List.prefix_append _ _

theorem weight_items_le {R : Reader α ι} {w : ι → ℕ}
    (hw : ∀ {buf x rest}, R.next buf = some (x, rest) → w x + rest.length ≤ buf.length)
    (buf : List α) : ((R.items buf).1.map w).sum + (R.items buf).2.length ≤ buf.length := by
  induction buf using items.induct R with
  | case1 buf h => simp [items_of_none h]
  | case2 buf x rest h ih =>
    have hx := hw h
    rw [items_of_some h]
    simp only [List.map_cons, List.sum_cons]
    omega

/-- What is left of a buffer when some items have been read off it, all with the property `P`. -/
inductive Left (R : Reader α ι) (P : ι → Prop) : List α → List α → Prop
  | refl (buf : List α) : R.Left P buf buf
  | read {buf rest todo : List α} {x : ι} (next : R.next buf = some (x, rest)) (prop : P x)
      (left : R.Left P rest todo) : R.Left P buf todo

theorem Left.eq_of_none {R : Reader α ι} {P : ι → Prop} {buf todo : List α}
    (h : R.Left P buf todo) (hnone : R.next buf = none) : todo = buf := by
  cases h with
  | refl => rfl
  | read next => simp [hnone] at next

theorem left_iff_of_some {R : Reader α ι} {P : ι → Prop} {buf rest todo : List α} {x : ι}
    (h : R.next buf = some (x, rest)) :
    R.Left P buf todo ↔ todo = buf ∨ P x ∧ R.Left P rest todo := by
  constructor
  · intro hleft
    cases hleft with
    | refl => exact Or.inl rfl
    | read next prop left =>
      obtain ⟨rfl, rfl⟩ := Prod.mk.inj (Option.some.inj (next.symm.trans h))
      exact Or.inr ⟨prop, left⟩
  · rintro (rfl | ⟨prop, left⟩)
    · exact Left.refl _
    · exact Left.read h prop left

/-! ## The loop over a buffer -/

/-- Read an item and handle it, until there is none or the handler stops. -/
def loop (R : Reader α ι) (h : Handler ι σ ε) : ℕ → List α → σ → List α × σ × List ε
  | 0, buf, s => (buf, s, [])
  | fuel + 1, buf, s =>
    if h.live s then
      match R.next buf with
      | none => (buf, s, [])
      | some (x, rest) =>
        let r := R.loop h fuel rest (h.handle s x).1
        (r.1, r.2.1, (h.handle s x).2 ++ r.2.2)
    else (buf, s, [])

/-- The loop handles the items of the buffer, and while the handler is live it leaves the rest. -/
theorem loop_eq (R : Reader α ι) (h : Handler ι σ ε) {fuel : ℕ} {buf : List α} (s : σ)
    (hfuel : buf.length < fuel) :
    (R.loop h fuel buf s).2 = h.run s (R.items buf).1 ∧
      (h.live (R.loop h fuel buf s).2.1 → (R.loop h fuel buf s).1 = (R.items buf).2) := by
  induction fuel generalizing buf s with
  | zero => omega
  | succ fuel ih =>
    rw [loop]
    cases hs : h.live s with
    | false => simp [Handler.run_dead hs, hs]
    | true =>
      cases hnext : R.next buf with
      | none => simp [items_of_none hnext, Handler.run]
      | some p =>
        obtain ⟨x, rest⟩ := p
        have hlen := R.next_length hnext
        obtain ⟨hrun, hrest⟩ := ih (h.handle s x).1 (by omega : rest.length < fuel)
        rw [items_of_some hnext]
        refine ⟨?_, by simpa [hs] using hrest⟩
        simp [Handler.run, hs, hrun]

/-! ## The loop over chunks -/

/-- One chunk: put it behind what is buffered, and handle what has become complete. -/
def feed (R : Reader α ι) (h : Handler ι σ ε) (buf : List α) (s : σ) (chunk : List α) :
    List α × σ × List ε :=
  R.loop h ((buf ++ chunk).length + 1) (buf ++ chunk) s

/-- One chunk after the other, until the handler stops or a chunk is empty. -/
def feedAll (R : Reader α ι) (h : Handler ι σ ε) (buf : List α) (s : σ) :
    List (List α) → σ × List ε
  | [] => (s, [])
  | chunk :: chunks =>
    if h.live s ∧ chunk ≠ [] then
      let r := R.feed h buf s chunk
      let r' := R.feedAll h r.1 r.2.1 chunks
      (r'.1, r.2.2 ++ r'.2)
    else (s, [])

/-- **The chunks do not matter.** However a stream is cut, the handler does what it does with the
items of the whole stream. -/
theorem feedAll_flatten (R : Reader α ι) (h : Handler ι σ ε) {buf : List α} {s : σ}
    {chunks : List (List α)} (hbuf : R.next buf = none) (hne : ∀ chunk ∈ chunks, chunk ≠ []) :
    R.feedAll h buf s chunks = h.run s (R.items (buf ++ chunks.flatten)).1 := by
  induction chunks generalizing buf s with
  | nil => simp [feedAll, items_of_none hbuf, Handler.run]
  | cons chunk chunks ih =>
    obtain ⟨hchunk, hne⟩ := List.forall_mem_cons.mp hne
    cases hs : h.live s with
    | false => simp [feedAll, hs, Handler.run_dead hs]
    | true =>
      obtain ⟨hrun, hrest⟩ := R.loop_eq h s (Nat.lt_succ_self (buf ++ chunk).length)
      rw [feedAll, if_pos ⟨hs, hchunk⟩, List.flatten_cons, ← List.append_assoc, items_append,
        Handler.run_append]
      simp only [feed, hrun]
      cases hs' : h.live (h.run s (R.items (buf ++ chunk)).1).1 with
      | false =>
        have hdead : ∀ rest, R.feedAll h rest (h.run s (R.items (buf ++ chunk)).1).1 chunks =
            ((h.run s (R.items (buf ++ chunk)).1).1, []) := by
          intro rest
          cases chunks <;> simp [feedAll, hs']
        rw [hdead, Handler.run_dead hs']
      | true =>
        rw [hrest (by rwa [hrun]), ih (R.next_rest _) hne]

/-! ## Streams that were written item by item -/

/-- The item is written so: whatever follows, it is read back. -/
def Encodes (R : Reader α ι) (x : ι) (bytes : List α) : Prop :=
  ∀ more, R.next (bytes ++ more) = some (x, more)

/-- **A part of a written item is not an item yet.** -/
theorem Encodes.next_of_prefix {R : Reader α ι} {x : ι} {bytes : List α} (h : R.Encodes x bytes)
    {part : List α} (hpart : part <+: bytes) (hne : part ≠ bytes) : R.next part = none := by
  obtain ⟨missing, rfl⟩ := hpart
  cases hnext : R.next part with
  | none => rfl
  | some p =>
    -- Had the part been enough, something would be left of the whole.
    have hwhole := R.next_append missing hnext
    have hread := h []
    rw [List.append_nil, hwhole] at hread
    have hrest : p.2 ++ missing = [] := (Prod.mk.inj (Option.some.inj hread)).2
    rw [(List.append_eq_nil_iff.1 hrest).2, List.append_nil] at hne
    exact absurd rfl hne

/-- **The items of a written stream are the ones written.** -/
theorem items_encoded {R : Reader α ι} {xs : List ι} {written : List (List α)} (more : List α)
    (h : List.Forall₂ R.Encodes xs written) :
    R.items (written.flatten ++ more) = (xs ++ (R.items more).1, (R.items more).2) := by
  induction h with
  | nil => simp
  | @cons x bytes xs written hx _ ih =>
    rw [List.flatten_cons, List.append_assoc, items_of_some (hx _), ih]
    rfl

end Reader

end Framing
