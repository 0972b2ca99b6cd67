import Mathlib.Data.List.TakeWhile
import Mathlib.Tactic.Common
import Rtstream.Lib.Framing

/-!
# Bodies behind their length in decimal

Text protocols put the length of a body before it, in decimal digits: an opening, the digits, a
separator, the body, and a closing.

`Layout.next_eq_some_iff` says what a reader of such bodies accepts, so `Layout.reader` is a
`Framing.Reader`, and it reads a written body back (`Layout.encodes_write`).
-/

namespace Decimal

/-! ## Digits -/

/-- The digits of a number, in ASCII. -/
def digits (n : ℕ) : List UInt8 := (Nat.toDigits 10 n).map fun c => c.toNat.toUInt8

def isDigit (b : UInt8) : Bool := 0x30 ≤ b ∧ b ≤ 0x39

/-- The number that digits stand for. -/
def value (ds : List UInt8) : ℕ := ds.foldl (fun n b => 10 * n + (b.toNat - 0x30)) 0

theorem digits_ne_nil (n : ℕ) : digits n ≠ [] := by
  simp [digits]

theorem toNat_of_isDigit {c : Char} (h : c.isDigit = true) :
    isDigit c.toNat.toUInt8 = true ∧ c.toNat.toUInt8.toNat = c.toNat := by
  have hrange : 48 ≤ c.toNat ∧ c.toNat ≤ 57 := by
    simp only [Char.isDigit, Bool.and_eq_true, decide_eq_true_eq] at h
    exact h
  have hsmall : c.toNat.toUInt8.toNat = c.toNat := by
    rw [Nat.toUInt8, UInt8.toNat_ofNat']
    omega
  refine ⟨?_, hsmall⟩
  simp only [isDigit, decide_eq_true_eq, UInt8.le_iff_toNat_le, hsmall]
  exact hrange

theorem isDigit_of_mem_digits {n : ℕ} {b : UInt8} (h : b ∈ digits n) : isDigit b = true := by
  obtain ⟨c, hc, rfl⟩ := List.mem_map.1 h
  exact (toNat_of_isDigit (Nat.isDigit_of_mem_toDigits (by decide) (by decide) hc)).1

/-- **Reading back the digits of a number.** -/
theorem value_digits (n : ℕ) : value (digits n) = n := by
  have hread : ∀ cs : List Char, (∀ c ∈ cs, c.isDigit = true) → ∀ acc,
      cs.foldl (fun n c => 10 * n + (c.toNat.toUInt8.toNat - 0x30)) acc =
        Nat.ofDigitChars 10 cs acc := by
    intro cs hcs
    induction cs with
    | nil => exact fun acc => (Nat.ofDigitChars_nil).symm
    | cons c cs ih =>
      obtain ⟨hc, hcs⟩ := List.forall_mem_cons.1 hcs
      intro acc
      rw [List.foldl_cons, ih hcs, Nat.ofDigitChars_cons, (toNat_of_isDigit hc).2]
      rfl
  rw [value, digits, List.foldl_map]
  exact (hread _ (fun c hc => Nat.isDigit_of_mem_toDigits (by decide) (by decide) hc) 0).trans
    Nat.ofDigitChars_ten_toDigits

theorem length_digits_le {n k : ℕ} (hk : 0 < k) (h : n < 10 ^ k) : (digits n).length ≤ k := by
  rw [digits, List.length_map]
  exact (Nat.length_toDigits_le_iff (by decide) hk).2 h

/-! ## Bodies -/

/-- What stands before the digits, between them and the body, and behind it. What stands behind the
digits does not go on with one. -/
structure Layout where
  opening : List UInt8
  separator : List UInt8
  closing : List UInt8
  stops : ∃ b bs, separator = b :: bs ∧ isDigit b = false

namespace Layout

variable (L : Layout)

def write (body : List UInt8) : List UInt8 :=
  L.opening ++ (digits body.length ++ (L.separator ++ (body ++ L.closing)))

/-- The next body, and what follows it. -/
def next (buf : List UInt8) : Option (List UInt8 × List UInt8) := do
  let text ← buf.dropPrefix? L.opening
  let ds := text.takeWhile isDigit
  let rest ← (text.dropWhile isDigit).dropPrefix? L.separator
  if ds = [] ∨ rest.length < value ds then none
  else
    let more ← (rest.drop (value ds)).dropPrefix? L.closing
    return (rest.take (value ds), more)

variable {L}

/-- **What the reader accepts**: any digits that say how long the body is. -/
theorem next_eq_some_iff {buf body rest : List UInt8} :
    L.next buf = some (body, rest) ↔ ∃ ds, ds ≠ [] ∧ (∀ b ∈ ds, isDigit b = true) ∧
      value ds = body.length ∧
      buf = L.opening ++ (ds ++ (L.separator ++ (body ++ (L.closing ++ rest)))) := by
  simp only [next, Option.bind_eq_bind, Option.bind_eq_some_iff, List.dropPrefix?_eq_some_iff,
    beq_iff_eq, Option.pure_def]
  constructor
  · rintro ⟨text, ⟨_, rfl, rfl⟩, tail, ⟨_, htail, rfl⟩, h⟩
    split_ifs at h with hbad
    obtain ⟨hne, hlen⟩ := not_or.1 hbad
    obtain ⟨more, hmore, h⟩ := Option.bind_eq_some_iff.1 h
    obtain ⟨rfl, rfl⟩ := Prod.mk.inj (Option.some.inj h)
    obtain ⟨closing, hmore, hclosing⟩ := List.dropPrefix?_eq_some_iff.1 hmore
    obtain rfl := eq_of_beq hclosing
    refine ⟨text.takeWhile isDigit, hne, fun b hb => List.mem_takeWhile_imp hb, ?_, ?_⟩
    · rw [List.length_take]
      omega
    · rw [← hmore, List.take_append_drop, ← htail, List.takeWhile_append_dropWhile]
  · rintro ⟨ds, hne, hds, hvalue, rfl⟩
    obtain ⟨b, bs, hsep, hb⟩ := L.stops
    have htake : ∀ more, (ds ++ (L.separator ++ more)).takeWhile isDigit = ds := by
      intro more
      rw [List.takeWhile_append_of_pos hds, hsep, List.cons_append, List.takeWhile_cons, hb]
      simp
    have hdrop : ∀ more, (ds ++ (L.separator ++ more)).dropWhile isDigit = L.separator ++ more := by
      intro more
      rw [List.dropWhile_append_of_pos hds, hsep, List.cons_append, List.dropWhile_cons, hb]
      simp
    refine ⟨_, ⟨_, rfl, rfl⟩, _, ⟨_, hdrop _, rfl⟩, ?_⟩
    rw [htake, hvalue, if_neg (by simp [hne]), List.take_left, List.drop_left]
    exact Option.bind_eq_some_iff.2 ⟨rest, List.dropPrefix?_eq_some_iff.2 ⟨_, rfl, by simp⟩, rfl⟩

variable (L) in
/-- The reader takes a body at a time off a stream. -/
def reader : Framing.Reader UInt8 (List UInt8) where
  next := L.next
  next_length h := by
    obtain ⟨ds, hne, -, -, rfl⟩ := next_eq_some_iff.1 h
    have hpos := List.length_pos_of_ne_nil hne
    simp only [List.length_append]
    omega
  next_append more h := by
    obtain ⟨ds, hne, hds, hvalue, rfl⟩ := next_eq_some_iff.1 h
    refine next_eq_some_iff.2 ⟨ds, hne, hds, hvalue, ?_⟩
    simp only [List.append_assoc]

/-- **A written body is read back**, whatever follows it. -/
theorem encodes_write (body : List UInt8) : L.reader.Encodes body (L.write body) := by
  intro more
  refine next_eq_some_iff.2 ⟨digits body.length, digits_ne_nil _, fun b => isDigit_of_mem_digits,
    value_digits _, ?_⟩
  simp only [write, List.append_assoc]

theorem write_ne_nil (body : List UInt8) : L.write body ≠ [] := by
  simp [write, digits_ne_nil]

end Layout

end Decimal
