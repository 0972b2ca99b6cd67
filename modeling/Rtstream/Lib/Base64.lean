import Mathlib.Data.List.Basic
import Mathlib.Tactic.Common

/-!
# Base64 as RFC 4648 defines it

Three bytes are four values of six bits, each written as a character of the alphabet (section 4). A
last group of one or two bytes is filled with zero bits and with the padding character. `decode`
reads a text back and takes nothing else: no other characters, no padding before the end, no text
whose length is no multiple of four, and no bits but zeros under the padding (section 3.5).
-/

namespace Base64

/-- Characters 0 to 63. -/
def alphabet : List Char :=
  "ABCDEFGHIJKLMNOPQRSTUVWXYZabcdefghijklmnopqrstuvwxyz0123456789+/".toList

/-- The six bits that a character stands for. -/
def value (c : Char) : Option ℕ := if c ∈ alphabet then some (alphabet.idxOf c) else none

/-- The character of a value below 64. -/
def symbol (x : ℕ) : Char := alphabet.getD x '='

/-- The bytes of a text. -/
def decode : List Char → Option (List UInt8)
  | [] => some []
  | a :: b :: c :: d :: rest => do
    let x ← value a
    let y ← value b
    if c = '=' then
      if d = '=' ∧ rest = [] ∧ y % 16 = 0 then some [UInt8.ofNat (x * 4 + y / 16)] else none
    else
      let z ← value c
      if d = '=' then
        if rest = [] ∧ z % 4 = 0 then
          some [UInt8.ofNat (x * 4 + y / 16), UInt8.ofNat (y % 16 * 16 + z / 4)]
        else none
      else
        let w ← value d
        let bytes ← decode rest
        some (UInt8.ofNat (x * 4 + y / 16) :: UInt8.ofNat (y % 16 * 16 + z / 4) ::
          UInt8.ofNat (z % 4 * 64 + w) :: bytes)
  | _ => none

/-- Characters of the alphabet, and as many padding characters behind them as a last group of
`length % 3` bytes needs. -/
def WellFormed (length : ℕ) (text : List Char) : Prop :=
  ∃ body, text = body ++ List.replicate ((3 - length % 3) % 3) '=' ∧ ∀ c ∈ body, c ∈ alphabet

theorem length_alphabet : alphabet.length = 64 := by decide

theorem symbol_mem {x : ℕ} (h : x < 64) : symbol x ∈ alphabet := by
  rw [symbol, List.getD_eq_getElem?_getD, List.getElem?_eq_getElem (length_alphabet ▸ h)]
  exact List.getElem_mem _

theorem symbol_ne_pad {x : ℕ} (h : x < 64) : symbol x ≠ '=' := by
  intro heq
  have hmem := symbol_mem h
  rw [heq] at hmem
  exact absurd hmem (by decide)

theorem nodup_alphabet : alphabet.Nodup := by decide +kernel

theorem value_symbol {x : ℕ} (h : x < 64) : value (symbol x) = some x := by
  have hx : x < alphabet.length := length_alphabet ▸ h
  rw [value, if_pos (symbol_mem h), symbol, List.getD_eq_getElem?_getD,
    List.getElem?_eq_getElem hx, Option.getD_some, nodup_alphabet.idxOf_getElem x hx]

/-! ## One group -/

theorem group_bytes (a b c : UInt8) :
    UInt8.ofNat (a.toNat / 4 * 4 + (a.toNat % 4 * 16 + b.toNat / 16) / 16) = a ∧
      UInt8.ofNat ((a.toNat % 4 * 16 + b.toNat / 16) % 16 * 16 +
        (b.toNat % 16 * 4 + c.toNat / 64) / 4) = b ∧
      UInt8.ofNat ((b.toNat % 16 * 4 + c.toNat / 64) % 4 * 64 + c.toNat % 64) = c := by
  have ha := a.toNat_lt
  have hb := b.toNat_lt
  have hc := c.toNat_lt
  have hofNat : ∀ {n : ℕ} {x : UInt8}, n = x.toNat → UInt8.ofNat n = x := by
    rintro n x rfl
    exact UInt8.ofNat_toNat
  exact ⟨hofNat (by omega), hofNat (by omega), hofNat (by omega)⟩

theorem decode_group (a b c : UInt8) (rest : List Char) :
    decode (symbol (a.toNat / 4) :: symbol (a.toNat % 4 * 16 + b.toNat / 16) ::
      symbol (b.toNat % 16 * 4 + c.toNat / 64) :: symbol (c.toNat % 64) :: rest) =
      (decode rest).map ([a, b, c] ++ ·) := by
  have ha := a.toNat_lt
  have hb := b.toNat_lt
  have hc := c.toNat_lt
  obtain ⟨hfst, hsnd, hthd⟩ := group_bytes a b c
  have hz : b.toNat % 16 * 4 + c.toNat / 64 < 64 := by omega
  have hw : c.toNat % 64 < 64 := by omega
  rw [decode, value_symbol (by omega), value_symbol (by omega), value_symbol hz, value_symbol hw]
  simp only [Option.bind_eq_bind, Option.bind_some, symbol_ne_pad hz, symbol_ne_pad hw, if_false,
    hfst, hsnd, hthd]
  cases decode rest <;> rfl

theorem decode_two (a b : UInt8) :
    decode [symbol (a.toNat / 4), symbol (a.toNat % 4 * 16 + b.toNat / 16),
      symbol (b.toNat % 16 * 4), '='] = some [a, b] := by
  have ha := a.toNat_lt
  have hb := b.toNat_lt
  obtain ⟨hfst, hsnd, -⟩ := group_bytes a b 0
  simp only [UInt8.toNat_zero, Nat.zero_div, Nat.add_zero] at hsnd
  have hz : b.toNat % 16 * 4 < 64 := by omega
  rw [decode, value_symbol (by omega), value_symbol (by omega), value_symbol hz]
  simp only [Option.bind_eq_bind, Option.bind_some, symbol_ne_pad hz, if_false, if_true, hfst, hsnd,
    true_and, Nat.mul_mod_left]

theorem decode_one (a : UInt8) :
    decode [symbol (a.toNat / 4), symbol (a.toNat % 4 * 16), '=', '='] = some [a] := by
  have ha := a.toNat_lt
  obtain ⟨hfst, -, -⟩ := group_bytes a 0 0
  simp only [UInt8.toNat_zero, Nat.zero_div, Nat.add_zero] at hfst
  rw [decode, value_symbol (by omega), value_symbol (by omega)]
  simp only [Option.bind_eq_bind, Option.bind_some, if_true, hfst, true_and, Nat.mul_mod_left]

end Base64
