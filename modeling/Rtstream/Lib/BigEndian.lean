import Mathlib.Data.List.Induction
import Mathlib.Data.Nat.ModEq
import Mathlib.Tactic.Ring

/-!
# Big-endian numbers

`store n x` writes the low `n` bytes of `x`, most significant first; `load` reads a byte string
back. Reading what was written gives the number modulo `256 ^ n` (`load_store`), so a field of
a fixed width survives the trip.
-/

namespace BigEndian

/-- The low `n` bytes of `x`, most significant first. -/
def store : ℕ → ℕ → List UInt8
  | 0, _ => []
  | n + 1, x => store n (x / 256) ++ [UInt8.ofNat x]

/-- The number a byte string stands for. -/
def load (bs : List UInt8) : ℕ := bs.foldl (fun v b => v * 256 + b.toNat) 0

@[simp] theorem length_store (n x : ℕ) : (store n x).length = n := by
  induction n generalizing x with
  | zero => rfl
  | succ n ih => simp [store, ih]

theorem load_concat (bs : List UInt8) (b : UInt8) : load (bs ++ [b]) = load bs * 256 + b.toNat := by
  simp [load, List.foldl_append]

theorem load_lt (bs : List UInt8) : load bs < 256 ^ bs.length := by
  induction bs using List.reverseRecOn with
  | nil => simp [load]
  | append_singleton bs b ih =>
    have hb := b.toNat_lt
    rw [load_concat, List.length_append, List.length_singleton, pow_succ]
    omega

theorem load_store (n x : ℕ) : load (store n x) = x % 256 ^ n := by
  induction n generalizing x with
  | zero => simp [store, load, Nat.mod_one]
  | succ n ih =>
    have hbyte : (UInt8.ofNat x).toNat = x % 256 := by simp
    rw [store, load_concat, ih, hbyte, pow_succ']
    have := Nat.mod_mul (x := x) (a := 256) (b := 256 ^ n)
    omega

@[simp] theorem uint16_load_store (x : UInt16) : UInt16.ofNat (load (store 2 x.toNat)) = x := by
  rw [load_store, Nat.mod_eq_of_lt (b := 256 ^ 2) x.toNat_lt, UInt16.ofNat_toNat]

@[simp] theorem uint32_load_store (x : UInt32) : UInt32.ofNat (load (store 4 x.toNat)) = x := by
  rw [load_store, Nat.mod_eq_of_lt (b := 256 ^ 4) x.toNat_lt, UInt32.ofNat_toNat]

@[simp] theorem uint64_load_store (x : UInt64) : UInt64.ofNat (load (store 8 x.toNat)) = x := by
  rw [load_store, Nat.mod_eq_of_lt (b := 256 ^ 8) x.toNat_lt, UInt64.ofNat_toNat]

/-- One more byte behind a number, both shifted: the `|` of shifted bytes reads them in order. -/
theorem shiftLeft_or_shiftLeft {b : ℕ} (hb : b < 256) (x i : ℕ) :
    x <<< (i + 8) ||| b <<< i = (x * 256 + b) <<< i := by
  rw [Nat.add_comm i, Nat.shiftLeft_add, ← Nat.shiftLeft_or_distrib,
    ← Nat.shiftLeft_add_eq_or_of_lt hb, Nat.shiftLeft_eq x 8]

end BigEndian
