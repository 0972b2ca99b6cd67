import Rtstream.MediaTypes
import Rtstream.Lib.SecureHash
import Mathlib.Data.List.GetD

/-!
# `sha1.h`: SHA-1

The hash of the WebSocket handshake. `sha1` pads the message with a byte loop, fills an array of 80
words for each block, and rotates five registers through 80 rounds.

`sha1_eq_standard`: for every message whose length in bits fits into 64 bits the digest is the one
FIPS 180-4 defines. Three facts carry it: the padding loop stops at the fewest zeros
(`fillZeros_eq`), word `t` of the array is word `t` of the standard's recursion
(`toBitVec_schedule`), and a round of the loop is a round of the standard (`toWords_round`).
-/

namespace Rtstream

namespace Sha1

/-! ## The code -/

/-- The five words `h`, or the five registers `a` to `e`. -/
structure Regs where
  a : UInt32
  b : UInt32
  c : UInt32
  d : UInt32
  e : UInt32
  deriving DecidableEq, Repr

/-- `rol`, for `0 < n < 32`. -/
def rol (v n : UInt32) : UInt32 := (v <<< n) ||| (v >>> (32 - n))

/-- `while (msg.size() % 64 != 56) msg.push_back(0);` -/
def fillZeros (msg : Bytes) : Bytes :=
  if msg.length % 64 = 56 then msg else fillZeros (msg ++ [0])
termination_by (120 - msg.length % 64) % 64
decreasing_by
  simp only [List.length_append, List.length_singleton]
  omega

/-- The message with its padding and its length in bits. -/
def paddedMsg (data : Bytes) : Bytes :=
  let bits : UInt64 := UInt64.ofNat data.length * 8
  fillZeros (data ++ [0x80]) ++ [7, 6, 5, 4, 3, 2, 1, 0].map fun i : UInt64 =>
    (bits >>> (i * 8)).toUInt8

/-- The word whose first byte is `msg[p]`. -/
def wordAt (msg : Bytes) (p : ℕ) : UInt32 :=
  ((msg.getD p 0).toUInt32 <<< 24) ||| ((msg.getD (p + 1) 0).toUInt32 <<< 16) |||
    ((msg.getD (p + 2) 0).toUInt32 <<< 8) ||| (msg.getD (p + 3) 0).toUInt32

/-- `w[i] = rol(w[i - 3] ^ w[i - 8] ^ w[i - 14] ^ w[i - 16], 1)`: the next word of the array. -/
def extend (w : List UInt32) (i : ℕ) : List UInt32 :=
  w ++ [rol (w.getD (i - 3) 0 ^^^ w.getD (i - 8) 0 ^^^ w.getD (i - 14) 0 ^^^ w.getD (i - 16) 0) 1]

/-- The array `w` of the block at `off`. -/
def schedule (msg : Bytes) (off : ℕ) : List UInt32 :=
  (List.range' 16 64).foldl extend ((List.range 16).map fun i => wordAt msg (off + i * 4))

/-- One turn of the loop over the rounds. -/
def round (w : List UInt32) (r : Regs) (i : ℕ) : Regs :=
  let f :=
    if i < 20 then (r.b &&& r.c) ||| (~~~r.b &&& r.d)
    else if i < 40 then r.b ^^^ r.c ^^^ r.d
    else if i < 60 then (r.b &&& r.c) ||| (r.b &&& r.d) ||| (r.c &&& r.d)
    else r.b ^^^ r.c ^^^ r.d
  let k : UInt32 :=
    if i < 20 then 0x5A827999
    else if i < 40 then 0x6ED9EBA1
    else if i < 60 then 0x8F1BBCDC
    else 0xCA62C1D6
  let tmp := rol r.a 5 + f + r.e + k + w.getD i 0
  { e := r.d, d := r.c, c := rol r.b 30, b := r.a, a := tmp }

/-- One turn of the loop over the blocks. -/
def block (msg : Bytes) (h : Regs) (off : ℕ) : Regs :=
  let r := (List.range 80).foldl (round (schedule msg off)) h
  { a := h.a + r.a, b := h.b + r.b, c := h.c + r.c, d := h.d + r.d, e := h.e + r.e }

end Sha1

open Sha1 in
/-- `sha1`: the 20 bytes written to `out`. -/
def sha1 (data : Bytes) : Bytes :=
  let msg := paddedMsg data
  let h : Regs := ⟨0x67452301, 0xEFCDAB89, 0x98BADCFE, 0x10325476, 0xC3D2E1F0⟩
  let h := (List.range ((msg.length + 63) / 64)).foldl (fun h i => block msg h (i * 64)) h
  [h.a, h.b, h.c, h.d, h.e].flatMap fun x : UInt32 =>
    [(x >>> 24).toUInt8, (x >>> 16).toUInt8, (x >>> 8).toUInt8, x.toUInt8]

namespace Sha1

/-! ## Padding -/

theorem fillZeros_eq (msg : Bytes) :
    fillZeros msg = msg ++ List.replicate ((120 - msg.length % 64) % 64) 0 := by
  fun_induction fillZeros msg with
  | case1 msg h => simp [h]
  | case2 msg h ih =>
    obtain ⟨n, hn⟩ : ∃ n, (120 - msg.length % 64) % 64 = n + 1 :=
      Nat.exists_eq_succ_of_ne_zero (by omega)
    have hlen : (120 - (msg ++ [(0 : UInt8)]).length % 64) % 64 = n := by
      simp only [List.length_append, List.length_singleton]
      omega
    rw [ih, hlen, hn, List.replicate_succ, List.append_assoc]
    rfl

theorem map_shift_eq_store (x : UInt64) :
    ([7, 6, 5, 4, 3, 2, 1, 0].map fun i : UInt64 => (x >>> (i * 8)).toUInt8) =
      BigEndian.store 8 x.toNat := by
  have hbyte : ∀ y : UInt64, y.toUInt8 = UInt8.ofNat y.toNat := fun y => by simp
  have hlast : x.toNat / 2 ^ ((0 * 8 : UInt64).toNat % 64) = x.toNat := Nat.div_one _
  simp only [List.map_cons, List.map_nil, hbyte, UInt64.toNat_shiftRight, Nat.shiftRight_eq_div_pow,
    hlast, BigEndian.store, List.nil_append, List.cons_append, Nat.div_div_eq_div_mul]
  rfl

theorem store_four (x : UInt32) : [(x >>> 24).toUInt8, (x >>> 16).toUInt8, (x >>> 8).toUInt8,
    x.toUInt8] = BigEndian.store 4 x.toNat := by
  have hbyte : ∀ y : UInt32, y.toUInt8 = UInt8.ofNat y.toNat := fun y => by simp 
  simp only [hbyte, UInt32.toNat_shiftRight, Nat.shiftRight_eq_div_pow, BigEndian.store,
    List.nil_append, List.cons_append, Nat.div_div_eq_div_mul]
  rfl

theorem paddedMsg_eq {data : Bytes} (h : data.length < 2 ^ 61) :
    paddedMsg data = SecureHash.pad data := by
  have hbits : (UInt64.ofNat data.length * 8).toNat = 8 * data.length := by
    rw [UInt64.toNat_mul, UInt64.toNat_ofNat']
    simp
    omega
  have hzeros : (120 - (data ++ [(0x80 : UInt8)]).length % 64) % 64 =
      SecureHash.zeros data.length := by
    simp only [List.length_append, List.length_singleton, SecureHash.zeros]
    omega
  rw [paddedMsg, map_shift_eq_store, hbits, fillZeros_eq, hzeros, SecureHash.pad]
  simp

/-! ## Words -/

theorem toNat_byte_shift (a : UInt8) {n : UInt32} (hn : n.toNat ≤ 24) :
    (a.toUInt32 <<< n).toNat = a.toNat <<< n.toNat := by
  have ha := a.toNat_lt
  have hpow : 2 ^ n.toNat ≤ 2 ^ 24 := Nat.pow_le_pow_right (by decide) hn
  rw [UInt32.toNat_shiftLeft, UInt8.toNat_toUInt32, Nat.mod_eq_of_lt (a := n.toNat) (by omega)]
  apply Nat.mod_eq_of_lt
  rw [Nat.shiftLeft_eq]
  calc a.toNat * 2 ^ n.toNat ≤ a.toNat * 2 ^ 24 := Nat.mul_le_mul_left _ hpow
    _ < 2 ^ 32 := by omega

theorem toNat_wordAt (msg : Bytes) (p : ℕ) : (wordAt msg p).toNat =
    BigEndian.load [msg.getD p 0, msg.getD (p + 1) 0, msg.getD (p + 2) 0, msg.getD (p + 3) 0] := by
  have hlt : ∀ b : UInt8, b.toNat < 256 := fun b => b.toNat_lt
  generalize ha : msg.getD p 0 = a
  generalize hb : msg.getD (p + 1) 0 = b
  generalize hc : msg.getD (p + 2) 0 = c
  generalize hd : msg.getD (p + 3) 0 = d
  calc (wordAt msg p).toNat
      = a.toNat <<< (16 + 8) ||| b.toNat <<< (8 + 8) ||| c.toNat <<< (0 + 8) ||| d.toNat <<< 0 := by
        simp only [wordAt, ha, hb, hc, hd, UInt32.toNat_or]
        rw [toNat_byte_shift _ (by decide), toNat_byte_shift _ (by decide),
          toNat_byte_shift _ (by decide), UInt8.toNat_toUInt32]
        rfl
    _ = ((a.toNat * 256 + b.toNat) * 256 + c.toNat) * 256 + d.toNat := by
        rw [BigEndian.shiftLeft_or_shiftLeft (hlt b), BigEndian.shiftLeft_or_shiftLeft (hlt c),
          BigEndian.shiftLeft_or_shiftLeft (hlt d), Nat.shiftLeft_zero]
    _ = BigEndian.load [a, b, c, d] := by simp [BigEndian.load]

theorem toBitVec_wordAt {msg : Bytes} {p : ℕ} (h : p + 4 ≤ msg.length) :
    (wordAt msg p).toBitVec = BitVec.ofNat 32 (BigEndian.load (Slices.slice msg p 4)) := by
  have hslice : Slices.slice msg p 4 =
      [msg.getD p 0, msg.getD (p + 1) 0, msg.getD (p + 2) 0, msg.getD (p + 3) 0] := by
    rw [Slices.slice, List.drop_eq_getElem_cons (by omega), List.drop_eq_getElem_cons (by omega),
      List.drop_eq_getElem_cons (by omega), List.drop_eq_getElem_cons (by omega)]
    rw [List.getD_eq_getElem _ _ (by omega), List.getD_eq_getElem _ _ (by omega),
      List.getD_eq_getElem _ _ (by omega), List.getD_eq_getElem _ _ (by omega)]
    rfl
  rw [hslice, ← toNat_wordAt, ← BitVec.toNat_inj]
  simp

theorem toBitVec_rol {v n : UInt32} (h0 : 0 < n.toNat) (h : n.toNat < 32) :
    (rol v n).toBitVec = SecureHash.rotl n.toNat v.toBitVec := by
  have hle : n ≤ 32 := by
    rw [UInt32.le_iff_toNat_le]
    exact h.le
  have hright : ((32 - n).toBitVec % 32).toNat = 32 - n.toNat := by
    show (32 - n).toNat % 32 = 32 - n.toNat
    rw [UInt32.toNat_sub_of_le _ _ hle]
    exact Nat.mod_eq_of_lt (Nat.sub_lt (by decide) h0)
  have hleft : (n.toBitVec % 32).toNat = n.toNat := Nat.mod_eq_of_lt h
  rw [SecureHash.rotl, BitVec.rotateLeft_def, Nat.mod_eq_of_lt h, rol, UInt32.toBitVec_or,
    UInt32.toBitVec_shiftLeft, UInt32.toBitVec_shiftRight, BitVec.shiftLeft_eq', hleft,
    BitVec.ushiftRight_eq', hright]

/-! ## The array of words -/

theorem getD_extend {w : List UInt32} {i t : ℕ} (h : t < w.length) :
    (extend w i).getD t 0 = w.getD t 0 := by
  rw [extend, List.getD_append _ _ _ _ h]

theorem length_foldl_extend (is : List ℕ) (w : List UInt32) :
    (is.foldl extend w).length = w.length + is.length := by
  induction is generalizing w with
  | nil => rfl
  | cons i is ih =>
    rw [List.foldl_cons, ih]
    simp only [extend, List.length_append, List.length_cons, List.length_nil]
    omega

theorem getD_extend_length {w : List UInt32} {i : ℕ} (h : w.length = i) :
    (extend w i).getD i 0 = rol (w.getD (i - 3) 0 ^^^ w.getD (i - 8) 0 ^^^ w.getD (i - 14) 0 ^^^
      w.getD (i - 16) 0) 1 := by
  rw [extend, List.getD_append_right _ _ _ _ h.le, h, Nat.sub_self]
  rfl

theorem length_extended (msg : Bytes) (off n : ℕ) :
    ((List.range' 16 n).foldl extend
      ((List.range 16).map fun i => wordAt msg (off + i * 4))).length = 16 + n := by
  rw [length_foldl_extend, List.length_map, List.length_range, List.length_range']

theorem toBitVec_first_words {msg : Bytes} {off : ℕ} (hoff : off + 64 ≤ msg.length) {t : ℕ}
    (ht : t < 16) : (((List.range 16).map fun i => wordAt msg (off + i * 4)).getD t 0).toBitVec =
      SecureHash.schedule (Slices.slice msg off 64) t := by
  have hword : ((List.range 16).map fun i => wordAt msg (off + i * 4)).getD t 0 =
      wordAt msg (off + t * 4) := by
    rw [List.getD_eq_getElem _ _ (by simpa using ht)]
    simp
  have hslice : Slices.slice (Slices.slice msg off 64) (4 * t) 4 =
      Slices.slice msg (off + t * 4) 4 := by
    simp only [Slices.slice, List.drop_take, List.take_take, List.drop_drop]
    congr 1
    · omega
    · congr 1
      omega
  rw [hword, toBitVec_wordAt (by omega), SecureHash.schedule_of_lt ht, SecureHash.word, hslice]

/-- The array after `n` words have been added to the sixteen of the block. -/
theorem toBitVec_extended {msg : Bytes} {off : ℕ} (hoff : off + 64 ≤ msg.length) (n : ℕ) :
    ∀ t < 16 + n, (((List.range' 16 n).foldl extend
      ((List.range 16).map fun i => wordAt msg (off + i * 4))).getD t 0).toBitVec =
      SecureHash.schedule (Slices.slice msg off 64) t := by
  induction n with
  | zero => exact fun t ht => toBitVec_first_words hoff ht
  | succ n ih =>
    intro t ht
    have hlen := length_extended msg off n
    rw [List.range'_concat, List.foldl_concat, one_mul]
    generalize (List.range' 16 n).foldl extend
      ((List.range 16).map fun i => wordAt msg (off + i * 4)) = w at ih hlen
    by_cases hlt : t < 16 + n
    · rw [getD_extend (hlen ▸ hlt), ih t hlt]
    · obtain rfl : t = 16 + n := by omega
      rw [getD_extend_length hlen, SecureHash.schedule_of_le (by omega),
        toBitVec_rol (by decide) (by decide), UInt32.toBitVec_xor, UInt32.toBitVec_xor,
        UInt32.toBitVec_xor, ih _ (by omega), ih _ (by omega), ih _ (by omega), ih _ (by omega)]
      rfl

theorem toBitVec_schedule {msg : Bytes} {off : ℕ} (hoff : off + 64 ≤ msg.length) {t : ℕ}
    (ht : t < 80) : ((schedule msg off).getD t 0).toBitVec =
      SecureHash.schedule (Slices.slice msg off 64) t :=
  toBitVec_extended hoff 64 t ht

/-! ## Rounds and blocks -/

/-- The registers as words of the standard. -/
def toWords (r : Regs) : SecureHash.Words :=
  ⟨r.a.toBitVec, r.b.toBitVec, r.c.toBitVec, r.d.toBitVec, r.e.toBitVec⟩

/-- The code's function where the standard takes `Ch`: the two parts have no bit in common. -/
theorem or_eq_ch (x y z : SecureHash.Word) : x &&& y ||| ~~~x &&& z = SecureHash.ch x y z := by
  apply BitVec.eq_of_getLsbD_eq
  intro i hi
  simp only [SecureHash.ch, BitVec.getLsbD_or, BitVec.getLsbD_and, BitVec.getLsbD_xor,
    BitVec.getLsbD_not, hi]
  cases x.getLsbD i <;> cases y.getLsbD i <;> cases z.getLsbD i <;> rfl

/-- The code's function where the standard takes `Maj`. -/
theorem or_eq_maj (x y z : SecureHash.Word) :
    x &&& y ||| x &&& z ||| y &&& z = SecureHash.maj x y z := by
  apply BitVec.eq_of_getLsbD_eq
  intro i hi
  simp only [SecureHash.maj, BitVec.getLsbD_or, BitVec.getLsbD_and, BitVec.getLsbD_xor]
  cases x.getLsbD i <;> cases y.getLsbD i <;> cases z.getLsbD i <;> rfl

theorem toWords_round {msg : Bytes} {off : ℕ} (hoff : off + 64 ≤ msg.length) (r : Regs) {t : ℕ}
    (ht : t < 80) : toWords (round (schedule msg off) r t) =
      SecureHash.round (Slices.slice msg off 64) t (toWords r) := by
  have hf : (if t < 20 then (r.b &&& r.c) ||| (~~~r.b &&& r.d)
      else if t < 40 then r.b ^^^ r.c ^^^ r.d
      else if t < 60 then (r.b &&& r.c) ||| (r.b &&& r.d) ||| (r.c &&& r.d)
      else r.b ^^^ r.c ^^^ r.d).toBitVec =
      SecureHash.f t r.b.toBitVec r.c.toBitVec r.d.toBitVec := by
    simp only [SecureHash.f]
    split_ifs
    · exact or_eq_ch _ _ _
    · rfl
    · exact or_eq_maj _ _ _
    · rfl
  have hk : (if t < 20 then (0x5A827999 : UInt32) else if t < 40 then 0x6ED9EBA1
      else if t < 60 then 0x8F1BBCDC else 0xCA62C1D6).toBitVec = SecureHash.k t := by
    simp only [SecureHash.k]
    split_ifs <;> rfl
  simp only [toWords, round, SecureHash.round, UInt32.toBitVec_add, hf, hk,
    toBitVec_schedule hoff ht]
  rw [toBitVec_rol (by decide) (by decide), toBitVec_rol (by decide) (by decide)]
  rfl

theorem toWords_rounds {msg : Bytes} {off : ℕ} (hoff : off + 64 ≤ msg.length) (r : Regs) {t : ℕ}
    (ht : t ≤ 80) : toWords ((List.range t).foldl (round (schedule msg off)) r) =
      SecureHash.working (Slices.slice msg off 64) (toWords r) t := by
  induction t with
  | zero => rfl
  | succ t ih =>
    rw [List.range_succ, List.foldl_concat, toWords_round hoff _ (by omega), ih (by omega)]
    rfl

theorem toWords_block {msg : Bytes} {off : ℕ} (hoff : off + 64 ≤ msg.length) (h : Regs) :
    toWords (block msg h off) = SecureHash.compress (toWords h) (Slices.slice msg off 64) := by
  have hr := toWords_rounds hoff h (le_refl 80)
  rw [SecureHash.compress, ← hr]
  refine SecureHash.Words.ext ?_ ?_ ?_ ?_ ?_ <;> exact BitVec.add_comm _ _

theorem chain_eq_foldl (h : SecureHash.Words) {msg : Bytes} {n : ℕ} (hn : msg.length = n * 64) :
    SecureHash.chain h msg =
      (List.range n).foldl (fun h i => SecureHash.compress h (Slices.slice msg (i * 64) 64)) h := by
  induction n generalizing h msg with
  | zero =>
    obtain rfl : msg = [] := List.eq_nil_of_length_eq_zero (by omega)
    exact SecureHash.chain_nil h
  | succ n ih =>
    have hne : msg ≠ [] := List.ne_nil_of_length_pos (by omega)
    have hrest : (msg.drop 64).length = n * 64 := by
      rw [List.length_drop]
      omega
    have hslice : ∀ i, Slices.slice (msg.drop 64) (i * 64) 64 =
        Slices.slice msg ((i + 1) * 64) 64 := by
      intro i
      rw [Slices.slice, Slices.slice, List.drop_drop, Nat.succ_mul, Nat.add_comm 64]
    rw [SecureHash.chain_of_ne_nil hne, ih _ hrest, List.range_succ_eq_map, List.foldl_cons,
      List.foldl_map]
    simp only [hslice]
    rfl

end Sha1

open Sha1 in
/-- **`sha1` is SHA-1**, for every message whose length in bits fits into 64 bits. -/
theorem sha1_eq_standard {data : Bytes} (h : data.length < 2 ^ 61) :
    sha1 data = SecureHash.sha1 data := by
  have hmod := SecureHash.length_pad_mod data
  set msg := SecureHash.pad data with hmsg
  set n := msg.length / 64 with hn
  have hlen : msg.length = n * 64 := by omega
  have hturns : (msg.length + 63) / 64 = n := by omega
  -- The loop over the blocks, in the words of the standard.
  have hblocks : ∀ k ≤ n, ∀ r : Regs,
      toWords ((List.range k).foldl (fun h i => block msg h (i * 64)) r) =
        (List.range k).foldl (fun h i => SecureHash.compress h (Slices.slice msg (i * 64) 64))
          (toWords r) := by
    intro k hk r
    induction k with
    | zero => rfl
    | succ k ih =>
      rw [List.range_succ, List.foldl_concat, List.foldl_concat,
        toWords_block (by omega), ih (by omega)]
  have hchain := hblocks n le_rfl ⟨0x67452301, 0xEFCDAB89, 0x98BADCFE, 0x10325476, 0xC3D2E1F0⟩
  rw [← chain_eq_foldl _ hlen] at hchain
  simp only [sha1, paddedMsg_eq h, ← hmsg, hturns, store_four]
  rw [SecureHash.sha1, ← hmsg, SecureHash.Words.bytes]
  exact congrArg (fun v : SecureHash.Words => [v.a, v.b, v.c, v.d, v.e].flatMap fun w =>
    BigEndian.store 4 w.toNat) hchain

theorem sha1_eq_standard_abc : sha1 [0x61, 0x62, 0x63] = SecureHash.sha1 [0x61, 0x62, 0x63] :=
  sha1_eq_standard (by decide)

example : sha1 [0x61, 0x62, 0x63] =
    [0xa9, 0x99, 0x3e, 0x36, 0x47, 0x06, 0x81, 0x6a, 0xba, 0x3e, 0x25, 0x71, 0x78, 0x50, 0xc2, 0x6c,
      0x9c, 0xd0, 0xd8, 0x9d] := by
  decide +kernel

end Rtstream
