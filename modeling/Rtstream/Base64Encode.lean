import Rtstream.Sha1
import Rtstream.Lib.Base64

/-!
# `sha1.h`: Base64, and the handshake's answer

`base64_encode` collects three bytes in a 32-bit number, reads behind the end of the data only
after a test, and writes four characters. Without the first three bytes it does the same with the
rest of the data (`base64Encode_cons`), so a text is a group followed by a text: both its shape
and the way back go by recursion on the data, three bytes at a time. `decode_accept` puts it
behind SHA-1, as the WebSocket handshake does.
-/

namespace Rtstream

/-! ## The code -/

/-- The table of `base64_encode`. -/
def tbl : List Char :=
  "ABCDEFGHIJKLMNOPQRSTUVWXYZabcdefghijklmnopqrstuvwxyz0123456789+/".toList

/-- `tbl[(v >> shift) & 63]` -/
def tblAt (v shift : UInt32) : Char := tbl.getD ((v >>> shift) &&& 63).toNat '='

/-- One turn of the loop, with its four characters. -/
def base64Group (data : Bytes) (i : ℕ) : List Char :=
  let v : UInt32 := (data.getD i 0).toUInt32 <<< 16
  let v := if i + 1 < data.length then v ||| (data.getD (i + 1) 0).toUInt32 <<< 8 else v
  let v := if i + 2 < data.length then v ||| (data.getD (i + 2) 0).toUInt32 else v
  [tblAt v 18, tblAt v 12, if i + 1 < data.length then tblAt v 6 else '=',
    if i + 2 < data.length then tblAt v 0 else '=']

/-- `base64_encode`: `for (size_t i = 0; i < len; i += 3)`. -/
def base64Encode (data : Bytes) : List Char :=
  (List.range ((data.length + 2) / 3)).flatMap fun turn => base64Group data (turn * 3)

/-! ## Groups -/

theorem tblAt_eq (v shift : UInt32) (h : shift.toNat < 32) :
    tblAt v shift = Base64.symbol (v.toNat / 2 ^ shift.toNat % 64) := by
  have hbits : ((v >>> shift) &&& 63).toNat = v.toNat / 2 ^ shift.toNat % 64 := by
    rw [UInt32.toNat_and, UInt32.toNat_shiftRight, Nat.mod_eq_of_lt h, Nat.shiftRight_eq_div_pow]
    exact Nat.and_two_pow_sub_one_eq_mod _ 6
  rw [tblAt, hbits]
  rfl

theorem toNat_group (a b c : UInt8) :
    (a.toUInt32 <<< 16 ||| b.toUInt32 <<< 8 ||| c.toUInt32).toNat =
      (a.toNat * 256 + b.toNat) * 256 + c.toNat := by
  rw [UInt32.toNat_or, UInt32.toNat_or, Sha1.toNat_byte_shift _ (by decide),
    Sha1.toNat_byte_shift _ (by decide), UInt8.toNat_toUInt32]
  calc a.toNat <<< (8 + 8) ||| b.toNat <<< (0 + 8) ||| c.toNat <<< 0
      = (a.toNat * 256 + b.toNat) * 256 + c.toNat := by
        rw [BigEndian.shiftLeft_or_shiftLeft b.toNat_lt,
          BigEndian.shiftLeft_or_shiftLeft c.toNat_lt, Nat.shiftLeft_zero]

theorem tblAt_group (a b c : UInt8) :
    let v := a.toUInt32 <<< 16 ||| b.toUInt32 <<< 8 ||| c.toUInt32
    tblAt v 18 = Base64.symbol (a.toNat / 4) ∧
      tblAt v 12 = Base64.symbol (a.toNat % 4 * 16 + b.toNat / 16) ∧
      tblAt v 6 = Base64.symbol (b.toNat % 16 * 4 + c.toNat / 64) ∧
      tblAt v 0 = Base64.symbol (c.toNat % 64) := by
  have ha := a.toNat_lt
  have hb := b.toNat_lt
  have hc := c.toNat_lt
  intro v
  have hv : v.toNat = (a.toNat * 256 + b.toNat) * 256 + c.toNat := toNat_group a b c
  refine ⟨?_, ?_, ?_, ?_⟩
  · rw [tblAt_eq _ _ (by decide), hv]
    exact congrArg _ (by show _ / 2 ^ 18 % 64 = _; omega)
  · rw [tblAt_eq _ _ (by decide), hv]
    exact congrArg _ (by show _ / 2 ^ 12 % 64 = _; omega)
  · rw [tblAt_eq _ _ (by decide), hv]
    exact congrArg _ (by show _ / 2 ^ 6 % 64 = _; omega)
  · rw [tblAt_eq _ _ (by decide), hv]
    exact congrArg _ (by show _ / 2 ^ 0 % 64 = _; omega)

theorem base64Group_three (a b c : UInt8) (rest : Bytes) : base64Group (a :: b :: c :: rest) 0 =
    [Base64.symbol (a.toNat / 4), Base64.symbol (a.toNat % 4 * 16 + b.toNat / 16),
      Base64.symbol (b.toNat % 16 * 4 + c.toNat / 64), Base64.symbol (c.toNat % 64)] := by
  obtain ⟨h18, h12, h6, h0⟩ := tblAt_group a b c
  rw [← h18, ← h12, ← h6, ← h0]
  simp [base64Group]

theorem base64Group_two (a b : UInt8) : base64Group [a, b] 0 =
    [Base64.symbol (a.toNat / 4), Base64.symbol (a.toNat % 4 * 16 + b.toNat / 16),
      Base64.symbol (b.toNat % 16 * 4), '='] := by
  obtain ⟨h18, h12, h6, -⟩ := tblAt_group a b 0
  simp only [UInt8.toNat_zero, Nat.zero_div, Nat.add_zero] at h6
  rw [← h18, ← h12, ← h6]
  simp [base64Group]

theorem base64Group_one (a : UInt8) : base64Group [a] 0 =
    [Base64.symbol (a.toNat / 4), Base64.symbol (a.toNat % 4 * 16), '=', '='] := by
  obtain ⟨h18, h12, -, -⟩ := tblAt_group a 0 0
  simp only [UInt8.toNat_zero, Nat.zero_div, Nat.add_zero] at h12
  rw [← h18, ← h12]
  simp [base64Group]

/-- A group does not see what is three bytes or more before it. -/
theorem base64Group_cons (a b c : UInt8) (rest : Bytes) (i : ℕ) :
    base64Group (a :: b :: c :: rest) (i + 3) = base64Group rest i := by
  simp only [base64Group, List.length_cons, show i + 3 + 1 = i + 1 + 3 by omega,
    show i + 3 + 2 = i + 2 + 3 by omega, List.getD_cons_succ, Nat.add_lt_add_iff_right]

theorem base64Encode_cons (a b c : UInt8) (rest : Bytes) :
    base64Encode (a :: b :: c :: rest) =
      base64Group (a :: b :: c :: rest) 0 ++ base64Encode rest := by
  have hturns : ((a :: b :: c :: rest).length + 2) / 3 = (rest.length + 2) / 3 + 1 := by
    simp only [List.length_cons]
    omega
  have hgroup : ∀ turn, base64Group (a :: b :: c :: rest) ((turn + 1) * 3) =
      base64Group rest (turn * 3) := by
    intro turn
    rw [Nat.succ_mul, base64Group_cons]
  rw [base64Encode, hturns, List.range_succ_eq_map, List.flatMap_cons, List.flatMap_map]
  simp only [hgroup]
  rfl

theorem base64Encode_two (a b : UInt8) : base64Encode [a, b] = base64Group [a, b] 0 := by
  simp [base64Encode]

theorem base64Encode_one (a : UInt8) : base64Encode [a] = base64Group [a] 0 := by
  simp [base64Encode]

/-! ## The text -/

theorem length_base64Encode (data : Bytes) :
    (base64Encode data).length = 4 * ((data.length + 2) / 3) := by
  rw [base64Encode, List.length_flatMap]
  simp [base64Group, Nat.mul_comm]

theorem wellFormed_base64Encode : ∀ data : Bytes, Base64.WellFormed data.length (base64Encode data)
  | [] => ⟨[], rfl, by simp⟩
  | [a] => by
    have ha := a.toNat_lt
    refine ⟨[Base64.symbol (a.toNat / 4), Base64.symbol (a.toNat % 4 * 16)], ?_, ?_⟩
    · rw [base64Encode_one, base64Group_one]
      rfl
    · simp only [List.forall_mem_cons]
      exact ⟨Base64.symbol_mem (by omega), Base64.symbol_mem (by omega), by simp⟩
  | [a, b] => by
    have ha := a.toNat_lt
    have hb := b.toNat_lt
    refine ⟨[Base64.symbol (a.toNat / 4), Base64.symbol (a.toNat % 4 * 16 + b.toNat / 16),
      Base64.symbol (b.toNat % 16 * 4)], ?_, ?_⟩
    · rw [base64Encode_two, base64Group_two]
      rfl
    · simp only [List.forall_mem_cons]
      exact ⟨Base64.symbol_mem (by omega), Base64.symbol_mem (by omega),
        Base64.symbol_mem (by omega), by simp⟩
  | a :: b :: c :: rest => by
    have ha := a.toNat_lt
    have hb := b.toNat_lt
    have hc := c.toNat_lt
    obtain ⟨body, hbody, hmem⟩ := wellFormed_base64Encode rest
    refine ⟨base64Group (a :: b :: c :: rest) 0 ++ body, ?_, ?_⟩
    · have hmod : (a :: b :: c :: rest).length % 3 = rest.length % 3 := by
        simp only [List.length_cons]
        omega
      rw [base64Encode_cons, hbody, hmod, List.append_assoc]
    · refine List.forall_mem_append.2 ⟨?_, hmem⟩
      rw [base64Group_three]
      simp only [List.forall_mem_cons]
      exact ⟨Base64.symbol_mem (by omega), Base64.symbol_mem (by omega),
        Base64.symbol_mem (by omega), Base64.symbol_mem (by omega), by simp⟩

theorem decode_base64Encode : ∀ data : Bytes, Base64.decode (base64Encode data) = some data
  | [] => rfl
  | [a] => by rw [base64Encode_one, base64Group_one, Base64.decode_one]
  | [a, b] => by rw [base64Encode_two, base64Group_two, Base64.decode_two]
  | a :: b :: c :: rest => by
    rw [base64Encode_cons, base64Group_three]
    simp only [List.cons_append, List.nil_append]
    rw [Base64.decode_group, decode_base64Encode rest]
    rfl

/-- **`base64_encode` writes Base64**: four characters for every three bytes begun, padding only at
the end, and the decoder gives the bytes back. -/
theorem base64_encode_decodes (data : Bytes) :
    (base64Encode data).length = 4 * ((data.length + 2) / 3) ∧
      Base64.WellFormed data.length (base64Encode data) ∧
      Base64.decode (base64Encode data) = some data :=
  ⟨length_base64Encode data, wellFormed_base64Encode data, decode_base64Encode data⟩

/-! ## The handshake -/

/-- `guid` in `send_handshake_response`. -/
def guid : Bytes :=
  "258EAFA5-E914-47DA-95CA-C5AB0DC85B11".toList.map fun c => c.toNat.toUInt8

/-- `accept` in `send_handshake_response`: the answer to a client's key. -/
def accept (key : Bytes) : List Char := base64Encode (sha1 (key ++ guid))

/-- The answer is the text of the digest of the key and the protocol's constant. -/
theorem decode_accept (key : Bytes) : Base64.decode (accept key) = some (sha1 (key ++ guid)) :=
  decode_base64Encode _

example : accept ("dGhlIHNhbXBsZSBub25jZQ==".toList.map fun c => c.toNat.toUInt8) =
    "s3pPLMBiTxaQ9kYGzzhZRbK+xOo=".toList := by
  decide +kernel

end Rtstream
