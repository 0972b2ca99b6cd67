import Rtstream.Lib.BigEndian
import Rtstream.Lib.Slices

/-!
# SHA-1 as FIPS 180-4 defines it

Words are 32-bit vectors, the message is a string of bytes. A message is padded to whole blocks of
64 bytes (5.1.1); a block gives 80 words, the *message schedule* (6.1.2, step 1), and these take the
five working variables through 80 rounds (steps 2 and 3), after which the variables are added to the
hash value (step 4). The hash value goes from block to block, and its words are the digest.

Every function is defined as the standard writes it, by recursion on `t` and on the blocks.
-/

namespace SecureHash

abbrev Word := BitVec 32

/-! ## Functions and constants -/

/-- Rotation to the left (2.2.2). -/
def rotl (n : ℕ) (x : Word) : Word := x.rotateLeft n

def ch (x y z : Word) : Word := (x &&& y) ^^^ (~~~x &&& z)
def parity (x y z : Word) : Word := x ^^^ y ^^^ z
def maj (x y z : Word) : Word := (x &&& y) ^^^ (x &&& z) ^^^ (y &&& z)

/-- The function of round `t` (4.1.1). -/
def f (t : ℕ) : Word → Word → Word → Word :=
  if t < 20 then ch else if t < 40 then parity else if t < 60 then maj else parity

/-- The constant of round `t` (4.2.1). -/
def k (t : ℕ) : Word :=
  if t < 20 then 0x5a827999#32
  else if t < 40 then 0x6ed9eba1#32
  else if t < 60 then 0x8f1bbcdc#32
  else 0xca62c1d6#32

/-! ## Padding and blocks -/

/-- How many zero bytes follow the byte with the closing one bit. -/
def zeros (length : ℕ) : ℕ := (119 - length % 64) % 64

/-- The padded message: a one bit, zeros, and the length in bits as a 64-bit number. -/
def pad (m : List UInt8) : List UInt8 :=
  m ++ 0x80 :: List.replicate (zeros m.length) 0 ++ BigEndian.store 8 (8 * m.length)

/-- Word `t` of a block. -/
def word (block : List UInt8) (t : ℕ) : Word :=
  BitVec.ofNat 32 (BigEndian.load (Slices.slice block (4 * t) 4))

/-! ## The hash computation -/

/-- Word `t` of the message schedule of a block. -/
def schedule (block : List UInt8) (t : ℕ) : Word :=
  if t < 16 then word block t
  else rotl 1 (schedule block (t - 3) ^^^ schedule block (t - 8) ^^^ schedule block (t - 14) ^^^
    schedule block (t - 16))
termination_by t

/-- The five words of a hash value, or the five working variables. -/
@[ext] structure Words where
  a : Word
  b : Word
  c : Word
  d : Word
  e : Word
  deriving DecidableEq, Repr

/-- The initial hash value (5.3.1). -/
def initial : Words := ⟨0x67452301, 0xefcdab89, 0x98badcfe, 0x10325476, 0xc3d2e1f0⟩

/-- Round `t`. -/
def round (block : List UInt8) (t : ℕ) (v : Words) : Words where
  a := rotl 5 v.a + f t v.b v.c v.d + v.e + k t + schedule block t
  b := v.a
  c := rotl 30 v.b
  d := v.c
  e := v.d

/-- The working variables after the first `t` rounds. -/
def working (block : List UInt8) (h : Words) : ℕ → Words
  | 0 => h
  | t + 1 => round block t (working block h t)

instance : Add Words := ⟨fun v w => ⟨v.a + w.a, v.b + w.b, v.c + w.c, v.d + w.d, v.e + w.e⟩⟩

/-- The next hash value. -/
def compress (h : Words) (block : List UInt8) : Words := working block h 80 + h

/-- The hash value after all blocks of a padded message. -/
def chain (h : Words) (padded : List UInt8) : Words :=
  if padded = [] then h else chain (compress h (padded.take 64)) (padded.drop 64)
termination_by padded.length
decreasing_by
  have := List.length_pos_of_ne_nil ‹_›
  simp only [List.length_drop]
  omega

/-- The bytes of a hash value. -/
def Words.bytes (h : Words) : List UInt8 :=
  [h.a, h.b, h.c, h.d, h.e].flatMap fun w => BigEndian.store 4 w.toNat

/-- SHA-1 of a message. -/
def sha1 (m : List UInt8) : List UInt8 := (chain initial (pad m)).bytes

/-! ## The number of zeros -/

/-- **The standard's zeros**: the fewest after which the length stands at the end of a block. -/
theorem zeros_least (length : ℕ) :
    (length + 1 + zeros length) % 64 = 56 ∧
      ∀ n, (length + 1 + n) % 64 = 56 → zeros length ≤ n := by
  unfold zeros
  constructor
  · omega
  · intro n hn
    omega

theorem length_pad_mod (m : List UInt8) : (pad m).length % 64 = 0 := by
  have := (zeros_least m.length).1
  simp only [pad, List.length_append, List.length_cons, List.length_replicate,
    BigEndian.length_store]
  omega

theorem chain_nil (h : Words) : chain h [] = h := by rw [chain, if_pos rfl]

theorem chain_of_ne_nil {padded : List UInt8} (hne : padded ≠ []) (h : Words) :
    chain h padded = chain (compress h (padded.take 64)) (padded.drop 64) := by
  rw [chain, if_neg hne]

theorem schedule_of_le {block : List UInt8} {t : ℕ} (h : 16 ≤ t) :
    schedule block t = rotl 1 (schedule block (t - 3) ^^^ schedule block (t - 8) ^^^
      schedule block (t - 14) ^^^ schedule block (t - 16)) := by
  rw [schedule, if_neg (Nat.not_lt.2 h)]

theorem schedule_of_lt {block : List UInt8} {t : ℕ} (h : t < 16) :
    schedule block t = word block t := by
  rw [schedule, if_pos h]

end SecureHash
