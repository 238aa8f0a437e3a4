/-
# Theory.Bytes — little-endian words and exact-length reads

Every on-disk format of the broker is a concatenation of fixed-width
little-endian words and length-prefixed byte strings.  This module gives the
words (`leBytes`, `leNat`), the two's-complement reading of a 64-bit word
(`int64`), and the exact-length read (`readFull`), each with the round trip the
format proofs use.

`checksumIEEE` is the reflected CRC-32 of IEEE 802.3, bit by bit.

Nothing here knows a format: a codec is proved by chaining `readFull_append`
and `leNat_leBytes`, never by unfolding a byte, and no proof looks inside the
checksum.
-/
import Mathlib.Data.List.Basic
import Mathlib.Tactic.Ring
import Mathlib.Tactic.Linarith

namespace PubsubBroker.Theory

open List

abbrev Bytes := List UInt8

/-! ## Words -/

/-- The low `w` bytes of `n`, least significant first. -/
def leBytes : Nat → Nat → Bytes
  | 0, _ => []
  | w + 1, n => UInt8.ofNat (n % 256) :: leBytes w (n / 256)

/-- The number a little-endian byte string denotes. -/
def leNat : Bytes → Nat
  | [] => 0
  | b :: bs => b.toNat + 256 * leNat bs

@[simp] theorem leBytes_length (w n : Nat) : (leBytes w n).length = w := by
  induction w generalizing n with
  | zero => rfl
  | succ w ih => simp [leBytes, ih]

/-- A word keeps exactly the low `w` bytes of the number written into it. -/
theorem leNat_leBytes_mod (w n : Nat) : leNat (leBytes w n) = n % 256 ^ w := by
  induction w generalizing n with
  | zero => simp [leBytes, leNat, Nat.mod_one]
  | succ w ih => grind [UInt8.toNat_ofNat', leBytes, leNat, Nat.mod_mul]

theorem leNat_leBytes {w n : Nat} (fits : n < 256 ^ w) : leNat (leBytes w n) = n := by
  rw [leNat_leBytes_mod, Nat.mod_eq_of_lt fits]

theorem take_leBytes (w n : Nat) (tail : Bytes) : (leBytes w n ++ tail).take w = leBytes w n :=
  take_left' (leBytes_length w n)

theorem drop_leBytes (w n : Nat) (tail : Bytes) : (leBytes w n ++ tail).drop w = tail :=
  drop_left' (leBytes_length w n)

/-- Dropping up to a word and then the word itself. -/
theorem drop_add_leBytes {i w n : Nat} {input tail : Bytes}
    (word : input.drop i = leBytes w n ++ tail) : input.drop (i + w) = tail := by
  rw [← drop_drop, word, drop_leBytes]

/-- Most significant byte first. -/
def beBytes (w n : Nat) : Bytes := (leBytes w n).reverse

def beNat (b : Bytes) : Nat := leNat b.reverse

@[simp] theorem beBytes_length (w n : Nat) : (beBytes w n).length = w := by
  simp [beBytes]

theorem beNat_beBytes_mod (w n : Nat) : beNat (beBytes w n) = n % 256 ^ w := by
  rw [beNat, beBytes, reverse_reverse, leNat_leBytes_mod]

theorem leNat_lt (bs : Bytes) : leNat bs < 256 ^ bs.length := by
  induction bs with
  | nil => exact Nat.one_pos
  | cons b bs ih => grind [UInt8.toNat_lt, leNat]

theorem beNat_lt (bs : Bytes) : beNat bs < 256 ^ bs.length := by
  simpa [beNat] using leNat_lt bs.reverse

theorem beNat_concat (bs : Bytes) (b : UInt8) : beNat (bs ++ [b]) = 256 * beNat bs + b.toNat := by
  simp [beNat, leNat, Nat.add_comm]

/-! ## Signed words -/

/-- A signed 64-bit number. -/
def IsInt64 (z : Int) : Prop := -2 ^ 63 ≤ z ∧ z < 2 ^ 63
deriving Decidable

/-- The unsigned 64-bit image of a signed offset. -/
def uint64 (z : Int) : Nat := (z % 2 ^ 64).toNat

/-- The signed reading of a 64-bit word. -/
def int64 (n : Nat) : Int := Int.bmod n (2 ^ 64)

theorem uint64_lt (z : Int) : uint64 z < 256 ^ 8 := by
  simp [uint64]; omega

theorem int64_range (n : Nat) : IsInt64 (int64 n) := by
  have low := Int.le_bmod (x := (n : Int)) (m := 2 ^ 64) (by norm_num)
  have high := Int.bmod_lt (x := (n : Int)) (m := 2 ^ 64) (by norm_num)
  unfold IsInt64 int64
  norm_num at low high ⊢
  omega

theorem int64_uint64 {z : Int} (low : -2 ^ 63 ≤ z) (high : z < 2 ^ 63) :
    int64 (uint64 z) = z := by
  have nonneg := Int.emod_nonneg z (show (2 : Int) ^ 64 ≠ 0 by norm_num)
  have word : ((uint64 z : Nat) : Int) = z % ((2 ^ 64 : Nat) : Int) := by simp [uint64]; omega
  unfold int64
  rw [word, Int.emod_bmod]
  apply Int.bmod_eq_of_le <;> norm_num <;> omega

theorem int64_eq {n : Nat} (word : n < 2 ^ 64) :
    int64 n = if n < 2 ^ 63 then (n : Int) else n - 2 ^ 64 := by
  have whole : (n : Int) % ((2 ^ 64 : Nat) : Int) = n :=
    Int.emod_eq_of_lt (by omega) (by exact_mod_cast word)
  unfold int64
  rw [Int.bmod_def, whole]
  norm_num

/-- A signed 64-bit field survives being written and read back. -/
theorem int64_leNat_leBytes {z : Int} (low : -2 ^ 63 ≤ z) (high : z < 2 ^ 63) :
    int64 (leNat (leBytes 8 (uint64 z))) = z := by
  rw [leNat_leBytes (uint64_lt z), int64_uint64 low high]

/-! ## Checksum -/

/-- One bit of the reflected CRC-32 register. -/
def crcShift (crc : UInt32) : UInt32 :=
  if crc &&& 1 = 1 then (crc >>> 1) ^^^ 0xEDB88320 else crc >>> 1

def crcByte (crc : UInt32) (b : UInt8) : UInt32 :=
  Nat.repeat crcShift 8 (crc ^^^ b.toUInt32)

def checksumIEEE (data : Bytes) : UInt32 :=
  data.foldl crcByte 0xFFFFFFFF ^^^ 0xFFFFFFFF

-- the standard check value: the CRC-32 of the ASCII digits 1 to 9
example : checksumIEEE [49, 50, 51, 52, 53, 54, 55, 56, 57] = 0xCBF43926 := by decide +kernel

theorem checksumIEEE_lt (data : Bytes) : (checksumIEEE data).toNat < 256 ^ 4 :=
  UInt32.toNat_lt _

/-! ## Exact-length reads -/

/-- Read exactly `n` bytes, or fail when fewer are left. -/
def readFull (n : Nat) (input : Bytes) : Option (Bytes × Bytes) :=
  if input.length < n then none else some (input.take n, input.drop n)

theorem readFull_append (field rest : Bytes) :
    readFull field.length (field ++ rest) = some (field, rest) := by
  simp [readFull]

theorem readFull_append_of_length {n : Nat} {field : Bytes} (len : field.length = n)
    (rest : Bytes) : readFull n (field ++ rest) = some (field, rest) := by
  subst len
  exact readFull_append field rest

theorem readFull_short {n : Nat} {input : Bytes} (short : input.length < n) :
    readFull n input = none := by
  simp [readFull, short]

theorem readFull_eq_some {n : Nat} {input field rest : Bytes}
    (read : readFull n input = some (field, rest)) :
    input = field ++ rest ∧ field.length = n := by
  unfold readFull at read
  split at read
  · cases read
  · grind [take_append_drop]

end PubsubBroker.Theory
