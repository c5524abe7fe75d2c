import Mathlib.Data.BitVec
import Mathlib.Tactic.Ring

/-!
# Byte strings and big-endian numbers

A byte string is read as a big-endian natural number, and a natural number is
written in a prescribed number of big-endian bytes. The writer keeps the low
bytes only, so the two round trips hold modulo the prescribed width.
-/

namespace CloakBridge

open List

/-- A sequence of bytes, in order of increasing address. -/
abbrev ByteString := List UInt8

/-- A 256-bit machine word. -/
abbrev Word := BitVec 256

/-- The big-endian value of a byte string. -/
def fromBigEndian (bs : ByteString) : Nat := bs.foldl (fun acc b => 256 * acc + b.toNat) 0

/-- The low `width` bytes of a number, most significant first. -/
def toBigEndian : Nat → Nat → ByteString
  | 0, _ => []
  | width + 1, x => toBigEndian width (x / 256) ++ [UInt8.ofNat x]

@[simp] theorem fromBigEndian_nil : fromBigEndian [] = 0 := rfl

/-- A byte at the end counts once. -/
theorem fromBigEndian_append_singleton (bs : ByteString) (b : UInt8) :
    fromBigEndian (bs ++ [b]) = 256 * fromBigEndian bs + b.toNat := by
  simp only [fromBigEndian, foldl_append, foldl_cons, foldl_nil]

@[simp] theorem length_toBigEndian (width x : Nat) : (toBigEndian width x).length = width := by
  induction width generalizing x with
  | zero => rfl
  | succ width ih => simp [toBigEndian, ih]

/-- Reading back what was written keeps the number modulo the written width. -/
theorem fromBigEndian_toBigEndian (width x : Nat) :
    fromBigEndian (toBigEndian width x) = x % 256 ^ width := by
  induction width generalizing x with
  | zero => simp [toBigEndian, Nat.mod_one]
  | succ width ih =>
    rw [toBigEndian, fromBigEndian_append_singleton, ih, pow_succ, Nat.mul_comm (256 ^ width),
      Nat.mod_mul]
    simp only [UInt8.toNat_ofNat']
    omega

/-- A byte string is below the bound its length sets. -/
theorem fromBigEndian_lt (bs : ByteString) : fromBigEndian bs < 256 ^ bs.length := by
  induction bs using List.reverseRecOn with
  | nil => simp
  | append_singleton bs b ih =>
    rw [fromBigEndian_append_singleton, length_append, length_singleton, pow_succ]
    have hb := b.toNat_lt
    omega

/-- Writing a byte string's value in its own length restores every byte. -/
theorem toBigEndian_fromBigEndian (bs : ByteString) :
    toBigEndian bs.length (fromBigEndian bs) = bs := by
  induction bs using List.reverseRecOn with
  | nil => rfl
  | append_singleton bs b ih =>
    have hb := b.toNat_lt
    have hdiv : (256 * fromBigEndian bs + b.toNat) / 256 = fromBigEndian bs := by omega
    have hlow : UInt8.ofNat (256 * fromBigEndian bs + b.toNat) = b := by
      apply UInt8.toNat_inj.mp
      rw [UInt8.toNat_ofNat']
      omega
    rw [fromBigEndian_append_singleton, length_append, length_singleton, toBigEndian,
      hdiv, ih, hlow]

/-- The 32 big-endian bytes of a word. -/
def wordBytes (w : Word) : ByteString := toBigEndian 32 w.toNat

/-- The word held in the first 32 bytes of a buffer. -/
def wordOfBytes (bs : ByteString) : Word := BitVec.ofNat 256 (fromBigEndian (bs.take 32))

@[simp] theorem length_wordBytes (w : Word) : (wordBytes w).length = 32 := length_toBigEndian _ _

/-- A word is read back from its bytes. -/
@[simp] theorem wordOfBytes_wordBytes (w : Word) : wordOfBytes (wordBytes w) = w := by
  have htake : (wordBytes w).take 32 = wordBytes w := take_of_length_le (by simp)
  rw [wordOfBytes, htake, wordBytes, fromBigEndian_toBigEndian]
  apply BitVec.eq_of_toNat_eq
  have hw := w.isLt
  rw [BitVec.toNat_ofNat, show (256 : Nat) ^ 32 = 2 ^ 256 by norm_num, Nat.mod_mod,
    Nat.mod_eq_of_lt hw]

/-- The bytes of a word denote its value. -/
theorem fromBigEndian_wordBytes (w : Word) : fromBigEndian (wordBytes w) = w.toNat := by
  have hw := w.isLt
  rw [wordBytes, fromBigEndian_toBigEndian, show (256 : Nat) ^ 32 = 2 ^ 256 by norm_num,
    Nat.mod_eq_of_lt hw]

/-- No two words share their big-endian bytes. -/
theorem wordBytes_injective : Function.Injective wordBytes :=
  Function.LeftInverse.injective wordOfBytes_wordBytes

/-- Any 32 bytes are the bytes of the word they hold. -/
theorem wordBytes_wordOfBytes {bs : ByteString} (h : bs.length = 32) :
    wordBytes (wordOfBytes bs) = bs := by
  have hlt := fromBigEndian_lt bs
  rw [h, show (256 : Nat) ^ 32 = 2 ^ 256 by norm_num] at hlt
  rw [wordBytes, wordOfBytes, take_of_length_le h.le, BitVec.toNat_ofNat,
    Nat.mod_eq_of_lt hlt, ← h, toBigEndian_fromBigEndian]

/-- How many bytes a number has without leading zeros. -/
def significantBytes (n : Nat) : Nat := if n = 0 then 0 else Nat.log2 n / 8 + 1

/-- The significant bytes are enough for the number. -/
theorem lt_pow_significantBytes (n : Nat) : n < 256 ^ significantBytes n := by
  rw [significantBytes]
  split
  next h => simp [h]
  next h =>
    have hlog : n < 2 ^ (Nat.log2 n + 1) := Nat.lt_log2_self
    have hpow : (256 : Nat) ^ (Nat.log2 n / 8 + 1) = 2 ^ (8 * (Nat.log2 n / 8 + 1)) := by
      rw [pow_mul]
      norm_num
    rw [hpow]
    exact hlog.trans_le (Nat.pow_le_pow_right (by omega) (by omega))

/-- The numbers for which `k` bytes are enough. -/
theorem significantBytes_le_iff {n k : Nat} : significantBytes n ≤ k ↔ n < 256 ^ k := by
  constructor
  · intro h
    exact (lt_pow_significantBytes n).trans_le (Nat.pow_le_pow_right (by omega) h)
  · intro h
    rw [significantBytes]
    split
    next => omega
    next hn =>
      have hpow : (256 : Nat) ^ k = 2 ^ (8 * k) := by
        rw [pow_mul]
        norm_num
      rw [hpow] at h
      have hlog : Nat.log2 n < 8 * k := (Nat.log2_lt hn).mpr h
      omega

/-- Dropping leading bytes leaves the low bytes. -/
theorem drop_toBigEndian (width k x : Nat) (h : k ≤ width) :
    (toBigEndian width x).drop (width - k) = toBigEndian k x := by
  induction width generalizing k x with
  | zero =>
    obtain rfl : k = 0 := by omega
    rfl
  | succ width ih =>
    cases k with
    | zero => simp [toBigEndian]
    | succ k =>
      have hdrop : width - k ≤ (toBigEndian width (x / 256)).length := by
        simp
      rw [toBigEndian, Nat.add_sub_add_right, drop_append_of_le_length hdrop,
        ih k (x / 256) (by omega), toBigEndian]

/-- The first byte counts most. -/
theorem fromBigEndian_cons (b : UInt8) (bs : ByteString) :
    fromBigEndian (b :: bs) = 256 ^ bs.length * b.toNat + fromBigEndian bs := by
  induction bs using List.reverseRecOn with
  | nil => simp [fromBigEndian]
  | append_singleton bs c ih =>
    rw [← cons_append, fromBigEndian_append_singleton, ih, fromBigEndian_append_singleton,
      length_append, length_singleton, pow_succ]
    ring

/-- What comes first is shifted by what follows. -/
theorem fromBigEndian_append (bs cs : ByteString) :
    fromBigEndian (bs ++ cs) = 256 ^ cs.length * fromBigEndian bs + fromBigEndian cs := by
  induction bs with
  | nil => simp
  | cons b bs ih =>
    rw [cons_append, fromBigEndian_cons, fromBigEndian_cons, ih, length_append, pow_add]
    ring

@[simp] theorem fromBigEndian_replicate_zero (n : Nat) :
    fromBigEndian (List.replicate n 0) = 0 := by
  induction n with
  | zero => rfl
  | succ n ih => simp [replicate_succ, fromBigEndian_cons, ih]

/-- The most significant byte comes first. -/
theorem toBigEndian_succ_cons {width x y : Nat} (hx : x < 256) (hy : y < 256 ^ width) :
    toBigEndian (width + 1) (256 ^ width * x + y) = UInt8.ofNat x :: toBigEndian width y := by
  have hvalue : fromBigEndian (UInt8.ofNat x :: toBigEndian width y) = 256 ^ width * x + y := by
    rw [fromBigEndian_cons, length_toBigEndian, fromBigEndian_toBigEndian, Nat.mod_eq_of_lt hy,
      UInt8.toNat_ofNat', Nat.mod_eq_of_lt hx]
  have hlength : (UInt8.ofNat x :: toBigEndian width y).length = width + 1 := by simp
  rw [← hvalue, ← hlength, toBigEndian_fromBigEndian]

/-- A number that fits in `k` bytes is written with zeros in front. -/
theorem toBigEndian_add_of_lt {k x : Nat} (zeros : Nat) (h : x < 256 ^ k) :
    toBigEndian (zeros + k) x = List.replicate zeros 0 ++ toBigEndian k x := by
  induction zeros with
  | zero => simp
  | succ zeros ih =>
    have hx : x < 256 ^ (zeros + k) := h.trans_le (Nat.pow_le_pow_right (by omega) (by omega))
    have hcons := toBigEndian_succ_cons (x := 0) (by omega) hx
    rw [Nat.mul_zero, Nat.zero_add] at hcons
    rw [Nat.add_right_comm, hcons, ih]
    rfl

/-- The bytes combined with those of a mask. -/
def masked (mask plain : ByteString) : ByteString :=
  plain.mapIdx fun i b => b ^^^ mask.getD i 0

/-- The mask is taken off by combining again. -/
theorem masked_masked (mask plain : ByteString) : masked mask (masked mask plain) = plain := by
  apply ext_getElem
  · simp [masked]
  · intro i hi hi'
    simp only [masked, getElem_mapIdx, UInt8.xor_assoc, UInt8.xor_self, UInt8.xor_zero]

end CloakBridge
