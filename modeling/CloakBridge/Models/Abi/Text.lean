import CloakBridge.Core.Hex
import Mathlib.Data.List.TakeWhile

/-!
# The texts of the ABI coder

Values reach the coder as strings. Numbers are read by `intx::from_string`,
byte strings and addresses by two routines that cut the digits into pairs: the
one of the interpreter pairs from the right, the one of the coder from the left.
A string is its bytes.
-/

namespace CloakBridge.Abicoder

open List

/-- Why the coder gives up. `undefined` stands for an access outside a vector that the code does
not check. -/
inductive Failure where
  /-- "Invalid length, want 32 but get ..." -/
  | invalidLength (size : Nat)
  /-- "Handle encoding string to uint8 array error, offset out of maximum range 32" -/
  | offsetOutOfRange
  /-- `std::out_of_range`, of a number or of `std::vector::at` -/
  | outOfRange
  /-- `std::invalid_argument`, "invalid digit" -/
  | invalidDigit
  /-- "Bitsize must be 8 bit aligned, and in range 0 < bitSize <= 256, and in valid range." -/
  | bitSize
  /-- "Input value length is greater than 1" -/
  | boolLength
  /-- "The input value exceeds the maximum range of the bool type" -/
  | boolRange
  /-- "decode bool failed" -/
  | boolDecode
  /-- "Input bytes must be in range 0 < M <= 32 and length must match type, ..." -/
  | bytesSize (byteSize valueSize : Nat)
  /-- "Expected array of type ... to have [...] elements, but get ..." -/
  | arraySize (expected got : Nat)
  /-- "Insufficient array length, want [...] get [...]" -/
  | insufficient (want got : Nat)
  /-- "Value on NumbericType ... is larger than 2^64" -/
  | largerThan64 (value : Word)
  /-- "Input value length has no enough space" -/
  | noSpace
  /-- "The minimum length of the dynamic array type is 1, get ..." -/
  | minimumLength
  /-- "The parsed dynamic type length does not match the actual array length, ..." -/
  | lengthMismatch (want got : Nat)
  /-- the `type_error` of the JSON library -/
  | jsonType
  /-- "Internal Error" -/
  | internalError
  | undefined
  deriving DecidableEq, Repr

/-- The two characters in front of a hexadecimal literal. -/
def hexPrefix : ByteString := [48, 120]

/-- `eevm::strip` -/
def strip (s : ByteString) : ByteString := if s[1]? = some 120 then s.drop 2 else s

/-- The characters `strtol` skips in front of a number. -/
def isSpace (c : UInt8) : Bool := c = 32 || (9 ≤ c && c ≤ 13)

/-- `strtol(s.c_str(), 0, 16)` as a byte, for the one or two characters it is called with: a
sign, then digits up to the first other character. -/
def strtol (s : ByteString) : UInt8 :=
  let digits (s : ByteString) : Nat := hexValue (s.takeWhile fun c => (hexDigit? c).isSome)
  match s.dropWhile isSpace with
  | 43 :: s => UInt8.ofNat (digits s)
  | 45 :: s => 0 - UInt8.ofNat (digits s)
  | s => UInt8.ofNat (digits s)

/-- The loops over `s.substr(x, 2)`. -/
def hexPairs : ByteString → ByteString
  | [] => []
  | [c] => [strtol [c]]
  | c :: d :: s => strtol [c, d] :: hexPairs s

/-- `eevm::to_bytes`: the first character of an odd number stands alone. -/
def evmToBytes (text : ByteString) : ByteString :=
  let s := strip text
  if s.length % 2 = 1 then hexPairs (s.take 1) ++ hexPairs (s.drop 1) else hexPairs s

/-- `abicoder::to_bytes`: 32 bytes, the pairs written from `offset` on. -/
def toBytes (text : ByteString) (offset : Nat) : Except Failure ByteString :=
  let s := strip text
  if 64 < s.length then .error (.invalidLength s.length)
  else if s ≠ [] ∧ 32 < offset + (hexPairs s).length then .error .offsetOutOfRange
  else .ok (List.replicate offset 0 ++ hexPairs s ++
    List.replicate (32 - offset - (hexPairs s).length) 0)

/-- `bytes_strip` -/
def bytesStrip (src : ByteString) : ByteString :=
  if src[1]? = some 120 then evmToBytes src else src

/-- The hexadecimal loop of `intx::from_string`, after `count` digits. -/
def fromHexString : Nat → Word → ByteString → Except Failure Word
  | _, x, [] => .ok x
  | count, x, c :: s =>
    if 64 < count + 1 then .error .outOfRange
    else match hexDigit? c with
      | none => .error .invalidDigit
      | some d => fromHexString (count + 1) (x <<< 4 ||| BitVec.ofNat 256 d) s

/-- The decimal loop of `intx::from_string`, after `count` digits; `digits10` of the number type
is 77. -/
def fromDecString : Nat → Word → ByteString → Except Failure Word
  | _, x, [] => .ok x
  | count, x, c :: s =>
    if 77 < count then .error .outOfRange
    else if c < 48 ∨ 57 < c then .error .invalidDigit
    else
      let d := BitVec.ofNat 256 (c.toNat - 48)
      let x := x * 10 + d
      if x < d then .error .outOfRange else fromDecString (count + 1) x s

/-- `eevm::to_uint256` of a string, read up to its first zero character. -/
def toUint256 (text : ByteString) : Except Failure Word :=
  match text.takeWhile (· ≠ 0) with
  | 48 :: 120 :: s => fromHexString 0 0 s
  | s => fromDecString 0 0 s

/-- `eevm::to_hex_string` of a number -/
def numberToHexString (w : Word) : ByteString := hexPrefix ++ hexDigits w

/-- `eevm::to_hex_string` of bytes, and `Keccak256::hex_str` -/
def toHexString (bs : ByteString) : ByteString := hexPrefix ++ hexOfBytes bs

variable {s : ByteString} {n : Nat}

/-- A hexadecimal digit is no character that a number reader treats otherwise. -/
theorem hexDigit_plain {c : UInt8} (h : (hexDigit? c).isSome) :
    isSpace c = false ∧ c ≠ 43 ∧ c ≠ 45 ∧ c ≠ 0 ∧ c ≠ 120 := by
  have hall : ∀ n : Fin 256, (hexDigit? (UInt8.ofNat n)).isSome → isSpace (UInt8.ofNat n) = false ∧
      UInt8.ofNat n ≠ 43 ∧ UInt8.ofNat n ≠ 45 ∧ UInt8.ofNat n ≠ 0 ∧ UInt8.ofNat n ≠ 120 := by
    decide +kernel
  have hc := hall ⟨c.toNat, c.toNat_lt⟩
  simp only [UInt8.ofNat_toNat] at hc
  exact hc h

private theorem strtol_of_isHex (hs : IsHex s) (hne : s ≠ []) :
    strtol s = UInt8.ofNat (hexValue s) := by
  obtain ⟨c, s, rfl⟩ := exists_cons_of_ne_nil hne
  obtain ⟨hspace, hplus, hminus, -, -⟩ := hexDigit_plain (hs c mem_cons_self)
  have htake : (c :: s).takeWhile (fun c => (hexDigit? c).isSome) = c :: s :=
    takeWhile_eq_self_iff.mpr hs
  simp only [strtol, dropWhile_cons, hspace, Bool.false_eq_true, if_false]
  split
  next h => simp_all
  next h => simp_all
  next => rw [htake]

private theorem length_odd_even (n : Nat) : ¬(2 * n) % 2 = 1 := by omega

/-- An even number of digits is cut into the bytes of its value. -/
theorem hexPairs_of_isHex (hs : IsHex s) (hlength : s.length = 2 * n) :
    hexPairs s = toBigEndian n (hexValue s) := by
  induction n generalizing s with
  | zero =>
    obtain rfl : s = [] := length_eq_zero_iff.mp hlength
    rfl
  | succ n ih =>
    obtain ⟨c, d, s, rfl⟩ : ∃ c d s', s = c :: d :: s' := by
      match s, hlength with
      | c :: d :: s, _ => exact ⟨c, d, s, rfl⟩
    have hrest : s.length = 2 * n := by simpa [Nat.mul_succ] using hlength
    obtain ⟨hpair, hsrest⟩ := IsHex.of_append [c, d] s hs
    have hsplit : hexValue (c :: d :: s) = 256 ^ n * hexValue [c, d] + hexValue s := by
      have happend := hexValue_append [c, d] s
      rw [hrest, pow_mul] at happend
      exact happend
    have hbyte : hexValue [c, d] < 256 := hexValue_lt [c, d]
    have hlow : hexValue s < 256 ^ n := by
      have hlt := hexValue_lt s
      rwa [hrest, pow_mul] at hlt
    rw [hexPairs, strtol_of_isHex hpair (cons_ne_nil _ _), ih hsrest hrest, hsplit,
      toBigEndian_succ_cons hbyte hlow]

/-- Every two digits make a byte, and so does an odd one. -/
@[simp] theorem length_hexPairs (s : ByteString) : (hexPairs s).length = (s.length + 1) / 2 := by
  fun_induction hexPairs s with
  | case1 => rfl
  | case2 => simp
  | case3 c d s ih =>
    simp only [length_cons, ih]
    omega

private theorem hexPairs_append (hlength : s.length = 2 * n) (c : UInt8) :
    hexPairs (s ++ [c]) = hexPairs s ++ [strtol [c]] := by
  induction n generalizing s with
  | zero =>
    obtain rfl : s = [] := length_eq_zero_iff.mp hlength
    rfl
  | succ n ih =>
    match s, hlength with
    | d :: e :: s, hlength =>
      have hrest : s.length = 2 * n := by simpa [Nat.mul_succ] using hlength
      simp only [cons_append, hexPairs, ih hrest]

/-- An odd number of digits leaves the last one in a byte of its own. -/
theorem fromBigEndian_hexPairs_odd (hs : IsHex s) (hlength : s.length = 2 * n + 1) :
    fromBigEndian (hexPairs s) = 256 * (hexValue s / 16) + hexValue s % 16 := by
  obtain ⟨t, c, rfl⟩ : ∃ t c, s = t ++ [c] :=
    ⟨s.dropLast, s.getLast (by rintro rfl; simp at hlength), (dropLast_append_getLast _).symm⟩
  have ht : t.length = 2 * n := by simpa using hlength
  obtain ⟨hhex, hlast⟩ := hs.of_append
  have hc : hexValue [c] < 16 := hexValue_lt [c]
  have hlow : hexValue t < 256 ^ n := by
    have h := hexValue_lt t
    rwa [ht, pow_mul] at h
  have hvalue : hexValue (t ++ [c]) = 16 * hexValue t + hexValue [c] := by
    rw [hexValue_append, length_singleton, pow_one]
  rw [hexPairs_append ht, fromBigEndian_append_singleton, hexPairs_of_isHex hhex ht,
    fromBigEndian_toBigEndian, Nat.mod_eq_of_lt hlow,
    strtol_of_isHex hlast (cons_ne_nil _ _), UInt8.toNat_ofNat', hvalue]
  omega

@[simp] theorem strip_hexPrefix (s : ByteString) : strip (hexPrefix ++ s) = s := rfl

/-- `eevm::to_bytes` of an even number of digits behind the prefix. -/
theorem evmToBytes_hexPrefix (hs : IsHex s) (hlength : s.length = 2 * n) :
    evmToBytes (hexPrefix ++ s) = toBigEndian n (hexValue s) := by
  simp only [evmToBytes, strip_hexPrefix, hlength, length_odd_even, if_false]
  exact hexPairs_of_isHex hs hlength

/-- Bytes are read back from the digits that they are written with. -/
theorem evmToBytes_toHexString (bytes : ByteString) : evmToBytes (toHexString bytes) = bytes := by
  rw [toHexString, evmToBytes_hexPrefix (isHex_hexOfBytes bytes) (length_hexOfBytes bytes),
    hexValue_hexOfBytes, toBigEndian_fromBigEndian]

/-- Behind the prefix, pairs of digits are bytes. -/
theorem bytesStrip_hexPrefix (hs : IsHex s) (hlength : s.length = 2 * n) :
    bytesStrip (hexPrefix ++ s) = toBigEndian n (hexValue s) := by
  rw [bytesStrip, if_pos (show (hexPrefix ++ s)[1]? = some 120 by rfl)]
  exact evmToBytes_hexPrefix hs hlength

/-- Forty digits are placed as the low 20 bytes of a word. -/
theorem toBytes_forty (hs : IsHex s) (hlength : s.length = 40) :
    toBytes (hexPrefix ++ s) 12 = .ok (wordBytes (BitVec.ofNat 256 (hexValue s))) := by
  have hpairs := hexPairs_of_isHex (n := 20) hs hlength
  have hlt : hexValue s < 256 ^ 20 := by
    have h := hexValue_lt s
    rwa [hlength] at h
  have hmod : hexValue s % 2 ^ 256 = hexValue s := Nat.mod_eq_of_lt (by omega)
  simp only [toBytes, strip_hexPrefix, hlength, hpairs, length_toBigEndian]
  simp only [wordBytes, BitVec.toNat_ofNat, hmod]
  rw [show (32 : Nat) = 12 + 20 by rfl, toBigEndian_add_of_lt 12 hlt]
  simp

private theorem toNat_shift_or {x : Word} {d count : Nat} (hx : x.toNat < 16 ^ count)
    (hcount : count < 64) (hd : d < 16) :
    (x <<< 4 ||| BitVec.ofNat 256 d).toNat = 16 * x.toNat + d := by
  have hpow : (16 : Nat) ^ (count + 1) ≤ 2 ^ 256 := by
    rw [show (2 : Nat) ^ 256 = 16 ^ 64 by norm_num]
    exact Nat.pow_le_pow_right (by omega) (by omega)
  rw [pow_succ] at hpow
  have hshift : x.toNat <<< 4 % 2 ^ 256 = 16 * x.toNat := by
    rw [Nat.shiftLeft_eq, Nat.mod_eq_of_lt (by omega)]
    ring
  rw [BitVec.toNat_or, BitVec.toNat_shiftLeft, hshift, BitVec.toNat_ofNat,
    Nat.mod_eq_of_lt (show d < 2 ^ 256 by omega)]
  exact (Nat.two_pow_add_eq_or_of_lt (i := 4) hd x.toNat).symm

/-- The hexadecimal loop accumulates the value of the digits. -/
theorem fromHexString_of_isHex {s : ByteString} (hs : IsHex s) :
    ∀ {count : Nat} {x : Word}, count + s.length ≤ 64 → x.toNat < 16 ^ count →
      fromHexString count x s = .ok (BitVec.ofNat 256 (16 ^ s.length * x.toNat + hexValue s)) := by
  induction s with
  | nil =>
    intro count x _ _
    simp [fromHexString]
  | cons c s ih =>
    intro count x hcount hx
    rw [length_cons] at hcount
    obtain ⟨hc, hrest⟩ := IsHex.of_append [c] s hs
    obtain ⟨d, hd⟩ := Option.isSome_iff_exists.mp (hs c mem_cons_self)
    have hlt := hexDigit?_lt hd
    have hnext := toNat_shift_or hx (by omega) hlt
    have hbound : 16 * x.toNat + d < 16 ^ (count + 1) := by
      rw [pow_succ]
      omega
    have hsplit := hexValue_append [c] s
    rw [singleton_append, hexValue_singleton, hd, Option.getD_some] at hsplit
    simp only [fromHexString, hd]
    rw [if_neg (by omega), ih hrest (by omega) (by rwa [hnext]), hnext, hsplit,
      length_cons, pow_succ]
    congr 2
    ring

/-- A number in hexadecimal. -/
theorem toUint256_hexPrefix (hs : IsHex s) (hlength : s.length ≤ 64) :
    toUint256 (hexPrefix ++ s) = .ok (BitVec.ofNat 256 (hexValue s)) := by
  have htake : (hexPrefix ++ s).takeWhile (· ≠ 0) = 48 :: 120 :: s := by
    apply takeWhile_eq_self_iff.mpr
    intro c hc
    simp only [hexPrefix, cons_append, nil_append, mem_cons] at hc
    rcases hc with rfl | rfl | hc
    · rfl
    · rfl
    · exact decide_eq_true (hexDigit_plain (hs c hc)).2.2.2.1
  rw [toUint256, htake]
  simpa using @fromHexString_of_isHex s hs 0 0 (by omega) (by simp)

/-- The text consists of decimal digits. -/
def IsDec (s : ByteString) : Prop := ∀ c ∈ s, 48 ≤ c ∧ c ≤ 57

instance (s : ByteString) : Decidable (IsDec s) := List.decidableBAll _ s

/-- The number a run of decimal digits stands for, behind digits of value `acc`. -/
def decValue (acc : Nat) (s : ByteString) : Nat :=
  s.foldl (fun acc c => 10 * acc + (c.toNat - 48)) acc

@[simp] theorem decValue_nil (acc : Nat) : decValue acc [] = acc := rfl

private theorem decValue_cons (acc : Nat) (c : UInt8) (s : ByteString) :
    decValue acc (c :: s) = decValue (10 * acc + (c.toNat - 48)) s := by
  simp only [decValue, foldl_cons]

private theorem le_decValue (acc : Nat) (s : ByteString) : acc ≤ decValue acc s := by
  induction s generalizing acc with
  | nil => simp
  | cons c s ih =>
    have h := ih (10 * acc + (c.toNat - 48))
    rw [decValue_cons]
    omega

/-- The decimal loop accumulates the value of the digits while it fits in a word. -/
theorem fromDecString_of_isDec {s : ByteString} (hs : IsDec s) :
    ∀ {count : Nat} {x : Word}, count + s.length ≤ 78 → decValue x.toNat s < 2 ^ 256 →
      fromDecString count x s = .ok (BitVec.ofNat 256 (decValue x.toNat s)) := by
  induction s with
  | nil =>
    intro count x _ _
    simp [fromDecString]
  | cons c s ih =>
    intro count x hcount hvalue
    rw [length_cons] at hcount
    rw [decValue_cons] at hvalue
    obtain ⟨hlow, hhigh⟩ := hs c mem_cons_self
    have hfit : 10 * x.toNat + (c.toNat - 48) < 2 ^ 256 := (le_decValue _ s).trans_lt hvalue
    have hd : (BitVec.ofNat 256 (c.toNat - 48)).toNat = c.toNat - 48 := by
      rw [BitVec.toNat_ofNat]
      exact Nat.mod_eq_of_lt (by omega)
    have hten : (10 : Word).toNat = 10 := rfl
    have hnext : (x * 10 + BitVec.ofNat 256 (c.toNat - 48)).toNat =
        10 * x.toNat + (c.toNat - 48) := by
      rw [BitVec.toNat_add, BitVec.toNat_mul, hd, hten, Nat.mod_add_mod,
        Nat.mod_eq_of_lt (by omega), Nat.mul_comm]
    have hrange : ¬(c < 48 ∨ 57 < c) := by
      rw [not_or, UInt8.not_lt, UInt8.not_lt]
      exact ⟨hlow, hhigh⟩
    have hcarry : ¬x * 10 + BitVec.ofNat 256 (c.toNat - 48) < BitVec.ofNat 256 (c.toNat - 48) := by
      rw [BitVec.lt_def, hnext, hd]
      omega
    simp only [fromDecString, hrange, hcarry, if_false]
    rw [if_neg (by omega), ih (fun c hc => hs c (mem_cons_of_mem _ hc)) (by omega)
      (by rwa [hnext]), hnext, decValue_cons]

/-- A number in decimal. -/
theorem toUint256_of_isDec (hs : IsDec s) (hlength : s.length ≤ 78)
    (hvalue : decValue 0 s < 2 ^ 256) : toUint256 s = .ok (BitVec.ofNat 256 (decValue 0 s)) := by
  have htake : s.takeWhile (· ≠ 0) = s := by
    apply takeWhile_eq_self_iff.mpr
    intro c hc
    apply decide_eq_true
    rintro rfl
    exact absurd (hs 0 hc).1 (by decide)
  have hrun := @fromDecString_of_isDec s hs 0 0 (by omega) (by simpa using hvalue)
  rw [toUint256, htake]
  split
  next digits =>
    exact absurd (hs 120 (mem_cons_of_mem _ mem_cons_self)).2 (by decide)
  next => simpa using hrun

end CloakBridge.Abicoder
