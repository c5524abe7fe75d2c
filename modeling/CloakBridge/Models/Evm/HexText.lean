import CloakBridge.Models.Abi.Text
import CloakBridge.Models.Tee.TransactionSync

/-!
# The texts of the interpreter

Numbers and addresses are written as hexadecimal text: with as many digits as they need,
with a least number of digits, or as a checksum address. `to_uint256` reads all three
back. `to_uint64` is `strtoull`, which never fails: it reads as far as it can and stops at
the largest number.
-/

namespace CloakBridge.Evm

open Abicoder List

/-- The prefix that `strtoull` skips in base 16. -/
def dropHexPrefix : ByteString → ByteString
  | 48 :: 120 :: s => s
  | 48 :: 88 :: s => s
  | s => s

/-- The number in front of the first character that is no digit. -/
def leadingHex (s : ByteString) : Nat :=
  hexValue ((dropHexPrefix s).takeWhile fun c => (hexDigit? c).isSome)

/-- `eevm::to_uint64`, which is `strtoull(s.c_str(), nullptr, 16)`. -/
def toUint64 (text : ByteString) : BitVec 64 :=
  match (text.takeWhile (· ≠ 0)).dropWhile isSpace with
  | 43 :: s => clamp (leadingHex s) id
  | 45 :: s => clamp (leadingHex s) Neg.neg
  | s => clamp (leadingHex s) id
where
  /-- `ULLONG_MAX` for a number out of range -/
  clamp (x : Nat) (sign : BitVec 64 → BitVec 64) : BitVec 64 :=
    if x < 2 ^ 64 then sign (BitVec.ofNat 64 x) else BitVec.allOnes 64

/-- `eevm::to_hex_string_fixed` -/
def toHexStringFixed (v : Word) (minHexChars : Nat) : ByteString :=
  hexPrefix ++ (List.replicate (minHexChars - (hexDigits v).length) 48 ++ hexDigits v)

/-- `eevm::address_to_hex_string` -/
def addressToHexString (a : Tee.Address) : ByteString := toHexStringFixed a 40

/-- The letter of a checksum address at a place, by the bits of the hash. -/
def checksumChar (hash : ByteString) (i : Nat) (c : UInt8) : UInt8 :=
  let bit : UInt8 := if i % 2 = 0 then 0x80 else 0x08
  if 97 ≤ c ∧ c ≤ 102 then if (hash.getD (i / 2) 0) &&& bit ≠ 0 then c - 32 else c else c

/-- `eevm::to_checksum_address` -/
def toChecksumAddress (a : Tee.Address) : ByteString :=
  let digits := (addressToHexString a).drop 2
  let hash := Tee.keccak256 digits
  hexPrefix ++ digits.mapIdx (checksumChar hash)

variable {s t : ByteString} {m : Nat}

/-- Digits behind the prefix are read as their value. -/
theorem toUint64_hexPrefix (hs : IsHex s) (hvalue : hexValue s < 2 ^ 64) :
    toUint64 (hexPrefix ++ s) = BitVec.ofNat 64 (hexValue s) := by
  have hzero : (hexPrefix ++ s).takeWhile (· ≠ 0) = 48 :: 120 :: s := by
    apply takeWhile_eq_self_iff.mpr
    intro c hc
    simp only [hexPrefix, cons_append, nil_append, mem_cons] at hc
    rcases hc with rfl | rfl | hc
    · rfl
    · rfl
    · exact decide_eq_true (hexDigit_plain (hs c hc)).2.2.2.1
  have hdigits : s.takeWhile (fun c => (hexDigit? c).isSome) = s := takeWhile_eq_self_iff.mpr hs
  have hrun : toUint64 (hexPrefix ++ s) = toUint64.clamp (leadingHex (48 :: 120 :: s)) id := by
    rw [toUint64, hzero]
    rfl
  rw [hrun, leadingHex, dropHexPrefix, hdigits, toUint64.clamp, if_pos hvalue, id]

/-- Zeros in front do not change the value. -/
theorem hexValue_replicate_zero (n : Nat) (s : ByteString) :
    hexValue (List.replicate n 48 ++ s) = hexValue s := by
  have hzeros : hexValue (List.replicate n 48) = 0 := by
    induction n with
    | zero => rfl
    | succ n ih =>
      rw [replicate_succ', hexValue_append, ih, hexValue_singleton]
      decide
  rw [hexValue_append, hzeros]
  simp

theorem isHex_replicate_zero (n : Nat) : IsHex (List.replicate n 48) := by
  intro c hc
  rw [eq_of_mem_replicate hc]
  decide

/-- A number is read back from its text. -/
theorem toUint256_numberToHexString (v : Word) : toUint256 (numberToHexString v) = .ok v := by
  rw [numberToHexString, toUint256_hexPrefix (isHex_hexDigits v) (length_hexDigits_le v),
    hexValue_hexDigits, BitVec.ofNat_toNat, BitVec.setWidth_eq]

private theorem toHexStringFixed_digits (v : Word) (hm : m ≤ 64) :
    ∃ s, toHexStringFixed v m = hexPrefix ++ s ∧ IsHex s ∧ s.length ≤ 64 ∧
      hexValue s = v.toNat := by
  refine ⟨_, rfl, (isHex_replicate_zero _).append (isHex_hexDigits v), ?_, ?_⟩
  · have hle := length_hexDigits_le v
    rw [length_append, length_replicate]
    omega
  · rw [hexValue_replicate_zero, hexValue_hexDigits]

/-- A number is read back behind leading zeros. -/
theorem toUint256_toHexStringFixed (v : Word) (hm : m ≤ 64) :
    toUint256 (toHexStringFixed v m) = .ok v := by
  obtain ⟨s, heq, hs, hlength, hvalue⟩ := toHexStringFixed_digits v hm
  rw [heq, toUint256_hexPrefix hs hlength, hvalue, BitVec.ofNat_toNat, BitVec.setWidth_eq]

private theorem hexDigit?_checksumChar (hash : ByteString) (i : Nat) (c : UInt8) :
    hexDigit? (checksumChar hash i c) = hexDigit? c := by
  have hupper : ∀ n : Fin 256, 97 ≤ UInt8.ofNat n ∧ UInt8.ofNat n ≤ 102 →
      hexDigit? (UInt8.ofNat n - 32) = hexDigit? (UInt8.ofNat n) := by
    decide +kernel
  have hc := hupper ⟨c.toNat, c.toNat_lt⟩
  simp only [UInt8.ofNat_toNat] at hc
  rw [checksumChar]
  by_cases hletter : 97 ≤ c ∧ c ≤ 102
  · simp only [if_pos hletter, apply_ite hexDigit?, hc hletter, ite_self]
  · rw [if_neg hletter]

/-- The value of a text is that of its digits. -/
theorem hexValue_congr (h : s.map hexDigit? = t.map hexDigit?) : hexValue s = hexValue t := by
  have hfold : ∀ u : ByteString,
      hexValue u = (u.map hexDigit?).foldl (fun acc d => 16 * acc + d.getD 0) 0 := by
    intro u
    rw [foldl_map]
    rfl
  rw [hfold, hfold, h]

theorem isHex_congr (h : s.map hexDigit? = t.map hexDigit?) (hs : IsHex s) : IsHex t := by
  intro c hc
  have hmem : hexDigit? c ∈ s.map hexDigit? := h ▸ mem_map_of_mem hc
  obtain ⟨d, hd, heq⟩ := mem_map.mp hmem
  rw [← heq]
  exact hs d hd

/-- A checksum does not change the digits. -/
theorem map_hexDigit?_mapIdx (hash s : ByteString) :
    (s.mapIdx (checksumChar hash)).map hexDigit? = s.map hexDigit? := by
  apply ext_getElem?
  intro i
  rw [List.getElem?_map, List.getElem?_mapIdx, List.getElem?_map, Option.map_map]
  congr 1
  ext1 c
  exact hexDigit?_checksumChar hash i c

/-- A checksum address is read back as the address. -/
theorem toUint256_toChecksumAddress (a : Tee.Address) :
    toUint256 (toChecksumAddress a) = .ok a := by
  obtain ⟨s, heq, hs, hlength, hvalue⟩ := toHexStringFixed_digits a (show 40 ≤ 64 by decide)
  have hdrop : (addressToHexString a).drop 2 = s := by
    rw [addressToHexString, heq]
    rfl
  have hmap := map_hexDigit?_mapIdx (Tee.keccak256 s) s
  simp only [toChecksumAddress, hdrop]
  rw [toUint256_hexPrefix (isHex_congr hmap.symm hs) (by rwa [length_mapIdx]),
    hexValue_congr hmap, hvalue, BitVec.ofNat_toNat, BitVec.setWidth_eq]

end CloakBridge.Evm
