import CloakBridge.Core.Bytes

/-!
# Hexadecimal text

Text is a byte string of ASCII characters. A run of hexadecimal digits of either
case has a value; a number is written back with lower case digits and no leading
zeros, a byte string with two digits for each byte.
-/

namespace CloakBridge

open List

/-- The value of a hexadecimal digit of either case. -/
def hexDigit? (c : UInt8) : Option Nat :=
  if 48 ≤ c.toNat ∧ c.toNat ≤ 57 then some (c.toNat - 48)
  else if 97 ≤ c.toNat ∧ c.toNat ≤ 102 then some (c.toNat - 87)
  else if 65 ≤ c.toNat ∧ c.toNat ≤ 70 then some (c.toNat - 55)
  else none

/-- The lower case digit of a value below 16. -/
def hexChar (d : Nat) : UInt8 := if d < 10 then UInt8.ofNat (48 + d) else UInt8.ofNat (87 + d)

/-- The text consists of hexadecimal digits. -/
def IsHex (ds : ByteString) : Prop := ∀ c ∈ ds, (hexDigit? c).isSome

instance (ds : ByteString) : Decidable (IsHex ds) := List.decidableBAll _ ds

/-- The number a run of digits stands for. -/
def hexValue (ds : ByteString) : Nat := ds.foldl (fun acc c => 16 * acc + (hexDigit? c).getD 0) 0

variable {d fuel n : Nat}

private theorem hexDigit?_hexChar (h : d < 16) : hexDigit? (hexChar d) = some d := by
  have hall : ∀ d : Fin 16, hexDigit? (hexChar d) = some d.val := by decide
  exact hall ⟨d, h⟩

theorem hexDigit?_lt {c : UInt8} (h : hexDigit? c = some d) : d < 16 := by
  rw [hexDigit?] at h
  split at h
  · simp only [Option.some.injEq] at h
    omega
  · split at h
    · simp only [Option.some.injEq] at h
      omega
    · split at h
      · simp only [Option.some.injEq] at h
        omega
      · simp at h

@[simp] theorem hexValue_nil : hexValue [] = 0 := rfl

/-- What comes first is shifted by what follows. -/
theorem hexValue_append (ds es : ByteString) :
    hexValue (ds ++ es) = 16 ^ es.length * hexValue ds + hexValue es := by
  induction es using List.reverseRecOn with
  | nil => simp
  | append_singleton es c ih =>
    rw [← append_assoc]
    simp only [hexValue, foldl_append, foldl_cons, foldl_nil, length_append,
      length_singleton, pow_succ] at ih ⊢
    rw [ih]
    ring

theorem hexValue_singleton (c : UInt8) : hexValue [c] = (hexDigit? c).getD 0 := by
  simp [hexValue]

/-- The value is bounded by the number of digits. -/
theorem hexValue_lt (ds : ByteString) : hexValue ds < 16 ^ ds.length := by
  induction ds using List.reverseRecOn with
  | nil => simp
  | append_singleton ds c ih =>
    have hc : (hexDigit? c).getD 0 < 16 := by
      cases hd : hexDigit? c with
      | none => simp
      | some d => simpa using hexDigit?_lt hd
    rw [hexValue_append, hexValue_singleton, length_append, length_singleton, pow_succ]
    omega

theorem IsHex.append {ds es : ByteString} (hd : IsHex ds) (he : IsHex es) : IsHex (ds ++ es) := by
  intro c hc
  rcases mem_append.mp hc with h | h
  · exact hd c h
  · exact he c h

/-- Both parts of a string of digits are digits. -/
theorem IsHex.of_append (ds es : ByteString) (h : IsHex (ds ++ es)) : IsHex ds ∧ IsHex es :=
  ⟨fun c hc => h c (mem_append_left es hc), fun c hc => h c (mem_append_right ds hc)⟩

private theorem isHex_hexChar (h : d < 16) : IsHex [hexChar d] := by
  intro c hc
  rw [mem_singleton.mp hc, hexDigit?_hexChar h]
  rfl

/-- The digits of a number without leading zeros, at most `fuel` of them. -/
def hexDigitsUpTo : Nat → Nat → ByteString
  | 0, _ => []
  | fuel + 1, n =>
    if n < 16 then [hexChar n] else hexDigitsUpTo fuel (n / 16) ++ [hexChar (n % 16)]

/-- The digits of a word without leading zeros; zero is one digit. -/
def hexDigits (w : Word) : ByteString := hexDigitsUpTo 64 w.toNat

private theorem hexValue_hexDigitsUpTo (h : n < 16 ^ fuel) :
    hexValue (hexDigitsUpTo fuel n) = n := by
  induction fuel generalizing n with
  | zero =>
    obtain rfl : n = 0 := by simpa using h
    rfl
  | succ fuel ih =>
    rw [hexDigitsUpTo]
    split
    next hn => rw [hexValue_singleton, hexDigit?_hexChar hn, Option.getD_some]
    next hn =>
      have hdiv : n / 16 < 16 ^ fuel := by
        rw [pow_succ] at h
        omega
      rw [hexValue_append, ih hdiv, hexValue_singleton, hexDigit?_hexChar (by omega)]
      simp only [length_singleton, pow_one, Option.getD_some]
      omega

private theorem isHex_hexDigitsUpTo (fuel n : Nat) : IsHex (hexDigitsUpTo fuel n) := by
  induction fuel generalizing n with
  | zero => simp [IsHex, hexDigitsUpTo]
  | succ fuel ih =>
    rw [hexDigitsUpTo]
    split
    next hn => exact isHex_hexChar hn
    next hn => exact (ih _).append (isHex_hexChar (by omega))

private theorem length_hexDigitsUpTo_le (fuel n : Nat) : (hexDigitsUpTo fuel n).length ≤ fuel := by
  induction fuel generalizing n with
  | zero => simp [hexDigitsUpTo]
  | succ fuel ih =>
    rw [hexDigitsUpTo]
    split
    next => simp
    next => simpa using ih _

/-- A number that is not zero has as many digits as its size needs. -/
theorem pow_le_of_length_hexDigitsUpTo {k : Nat} (hn : n ≠ 0)
    (h : (hexDigitsUpTo fuel n).length = k + 1) : 16 ^ k ≤ n := by
  induction fuel generalizing n k with
  | zero => simp [hexDigitsUpTo] at h
  | succ fuel ih =>
    rw [hexDigitsUpTo] at h
    split at h
    next hlt =>
      obtain rfl : k = 0 := by simpa using h.symm
      simp only [pow_zero]
      omega
    next hlt =>
      simp only [length_append, length_singleton, Nat.add_right_cancel_iff] at h
      cases k with
      | zero =>
        simp only [pow_zero]
        omega
      | succ k =>
        have hle := ih (by omega) h
        rw [pow_succ]
        omega

/-- The digits of a word denote it. -/
theorem hexValue_hexDigits (w : Word) : hexValue (hexDigits w) = w.toNat := by
  apply hexValue_hexDigitsUpTo
  have hw := w.isLt
  rwa [show (16 : Nat) ^ 64 = 2 ^ 256 by norm_num]

/-- A word is written in digits. -/
theorem isHex_hexDigits (w : Word) : IsHex (hexDigits w) := isHex_hexDigitsUpTo _ _

/-- A word has at most 64 digits. -/
theorem length_hexDigits_le (w : Word) : (hexDigits w).length ≤ 64 := length_hexDigitsUpTo_le _ _

/-- Two digits for each byte. -/
def hexOfBytes (bs : ByteString) : ByteString :=
  bs.flatMap fun b => [hexChar (b.toNat / 16), hexChar (b.toNat % 16)]

@[simp] theorem hexOfBytes_nil : hexOfBytes [] = [] := rfl

private theorem hexOfBytes_cons (b : UInt8) (bs : ByteString) : hexOfBytes (b :: bs) =
      hexChar (b.toNat / 16) :: hexChar (b.toNat % 16) :: hexOfBytes bs := by
  simp [hexOfBytes]

@[simp] theorem length_hexOfBytes (bs : ByteString) : (hexOfBytes bs).length = 2 * bs.length := by
  induction bs with
  | nil => rfl
  | cons b bs ih =>
    simp only [hexOfBytes_cons, length_cons, ih]
    omega

private theorem isHex_hexOfByte (b : UInt8) :
    IsHex [hexChar (b.toNat / 16), hexChar (b.toNat % 16)] := by
  have hb := b.toNat_lt
  exact IsHex.append (isHex_hexChar (by omega)) (isHex_hexChar (by omega))

/-- Bytes are written in digits. -/
theorem isHex_hexOfBytes (bs : ByteString) : IsHex (hexOfBytes bs) := by
  induction bs with
  | nil => simp [IsHex]
  | cons b bs ih =>
    rw [hexOfBytes_cons]
    exact (isHex_hexOfByte b).append ih

/-- The digits of a byte string have its value. -/
theorem hexValue_hexOfBytes (bs : ByteString) : hexValue (hexOfBytes bs) = fromBigEndian bs := by
  induction bs with
  | nil => rfl
  | cons b bs ih =>
    have hb := b.toNat_lt
    have hbyte : hexValue [hexChar (b.toNat / 16), hexChar (b.toNat % 16)] = b.toNat := by
      simp only [hexValue, foldl_cons, foldl_nil,
        hexDigit?_hexChar (show b.toNat / 16 < 16 by omega),
        hexDigit?_hexChar (show b.toNat % 16 < 16 by omega), Option.getD_some]
      omega
    have happend := hexValue_append [hexChar (b.toNat / 16), hexChar (b.toNat % 16)] (hexOfBytes bs)
    rw [hexOfBytes_cons, fromBigEndian_cons]
    rw [hbyte, ih, length_hexOfBytes, pow_mul] at happend
    exact happend

end CloakBridge
