import CloakBridge.Models.Abi.EncoderCorrect

/-!
# Packing byte by byte

`to_array` copies a vector one element at a time, through the bounds-checked
`at`. Told to go against the order of its argument it turns the bytes of a number
in memory into a big-endian word, which is how `NumericType` encodes the offsets
in the head. `basic_pack` is built from these two loops alone.
-/

namespace CloakBridge.Abicoder

open Abi List

/-- An assignment to `result.at(i)` -/
def assignAt (result : ByteString) (i : Nat) (b : UInt8) : Except Failure ByteString :=
  if i < result.length then .ok (result.set i b) else .error .outOfRange

/-- `value.at(x)` -/
def readAt (value : ByteString) (x : Nat) : Except Failure UInt8 :=
  match value[x]? with
  | some b => .ok b
  | none => .error .outOfRange

/-- The loop of `to_array` in the order of `value` -/
def toArrayForward : ByteString → Nat → ByteString → Except Failure ByteString
  | [], _, result => .ok result
  | b :: value, i, result => do
    let result ← assignAt result i b
    toArrayForward value (i + 1) result

/-- The loop of `to_array` against the order of `value`, with `count` elements of the result to
go. Its `x >= 0` holds of every unsigned `x`, and `x--` takes zero to the largest one. -/
def toArrayBackward (value : ByteString) :
    (count i x : Nat) → ByteString → Except Failure ByteString
  | 0, _, _, result => .ok result
  | count + 1, i, x, result => do
    let b ← readAt value x
    let result ← assignAt result i b
    toArrayBackward value count (i + 1) ((x + 2 ^ 64 - 1) % 2 ^ 64) result

/-- `encode_to_vector`: the number lies in memory with its least significant byte first. -/
def encodeToVector (value : Nat) : Except Failure ByteString :=
  let inMemory := (wordBytes (BitVec.ofNat 256 value)).reverse
  toArrayBackward inMemory 32 0 (inMemory.length - 1) (List.replicate 32 0)

/-- The writing loop of `basic_pack` -/
def basicPackLoop : List Part → Nat → Nat → ByteString → Except Failure ByteString
  | [], _, _, data => .ok data
  | part :: parts, offset, dynamicOffset, data =>
    if part.dynamic then do
      let word ← encodeToVector dynamicOffset
      let data ← toArrayForward word offset data
      let data ← toArrayForward part.data dynamicOffset data
      basicPackLoop parts (offset + 32) (dynamicOffset + alignSize part.data.length) data
    else do
      let data ← toArrayForward part.data offset data
      basicPackLoop parts (offset + alignSize part.data.length) dynamicOffset data

/-- `basic_pack` -/
def basicPack (parts : List Part) : Except Failure ByteString :=
  basicPackLoop parts 0 (staticSize parts)
    (List.replicate (staticSize parts + dynamicSize parts) 0)

/-- Copying byte by byte writes the value as a whole, or fails if it does not fit. -/
theorem toArrayForward_eq (value : ByteString) (offset : Nat) (result : ByteString) :
    toArrayForward value offset result = toArray result value offset := by
  induction value generalizing offset result with
  | nil => simp [toArrayForward, toArray]
  | cons b value ih =>
    rw [toArrayForward, assignAt]
    by_cases hfits : offset < result.length
    · have htake : (result.set offset b).take (offset + 1) = result.take offset ++ [b] := by
        rw [set_eq_take_append_cons_drop, if_pos hfits, take_append, length_take_of_le hfits.le,
          Nat.add_sub_cancel_left, take_take, Nat.min_eq_right (Nat.le_succ offset)]
        rfl
      have hdrop : (result.set offset b).drop (offset + 1 + value.length) =
          result.drop (offset + (b :: value).length) := by
        rw [drop_set_of_lt (by omega), length_cons, Nat.add_right_comm, Nat.add_assoc]
      have hroom : (value = [] ∨ offset + 1 + value.length ≤ (result.set offset b).length) ↔
          (b :: value = [] ∨ offset + (b :: value).length ≤ result.length) := by
        cases value with
        | nil => simp; omega
        | cons c value => simp; omega
      rw [if_pos hfits, ok_bind, ih, toArray, toArray, htake, hdrop]
      refine if_congr hroom ?_ rfl
      rw [append_assoc (result.take offset), singleton_append]
    · have hroom : ¬(b :: value = [] ∨ offset + (b :: value).length ≤ result.length) := by
        simp
        omega
      rw [if_neg hfits, toArray, if_neg hroom]
      rfl

/-- The elements still to be written receive the front of `value`, last one first. -/
theorem toArrayBackward_eq {value : ByteString} (hsize : value.length < 2 ^ 64) (count : Nat) :
    ∀ (x : Nat) (written unwritten : ByteString), unwritten.length = count →
      count ≤ value.length → (0 < count → x = count - 1) →
        toArrayBackward value count written.length x (written ++ unwritten) =
          .ok (written ++ (value.take count).reverse) := by
  induction count with
  | zero =>
    intro x written unwritten hlength _ _
    rw [length_eq_zero_iff.mp hlength]
    rfl
  | succ count ih =>
    intro x written unwritten hlength hcount hx
    obtain rfl : x = count := hx (Nat.succ_pos count)
    obtain ⟨c, rest, rfl⟩ := exists_cons_of_length_eq_add_one hlength
    have hread : readAt value x = .ok (value[x]) := by
      rw [readAt, List.getElem?_eq_getElem hcount]
    have hassign : assignAt (written ++ c :: rest) written.length (value[x]) =
        .ok ((written ++ [value[x]]) ++ rest) := by
      rw [assignAt, if_pos (by simp), set_append_right _ _ le_rfl, Nat.sub_self,
        set_cons_zero, append_assoc, singleton_append]
    have hrest := ih ((x + 2 ^ 64 - 1) % 2 ^ 64) (written ++ [value[x]]) rest
      (Nat.succ.inj hlength) (Nat.le_of_succ_le hcount) (by omega)
    rw [length_append, length_singleton] at hrest
    rw [toArrayBackward, hread, ok_bind, hassign, ok_bind, hrest, take_add_one,
      List.getElem?_eq_getElem hcount, reverse_append, append_assoc]
    rfl

/-- Reversing the bytes in memory gives the big-endian word. -/
theorem encodeToVector_eq (value : Nat) : encodeToVector value = .ok (sizeWord value) := by
  have hlength : (wordBytes (BitVec.ofNat 256 value)).reverse.length = 32 := by simp
  have hbackward := toArrayBackward_eq (by omega) 32
    ((wordBytes (BitVec.ofNat 256 value)).reverse.length - 1) [] (List.replicate 32 0)
    length_replicate hlength.ge fun _ => by rw [hlength]
  rw [take_of_length_le hlength.le, reverse_reverse, nil_append, nil_append,
    length_nil] at hbackward
  exact hbackward

private theorem basicPackLoop_eq (parts : List Part) (offset dynamicOffset : Nat)
    (data : ByteString) :
    basicPackLoop parts offset dynamicOffset data = packLoop parts offset dynamicOffset data := by
  induction parts generalizing offset dynamicOffset data with
  | nil => rfl
  | cons part parts ih =>
    simp only [basicPackLoop, packLoop, encodeToVector_eq, ok_bind, toArrayForward_eq, ih]

/-- Packing never fails and lays the padded components out as heads and tails. -/
theorem basicPack_eq_tuple (parts : List Part) :
    basicPack parts = .ok (tuple (parts.map Part.padded)) := by
  rw [basicPack, basicPackLoop_eq]
  exact pack_eq parts

end CloakBridge.Abicoder
