import CloakBridge.Models.Tee.EscrowHandshake

/-!
# RLP as the enclave reads and writes it

The encoder writes items behind their lengths. The decoder follows a pointer and counts
the bytes that are left in 64 bits. Only the outermost count is compared with the input in
the end, so an item may be read from whatever lies behind the input. Each item is
converted before the next one is looked at.
-/

namespace CloakBridge.Evm.Rlp

open Tee (Error toByteString)

/-- `to_byte_string` of a `size_t` -/
def sizeBytes (n : Nat) : ByteString := toByteString (BitVec.ofNat 256 n)

/-- A length in front of a payload: up to 55 it is added to `short`, otherwise its own length is
added to `long`. -/
def prefixLength (short long : Nat) (payload : ByteString) : ByteString :=
  if payload.length ≤ 55 then UInt8.ofNat (short + payload.length) :: payload
  else
    let length := sizeBytes payload.length
    UInt8.ofNat (long + length.length) :: length ++ payload

/-- `encode_single` of the bytes of an argument -/
def encodeSingle (bytes : ByteString) : ByteString :=
  match bytes with
  | [b] => if b ≤ 0x7f then [b] else prefixLength 0x80 0xb7 [b]
  | bytes => prefixLength 0x80 0xb7 bytes

/-- `encode` of several arguments, with `prefix_multiple_length` -/
def encode (items : List ByteString) : ByteString :=
  prefixLength 0xc0 0xf7 (items.flatMap encodeSingle)

/-- What a pointer into the input reads. -/
def memory (input : ByteString) (beyond : Nat → UInt8) (i : Nat) : UInt8 :=
  input.getD i (beyond (i - input.length))

/-- The bytes from a position on. -/
def bytesAt (memory : Nat → UInt8) (i size : Nat) : ByteString :=
  (List.range size).map fun j => memory (i + j)

/-- The pointer and the count that the decoder passes by reference. -/
structure Cursor where
  data : Nat
  size : BitVec 64
  deriving DecidableEq, Repr

/-- `decode_details::Arity` -/
inductive Arity where
  | single
  | multiple
  deriving DecidableEq, Repr

/-- A length written in `lengthOfLength` bytes, in the branches of `decode_length`. -/
def decodeLongLength (memory : Nat → UInt8) (c : Cursor) (arity : Arity) (lengthOfLength : Nat) :
    Except Error (Arity × Nat × Cursor) :=
  if c.size.toNat < lengthOfLength then throw .decodeError
  else
    let length := fromBigEndian (bytesAt memory c.data lengthOfLength)
    pure (arity, length, ⟨c.data + lengthOfLength, c.size - BitVec.ofNat 64 lengthOfLength⟩)

/-- `decode_length` -/
def decodeLength (memory : Nat → UInt8) (c : Cursor) : Except Error (Arity × Nat × Cursor) :=
  if c.size = 0 then throw .decodeError
  else
    let length := (memory c.data).toNat
    let next : Cursor := ⟨c.data + 1, c.size - 1⟩
    if length ≤ 0x7f then pure (.single, 1, c)
    else if length ≤ 0xb7 then pure (.single, length - 0x80, next)
    else if length ≤ 0xbf then decodeLongLength memory next .single (length - 0xb7)
    else if length ≤ 0xf7 then pure (.multiple, length - 0xc0, next)
    else decodeLongLength memory next .multiple (length - 0xf7)

/-- The types that items are converted to, as far as `from_bytes` looks at the length. -/
inductive Kind where
  /-- `size_t`, a type that it is cut to, or `uint256_t`: at most so many bytes -/
  | number (width : Nat)
  /-- `std::array<uint8_t, N>` -/
  | array (size : Nat)
  /-- `ByteString` -/
  | bytes
  deriving DecidableEq, Repr

/-- `from_bytes` returns. For a `ByteString` it counts the bytes in 32 bits. -/
def Kind.Accepts : Kind → Nat → Prop
  | .number width, length => length ≤ width
  | .array size, length => length = size
  | .bytes, length => length < 2 ^ 32

instance (kind : Kind) (length : Nat) : Decidable (kind.Accepts length) := by
  cases kind <;> unfold Kind.Accepts <;> infer_instance

/-- What happens otherwise. `ByteString result(size)` throws from `2 ^ 63` bytes on; the loop over
a shorter one that 32 bits cannot count does not end. -/
def Kind.failure : Kind → Nat → Error
  | .bytes, length => if 2 ^ 63 ≤ length then .lengthError else .endless
  | _, _ => .decodeError

/-- `decode_impl` of a single item, as its bytes -/
def decodeSingle (memory : Nat → UInt8) (kind : Kind) (c : Cursor) :
    Except Error (ByteString × Cursor) := do
  let (arity, length, c) ← decodeLength memory c
  if arity = .multiple then throw .decodeError
  else if ¬kind.Accepts length then throw (kind.failure length)
  else pure (bytesAt memory c.data length, ⟨c.data + length, c.size - BitVec.ofNat 64 length⟩)

/-- `decode_multiple`: the items of a list, in order. What is left of the list is not looked at. -/
def decodeMultiple (memory : Nat → UInt8) : List Kind → Cursor → Except Error (List ByteString)
  | [], _ => pure []
  | kind :: kinds, c => do
    let (item, c) ← decodeSingle memory kind c
    let rest ← decodeMultiple memory kinds c
    pure (item :: rest)

/-- `decode` of a list of single items -/
def decode (kinds : List Kind) (input : ByteString) (beyond : Nat → UInt8) :
    Except Error (List ByteString) := do
  let memory := memory input beyond
  let (arity, length, c) ← decodeLength memory ⟨0, BitVec.ofNat 64 input.length⟩
  if arity = .single then throw .decodeError
  else do
    let items ← decodeMultiple memory kinds ⟨c.data, BitVec.ofNat 64 length⟩
    if c.size - BitVec.ofNat 64 length ≠ 0 then throw .decodeError else pure items

/-- The number in an item of `uint256_t`. -/
def word (bytes : ByteString) : Word := BitVec.ofNat 256 (fromBigEndian bytes)

/-- `from_big_endian`, which refuses more than 32 bytes. -/
def toWord (bytes : ByteString) : Except Error Word :=
  if 32 < bytes.length then throw .decodeError else pure (word bytes)

end CloakBridge.Evm.Rlp

namespace CloakBridge.Evm

open Tee (Address Nonce Platform Exec)

/-- The last 20 bytes of a digest. -/
def addressOfDigest (digest : ByteString) : Address :=
  BitVec.ofNat 256 (fromBigEndian (digest.drop 12))

/-- `generate_address` -/
def generateAddress (sender : Address) (nonce : Nonce) : Address :=
  addressOfDigest (Tee.keccak256 (Rlp.encode [Tee.toByteString sender, Rlp.sizeBytes nonce.toNat]))

/-- `generate_address_for_create2`. The sender and the salt are written to arrays of 256 bytes, of
which only the first 32 are set. -/
def generateAddressForCreate2 (pf : Platform) (sender : Address) (salt : Word)
    (initCode : ByteString) : Exec Address := do
  let senderRest ← Exec.ask pf.stackBytes
  let saltRest ← Exec.ask pf.stackBytes
  let data := 0xff :: wordBytes sender ++ senderRest ++ wordBytes salt ++ saltRest ++
    Tee.keccak256 initCode
  pure (addressOfDigest (Tee.keccak256 data))

end CloakBridge.Evm
