import CloakBridge.Models.Abi.Encoder

/-!
# The ABI decoder

`entry_identity` builds a coder without a value and `decode` fills it from a
vector that starts at the coder's data. `Decoder::decode` moves through the head
by the `offset()` that each coder reports after it has been filled. An element of
an array that is not dynamic is given one word.
-/

namespace CloakBridge.Abicoder

open Abi

/-- What a coder holds after `decode`. -/
inductive Decoded where
  | scalar (coder : Scalar)
  | array (parameters : List Decoded)

/-- The vector from an iterator to the end. -/
def fromIndex (inputs : ByteString) (index : Nat) : Except Failure ByteString :=
  if index ≤ inputs.length then .ok (inputs.drop index) else .error .undefined

/-- `sub_vector` -/
def subVector (inputs : ByteString) (first last : Nat) : Except Failure ByteString :=
  if inputs.length < last then .error (.insufficient last inputs.length)
  else if last < first then .error .undefined
  else .ok ((inputs.take last).drop first)

/-- `decode_to_uint64` of the word at `first` -/
def decodeToUint64 (inputs : ByteString) (first : Nat) : Except Failure Nat := do
  let word ← subVector inputs first (first + 32)
  if 2 ^ 64 ≤ fromBigEndian word then .error (.largerThan64 (wordOfBytes word))
  else .ok (fromBigEndian word)

/-- `BytesType::decode` -/
def decodeBytes (inputs : ByteString) : Except Failure ByteString :=
  if inputs.length < 32 then .error .noSpace
  else do
    let header ← decodeToUint64 inputs 0
    subVector inputs 32 ((32 + header) % 2 ^ 64)

/-- `decode` of a coder that is no array -/
def Scalar.decode : Scalar → ByteString → Except Failure Scalar
  | address _, inputs =>
    if inputs.length < 32 then .error .noSpace else .ok (.address (inputs.take 32))
  | numeric _, inputs =>
    if inputs.length < 32 then .error .noSpace else .ok (.numeric (wordOfBytes inputs))
  | boolean _, inputs =>
    if inputs.length < 32 then .error .noSpace
    else if wordOfBytes inputs = 1 then .ok (.boolean true)
    else if wordOfBytes inputs = 0 then .ok (.boolean false)
    else .error .boolDecode
  | bytes length value, inputs =>
    if inputs.length < 32 ∧ length < inputs.length then .error .noSpace
    else if inputs.length < length then .error .undefined
    else .ok (.bytes length (inputs.take length ++ value.drop length))
  | dynamicBytes _, inputs => do
    let value ← decodeBytes inputs
    .ok (.dynamicBytes value)
  | utf8String _, inputs => do
    let value ← decodeBytes inputs
    .ok (.utf8String value)

/-- `entry_identity`, as far as it can fail -/
def entryIdentity : TypeJson → Except Failure Unit
  | .base type => do
    let _ ← generateScalar type []
    .ok ()
  | .array _ _ => .ok ()

/-- `dynamicType` of the coder of a type -/
def dynamicType : TypeJson → Bool
  | .base .string => true
  | .base (.bytes len) => len = 0
  | .base _ => false
  | .array next len => len.getD 0 = 0 || checkDynamic next

/-- `basic_decode` of the element at `offset`, with the decoder of its coder -/
def basicDecode (next : TypeJson) (decodeNext : ByteString → Except Failure Decoded)
    (inputs : ByteString) (offset : Nat) : Except Failure Decoded := do
  entryIdentity next
  if dynamicType next then do
    let offDst ← decodeToUint64 inputs offset
    let rest ← fromIndex inputs (offDst + 32)
    decodeNext rest
  else do
    let word ← subVector inputs offset (offset + 32)
    decodeNext word

/-- The coder of a type, built and filled from `inputs`. -/
def decodeAs : TypeJson → ByteString → Except Failure Decoded
  | .base type, inputs => do
    let coder ← generateScalar type []
    let coder ← coder.decode inputs
    .ok (.scalar coder)
  | .array next len, inputs =>
    if len.getD 0 = 0 then
      if inputs.length / 32 < 2 then .error .minimumLength
      else do
        let header ← decodeToUint64 inputs 0
        if inputs.length / 32 - 1 < header then
          .error (.lengthMismatch (inputs.length / 32 - 1) header)
        else do
          let parameters ← (List.range header).mapM fun i =>
            basicDecode next (decodeAs next) inputs (32 + 32 * i)
          .ok (.array parameters)
    else if inputs.length / 32 < 1 then .error .minimumLength
    else do
      let parameters ← (List.range (len.getD 0)).mapM fun i =>
        basicDecode next (decodeAs next) inputs (32 * i)
      .ok (.array parameters)

/-- `offset()` of a filled coder -/
def headStride : TypeJson → Decoded → Nat
  | .base _, .scalar (.dynamicBytes value) => alignSize value.length
  | .base _, .scalar (.utf8String value) => alignSize value.length
  | .array _ len, _ => if len.getD 0 = 0 then 32 else len.getD 0 * 32
  | _, _ => 32

/-- What the loop of `Decoder::decode` does with the parameter whose head is at `offset`. -/
def decodeAt (inputs : ByteString) (type : TypeJson) (offset : Nat) : Except Failure Decoded := do
  let start ← if dynamicType type then decodeToUint64 inputs offset else .ok offset
  let rest ← fromIndex inputs start
  decodeAs type rest

/-- The loop of `Decoder::decode` -/
def decodeLoop (inputs : ByteString) : List TypeJson → Nat → Except Failure (List Decoded)
  | [], _ => .ok []
  | type :: types, offset => do
    let coder ← decodeAt inputs type offset
    let coders ← decodeLoop inputs types (offset + headStride type coder)
    .ok (coder :: coders)

/-- `Decoder::decode` of a new decoder with these parameter types -/
def decode (types : List TypeJson) (inputs : ByteString) : Except Failure (List Decoded) := do
  types.forM entryIdentity
  decodeLoop inputs types 0

/-- `get_value` of a coder that is no array -/
def Scalar.getValue : Scalar → ByteString
  | address value | bytes _ value | dynamicBytes value | utf8String value => value
  | numeric value => wordBytes value
  | boolean value => (boolean value).encode

mutual

/-- `get_value` of a filled coder -/
def Decoded.getValue : Decoded → ByteString
  | .scalar coder => coder.getValue
  | .array parameters => Decoded.getValues parameters

/-- The values of the parameters of an array, one after another. -/
def Decoded.getValues : List Decoded → ByteString
  | [] => []
  | parameter :: parameters => parameter.getValue ++ Decoded.getValues parameters

end

/-- `make_bytes_array` with its defaults -/
def makeBytesArray : TypeJson := .array (.base (.bytes 0)) none

/-- `Decoder::decode_bytes_array` -/
def decodeBytesArray (inputs : ByteString) : Except Failure (List ByteString) := do
  let coders ← decode [makeBytesArray] inputs
  match coders.head? with
  | some (.array parameters) =>
    .ok (parameters.map fun parameter => toHexString parameter.getValue)
  | _ => .error .internalError

end CloakBridge.Abicoder
