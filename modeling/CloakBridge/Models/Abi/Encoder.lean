import CloakBridge.Core.Abi
import CloakBridge.Models.Abi.Text
import CloakBridge.Models.Tee.TransactionSync

/-!
# The ABI encoder

Types and values reach the coder as JSON. `generate_coders` builds the coder of a value
and `Coder::pack` lays out what the coders of a tuple encode to. The coder of an array
builds the coders of its elements when it is encoded.

`alignSize` is computed in doubles, which represent every size that a vector in memory can
have.
-/

namespace CloakBridge.Abicoder

open Abi

/-- A JSON value: the coder is given strings and arrays. -/
inductive Json where
  | text (s : ByteString)
  | list (items : List Json)

def Json.getString : Json → Except Failure ByteString
  | text s => .ok s
  | list _ => .error .jsonType

def Json.getArray : Json → Except Failure (List Json)
  | text _ => .error .jsonType
  | list items => .ok items

/-- `number_type` and `common_type`. Bytes of length `0` are dynamic. -/
inductive BaseType where
  | number (bitSize : Nat) (signed : Bool)
  | address
  | bool
  | string
  | bytes (len : Nat)
  deriving DecidableEq, Repr

/-- The JSON of a type; `len` is absent from a dynamic array. -/
inductive TypeJson where
  | base (type : BaseType)
  | array (valueType : TypeJson) (len : Option Nat)
  deriving DecidableEq, Repr

/-- `check_dynamic`. Bytes of a fixed length count as dynamic too. -/
def checkDynamic : TypeJson → Bool
  | .base (.bytes _) | .base .string => true
  | .base _ => false
  | .array _ none => true
  | .array next (some _) => checkDynamic next

/-- The coder of a value that is no array. -/
inductive Scalar where
  | address (value : ByteString)
  | numeric (value : Word)
  | boolean (value : Bool)
  | bytes (length : Nat) (value : ByteString)
  | dynamicBytes (value : ByteString)
  | utf8String (value : ByteString)
  deriving DecidableEq, Repr

/-- `IntType::isValidBitSize` after `calc_bitSize` -/
def isValidBitSize (bitSize : Nat) : Bool :=
  let size := if bitSize = 0 then 256 else bitSize
  size % 8 = 0 && 0 < size && size ≤ 256

/-- The constructor of `Bytes` -/
def makeBytes (byteSize : Nat) (value : ByteString) : Except Failure Scalar :=
  if 0 < value.length ∧ value.length ≤ 32 ∧ value.length = byteSize then
    .ok (.bytes byteSize value)
  else .error (.bytesSize byteSize value.length)

/-- The constructor of `Boolean` from a string; it reads the first byte of an empty vector. -/
def makeBoolean (text : ByteString) : Except Failure Scalar :=
  match evmToBytes text with
  | [] => .error .undefined
  | [c] => if 1 < c then .error .boolRange else .ok (.boolean (c = 1))
  | _ => .error .boolLength

/-- `generate_coders` of a type name, a length and a string -/
def generateScalar : BaseType → ByteString → Except Failure Scalar
  | .number bitSize _, text => do
    let value ← toUint256 text
    if isValidBitSize bitSize then .ok (.numeric value) else .error .bitSize
  | .address, text => do
    let value ← toBytes text 12
    .ok (.address value)
  | .string, text => .ok (.utf8String text)
  | .bool, text => makeBoolean text
  | .bytes len, text =>
    if len = 0 then .ok (.dynamicBytes (bytesStrip text))
    else if text = [] then makeBytes len (List.replicate len 0)
    else makeBytes len (bytesStrip text)

/-- `alignSize` -/
def alignSize (size : Nat) : Nat := 32 * ((size + 31) / 32)

namespace Scalar

def dynamicType : Scalar → Bool
  | dynamicBytes _ | utf8String _ => true
  | _ => false

/-- `BytesType::encode` -/
def encodeBytes (value : ByteString) : ByteString :=
  sizeWord value.length ++ value ++ List.replicate (alignSize value.length - value.length) 0

def encode : Scalar → ByteString
  | address value => value
  | numeric value => wordBytes value
  | boolean value => List.replicate 31 0 ++ [if value then 1 else 0]
  | bytes _ value =>
    if value.length % 32 ≠ 0 then value ++ List.replicate (32 - value.length % 32) 0 else value
  | dynamicBytes value | utf8String value => encodeBytes value

end Scalar

/-- `to_array`: `value` written into `result` from `offset` on -/
def toArray (result value : ByteString) (offset : Nat) : Except Failure ByteString :=
  if value = [] ∨ offset + value.length ≤ result.length then
    .ok (result.take offset ++ value ++ result.drop (offset + value.length))
  else .error .outOfRange

/-- The size of the head in `basic_pack` -/
def staticSize (parts : List Part) : Nat :=
  (parts.map fun part => if part.dynamic then 32 else alignSize part.data.length).sum

/-- The size of the tail in `basic_pack` -/
def dynamicSize (parts : List Part) : Nat :=
  (parts.map fun part => if part.dynamic then alignSize part.data.length else 0).sum

/-- The writing loop of `basic_pack` -/
def packLoop : List Part → Nat → Nat → ByteString → Except Failure ByteString
  | [], _, _, data => .ok data
  | part :: parts, offset, dynamicOffset, data =>
    if part.dynamic then do
      let data ← toArray data (sizeWord dynamicOffset) offset
      let data ← toArray data part.data dynamicOffset
      packLoop parts (offset + 32) (dynamicOffset + alignSize part.data.length) data
    else do
      let data ← toArray data part.data offset
      packLoop parts (offset + alignSize part.data.length) dynamicOffset data

/-- `Coder::pack` -/
def pack (parts : List Part) : Except Failure ByteString :=
  packLoop parts 0 (staticSize parts)
    (List.replicate (staticSize parts + dynamicSize parts) 0)

/-- The coder that `generate_coders` builds, as `pack` sees it: its `dynamicType` and what it
encodes to. -/
def packParams : TypeJson → Json → Except Failure Part
  | .base type, value => do
    let text ← value.getString
    let coder ← generateScalar type text
    .ok ⟨coder.dynamicType, coder.encode⟩
  | .array next len, value => do
    let items ← value.getArray
    let size := len.getD 0
    if size ≠ 0 ∧ items.length ≠ size then
      .error (.arraySize size items.length)
    else if items.isEmpty then
      .ok ⟨size = 0 || checkDynamic next, List.replicate 32 0⟩
    else do
      let parts ← items.mapM (packParams next)
      let data ← pack parts
      .ok ⟨size = 0 || checkDynamic next, if size = 0 then sizeWord items.length ++ data else data⟩

/-- An argument added to an encoder. -/
structure Input where
  /-- The type's name in the signature. -/
  name : String
  type : TypeJson
  value : Json

/-- `Encoder::encode` of a new encoder with these inputs -/
def encode (inputs : List Input) : Except Failure ByteString := do
  let parts ← inputs.mapM fun input => packParams input.type input.value
  pack parts

/-- `build_method_signature` -/
def methodSignature (entry : String) (inputs : List Input) : ByteString :=
  (Tee.keccak256 (ascii (entry ++ "(" ++ ",".intercalate (inputs.map Input.name) ++ ")"))).take 4

/-- `encodeWithSignatrue` of a new encoder with these inputs -/
def encodeWithSignature (entry : String) (inputs : List Input) : Except Failure ByteString := do
  let data ← encode inputs
  .ok (methodSignature entry inputs ++ data)

end CloakBridge.Abicoder
