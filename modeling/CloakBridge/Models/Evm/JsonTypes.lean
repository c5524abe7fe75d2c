import CloakBridge.Core.Effect
import CloakBridge.Models.Evm.BlockHeaders
import CloakBridge.Models.Evm.HexText

/-!
# Results and receipts as JSON

Results of transactions, receipts and message calls are sent and stored as JSON. Each
field has a textual form of its own. The readers take what the writers produce, and the
fields that a reader leaves alone when they are absent are always written.
-/

namespace CloakBridge.Evm

open Abicoder MessageCall
open Tee (Address)

/-- The values of `nlohmann::json` that occur here. -/
inductive JsonValue where
  | null
  | text (s : ByteString)
  | array (items : List JsonValue)
  | object (fields : List (String × JsonValue))

/-- Why a value cannot be read. -/
inductive JsonFailure where
  /-- the `type_error` of the JSON library -/
  | type
  /-- `operator[]` of a constant object without that field -/
  | undefined
  /-- "Expected object, got: ..." -/
  | expectedObject
  /-- "Expected ... characters, got ..." -/
  | expectedCharacters (expected got : Nat)
  /-- thrown by `intx::from_string` -/
  | number (failure : Failure)
  deriving DecidableEq, Repr

namespace JsonValue

/-- `j.find(key)` -/
def find (j : JsonValue) (key : String) : Option JsonValue :=
  match j with
  | object fields => (fields.find? fun field => field.1 == key).map Prod.snd
  | _ => none

/-- `j[key]` of a constant value -/
def field (j : JsonValue) (key : String) : Except JsonFailure JsonValue :=
  match j with
  | object _ => (j.find key).elim (.error .undefined) .ok
  | _ => .error .type

/-- The conversion to `std::string`. -/
def getText : JsonValue → Except JsonFailure ByteString
  | text s => .ok s
  | _ => .error .type

/-- The elements in a loop over `j`. An object is visited in the order of its keys, null has no
element, and any other value is its own one. -/
def elements : JsonValue → List JsonValue
  | null => []
  | array items => items
  | object fields => (fields.mergeSort fun a b => a.1 ≤ b.1).map Prod.snd
  | text s => [text s]

/-- The elements in a conversion to `std::vector`. -/
def getItems : JsonValue → Except JsonFailure (List JsonValue)
  | array items => .ok items
  | _ => .error .type

/-- `eevm::to_uint256(j)` -/
def getWord (j : JsonValue) : Except JsonFailure Word := do
  let s ← j.getText
  match toUint256 s with
  | .ok w => return w
  | .error failure => throw (.number failure)

/-- `require_object` -/
def requireObject : JsonValue → Except JsonFailure Unit
  | object _ => .ok ()
  | _ => .error .expectedObject

/-- `from_optional_hex_str`, which leaves `v` alone when there is nothing to read. -/
def fromOptionalHexStr {α : Type} (j : JsonValue) (key : String) (ofWord : Word → α) (v : α) :
    Except JsonFailure α :=
  match j.find key with
  | none | some null | some (text []) => .ok v
  | some value => return ofWord (← value.getWord)

end JsonValue

open JsonValue

/-- `array_from_hex_string` -/
def arrayFromHexString (n : Nat) (s : ByteString) : Except JsonFailure (FixedBytes n) :=
  if h : (strip s).length = 2 * n then
    .ok ⟨hexPairs (strip s), by
      rw [length_hexPairs, h]
      omega⟩
  else .error (.expectedCharacters (2 * n) (strip s).length)

/-- An address that may be absent. -/
def optionalAddress (write : Address → ByteString) : Option Address → JsonValue
  | none => null
  | some a => text (write a)

namespace LogEntry

/-- `to_json` -/
def toJson (log : Tee.LogEntry) : JsonValue :=
  object [("address", text (toChecksumAddress log.address)),
    ("data", text (toHexString log.data)),
    ("topics", array (log.topics.map fun topic => text (toHexStringFixed topic 64))),
    ("logIndex", text (numberToHexString 0)),
    ("blockNumber", text (numberToHexString 0)),
    ("blockHash", text (numberToHexString 0)),
    ("transactionHash", text (numberToHexString 0)),
    ("transactionIndex", text (numberToHexString 0))]

/-- `from_json` into an entry whose topics are extended -/
def fromJson (j : JsonValue) (log : Tee.LogEntry) : Except JsonFailure Tee.LogEntry := do
  let address ← (← j.field "address").getWord
  let data ← (← j.field "data").getText
  let topics ← (← j.field "topics").elements.mapM getWord
  return { address, data := evmToBytes data, topics := log.topics ++ topics }

/-- `LogEntry{}` -/
def fresh : Tee.LogEntry := ⟨0, [], []⟩

end LogEntry

/-- A vector of log entries. -/
def logsToJson (logs : List Tee.LogEntry) : JsonValue := array (logs.map LogEntry.toJson)

/-- The conversion to a vector of log entries, each read into a fresh one. -/
def getLogs (j : JsonValue) : Except JsonFailure (List Tee.LogEntry) := do
  (← j.getItems).mapM fun item => LogEntry.fromJson item LogEntry.fresh

namespace TxResult

/-- `to_json` -/
def toJson (txr : Tee.TxResult) : JsonValue :=
  object [("address", optionalAddress numberToHexString txr.contractAddress),
    ("logs", logsToJson txr.logs)]

/-- `from_json` -/
def fromJson (j : JsonValue) : Except JsonFailure Tee.TxResult := do
  let contractAddress ← match j.find "address" with
    | none | some null => pure none
    | some value => some <$> value.getWord
  let logs ← getLogs (← j.field "logs")
  return { contractAddress, logs }

end TxResult

/-- `TxReceipt` -/
structure TxReceipt where
  transactionHash : Word
  transactionIndex : Word
  blockHash : Word
  blockNumber : Word
  from_ : Address
  to_ : Option Address
  cumulativeGasUsed : Word
  gasUsed : Word
  contractAddress : Option Address
  logs : List Tee.LogEntry
  logsBloom : FixedBytes 256
  status : Word
  deriving DecidableEq

namespace TxReceipt

/-- The object that `to_json` writes for a receipt. -/
def toJson (s : TxReceipt) : JsonValue :=
  object [("transactionHash", text (toHexStringFixed s.transactionHash 64)),
    ("transactionIndex", text (numberToHexString s.transactionIndex)),
    ("blockHash", text (toHexStringFixed s.blockHash 64)),
    ("blockNumber", text (numberToHexString s.blockNumber)),
    ("from", text (toChecksumAddress s.from_)),
    ("to", optionalAddress toChecksumAddress s.to_),
    ("cumulativeGasUsed", text (numberToHexString s.cumulativeGasUsed)),
    ("gasUsed", text (numberToHexString s.gasUsed)),
    ("contractAddress", optionalAddress toChecksumAddress s.contractAddress),
    ("logs", logsToJson s.logs),
    ("logsBloom", text (toHexString s.logsBloom.val)),
    ("status", text (numberToHexString s.status))]

/-- What `from_json` reads into the receipt that `emplace` has made, with its defaults. -/
def fromJson (j : JsonValue) : Except JsonFailure TxReceipt := do
  j.requireObject
  let transactionHash ← (← j.field "transactionHash").getWord
  let transactionIndex ← (← j.field "transactionIndex").getWord
  let blockHash ← (← j.field "blockHash").getWord
  let blockNumber ← (← j.field "blockNumber").getWord
  let from_ ← (← j.field "from").getWord
  let to_ ← j.fromOptionalHexStr "to" some none
  let cumulativeGasUsed ← (← j.field "cumulativeGasUsed").getWord
  let gasUsed ← (← j.field "gasUsed").getWord
  let contractAddress ← j.fromOptionalHexStr "contractAddress" some none
  let logs ← getLogs (← j.field "logs")
  let logsBloom ← arrayFromHexString 256 (← (← j.field "logsBloom").getText)
  let status ← (← j.field "status").getWord
  return { transactionHash, transactionIndex, blockHash, blockNumber, from_, to_,
           cumulativeGasUsed, gasUsed, contractAddress, logs, logsBloom, status }

end TxReceipt

/-- `std::optional<TxReceipt>` -/
abbrev ReceiptResponse := Option TxReceipt

namespace ReceiptResponse

/-- `to_json` -/
def toJson : ReceiptResponse → JsonValue
  | none => null
  | some s => s.toJson

/-- `from_json` -/
def fromJson : JsonValue → Except JsonFailure ReceiptResponse
  | null => .ok none
  | j => some <$> TxReceipt.fromJson j

end ReceiptResponse

namespace MessageCall

/-- `to_json` -/
def toJson (s : MessageCall) : JsonValue :=
  object [("from", text (toChecksumAddress s.from_)),
    ("to", optionalAddress toChecksumAddress s.to_),
    ("gas", text (numberToHexString s.gas)),
    ("gasPrice", text (numberToHexString s.gasPrice)),
    ("value", text (numberToHexString s.value)),
    ("data", text s.data)]

/-- `MessageCall{}` -/
def fresh : MessageCall := ⟨0, none, 5006112, 0, 0, []⟩

/-- `from_json` -/
def fromJson (j : JsonValue) (s : MessageCall) : Except JsonFailure MessageCall := do
  j.requireObject
  let from_ ← j.fromOptionalHexStr "from" id s.from_
  let to_ ← j.fromOptionalHexStr "to" some s.to_
  let gas ← j.fromOptionalHexStr "gas" id s.gas
  let gasPrice ← j.fromOptionalHexStr "gasPrice" id s.gasPrice
  let value ← j.fromOptionalHexStr "value" id s.value
  let data ← match j.find "data", j.find "input" with
    | some data, _ => data.getText
    | none, some input => input.getText
    | none, none => pure s.data
  return { from_, to_, gas, gasPrice, value, data }

end MessageCall

/-! ### What is written is read back -/

namespace JsonValue

variable {s : ByteString} {w : Word} {j : JsonValue} {key : String}

private theorem getWord_text (h : toUint256 s = .ok w) : (text s).getWord = .ok w := by
  simp [getWord, getText, h, pure, Except.pure, bind, Except.bind]

@[simp] theorem getWord_number (w : Word) : (text (numberToHexString w)).getWord = .ok w :=
  getWord_text (toUint256_numberToHexString w)

@[simp] theorem getWord_fixed (w : Word) : (text (toHexStringFixed w 64)).getWord = .ok w :=
  getWord_text (toUint256_toHexStringFixed w (Nat.le_refl _))

@[simp] theorem getWord_checksum (a : Address) : (text (toChecksumAddress a)).getWord = .ok a :=
  getWord_text (toUint256_toChecksumAddress a)

private theorem field_of_find {value : JsonValue} (h : j.find key = some value) :
    j.field key = .ok value := by
  cases j with
  | object fields => simp [field, h]
  | _ => simp [find] at h

variable {α : Type}

private theorem fromOptionalHexStr_text {ofWord : Word → α} {v : α}
    (hfind : j.find key = some (text (hexPrefix ++ s)))
    (hvalue : (text (hexPrefix ++ s)).getWord = .ok w) :
    j.fromOptionalHexStr key ofWord v = .ok (ofWord w) := by
  rw [fromOptionalHexStr, hfind]
  change (do return ofWord (← (text (hexPrefix ++ s)).getWord)) = _
  rw [hvalue]
  rfl

private theorem fromOptionalHexStr_address {a : Option Address}
    (hfind : j.find key = some (optionalAddress toChecksumAddress a)) :
    j.fromOptionalHexStr key some none = .ok a := by
  cases a with
  | none => rw [fromOptionalHexStr, hfind, optionalAddress]
  | some a => exact fromOptionalHexStr_text hfind (getWord_checksum a)

end JsonValue

private theorem arrayFromHexString_toHexString {n : Nat} (bytes : FixedBytes n) :
    arrayFromHexString n (toHexString bytes.val) = .ok bytes := by
  have hlength : (strip (toHexString bytes.val)).length = 2 * n := by
    rw [toHexString, strip_hexPrefix, length_hexOfBytes, bytes.property]
  rw [arrayFromHexString, dif_pos hlength]
  apply congrArg Except.ok
  apply Subtype.ext
  change hexPairs (hexOfBytes bytes.val) = bytes.val
  rw [hexPairs_of_isHex (isHex_hexOfBytes bytes.val) (length_hexOfBytes bytes.val),
    hexValue_hexOfBytes, toBigEndian_fromBigEndian]

private theorem LogEntry.fromJson_toJson (log : Tee.LogEntry) :
    LogEntry.fromJson (LogEntry.toJson log) LogEntry.fresh = .ok log := by
  have htopics : (log.topics.map fun topic => text (toHexStringFixed topic 64)).mapM getWord =
      .ok log.topics := mapM_map_of_inverse getWord_fixed log.topics
  simp [LogEntry.fromJson, LogEntry.toJson, LogEntry.fresh, field, find, getText,
    JsonValue.elements, htopics, evmToBytes_toHexString, bind, Except.bind, pure, Except.pure]

private theorem getLogs_logsToJson (logs : List Tee.LogEntry) :
    getLogs (logsToJson logs) = .ok logs :=
  mapM_map_of_inverse LogEntry.fromJson_toJson logs

private theorem TxResult.fromJson_toJson (txr : Tee.TxResult) :
    TxResult.fromJson (TxResult.toJson txr) = .ok txr := by
  have hlogs := getLogs_logsToJson txr.logs
  cases txr with
  | mk contractAddress logs =>
    cases contractAddress <;>
      simp [TxResult.fromJson, TxResult.toJson, optionalAddress, field, find, hlogs, bind,
        Except.bind, pure, Except.pure, Functor.map, Except.map]

private theorem TxReceipt.fromJson_toJson (s : TxReceipt) :
    TxReceipt.fromJson s.toJson = .ok s := by
  have hto : s.toJson.fromOptionalHexStr "to" some none = .ok s.to_ :=
    fromOptionalHexStr_address rfl
  have hcontract : s.toJson.fromOptionalHexStr "contractAddress" some none =
      .ok s.contractAddress := fromOptionalHexStr_address rfl
  have hlogs := getLogs_logsToJson s.logs
  have hbloom := arrayFromHexString_toHexString s.logsBloom
  have hobject : s.toJson.requireObject = .ok () := rfl
  have hfields : ∀ {key : String} {value : JsonValue}, s.toJson.find key = some value →
      s.toJson.field key = .ok value := field_of_find
  simp only [TxReceipt.fromJson, hobject, hto, hcontract,
    hfields (show s.toJson.find "transactionHash" = some _ from rfl),
    hfields (show s.toJson.find "transactionIndex" = some _ from rfl),
    hfields (show s.toJson.find "blockHash" = some _ from rfl),
    hfields (show s.toJson.find "blockNumber" = some _ from rfl),
    hfields (show s.toJson.find "from" = some _ from rfl),
    hfields (show s.toJson.find "cumulativeGasUsed" = some _ from rfl),
    hfields (show s.toJson.find "gasUsed" = some _ from rfl),
    hfields (show s.toJson.find "logs" = some _ from rfl),
    hfields (show s.toJson.find "logsBloom" = some _ from rfl),
    hfields (show s.toJson.find "status" = some _ from rfl),
    getWord_fixed, getWord_number, getWord_checksum, getText, hlogs, hbloom, bind, Except.bind,
    pure, Except.pure]

private theorem ReceiptResponse.fromJson_toJson (s : ReceiptResponse) :
    ReceiptResponse.fromJson (ReceiptResponse.toJson s) = .ok s := by
  cases s with
  | none => rfl
  | some s =>
    change some <$> TxReceipt.fromJson s.toJson = _
    rw [s.fromJson_toJson]
    rfl

private theorem MessageCall.fromJson_toJson (s : MessageCall) :
    fromJson (toJson s) fresh = .ok s := by
  have hfrom : s.toJson.fromOptionalHexStr "from" id fresh.from_ = .ok s.from_ :=
    fromOptionalHexStr_text rfl (getWord_checksum s.from_)
  have hto : s.toJson.fromOptionalHexStr "to" some fresh.to_ = .ok s.to_ :=
    fromOptionalHexStr_address rfl
  have hgas : s.toJson.fromOptionalHexStr "gas" id fresh.gas = .ok s.gas :=
    fromOptionalHexStr_text rfl (getWord_number s.gas)
  have hprice : s.toJson.fromOptionalHexStr "gasPrice" id fresh.gasPrice =
      .ok s.gasPrice := fromOptionalHexStr_text rfl (getWord_number s.gasPrice)
  have hvalue : s.toJson.fromOptionalHexStr "value" id fresh.value = .ok s.value :=
    fromOptionalHexStr_text rfl (getWord_number s.value)
  have hobject : s.toJson.requireObject = .ok () := rfl
  have hdata : s.toJson.find "data" = some (text s.data) := rfl
  simp [fromJson, hobject, hfrom, hto, hgas, hprice, hvalue, hdata, getText, bind,
    Except.bind, pure, Except.pure]

/-- Results, receipts and message calls survive their JSON form. -/
theorem json_roundTrip (txr : Tee.TxResult) (receipt : ReceiptResponse) (call : MessageCall) :
    TxResult.fromJson (TxResult.toJson txr) = .ok txr ∧
      ReceiptResponse.fromJson (ReceiptResponse.toJson receipt) = .ok receipt ∧
      fromJson call.toJson fresh = .ok call :=
  ⟨TxResult.fromJson_toJson txr, ReceiptResponse.fromJson_toJson receipt, call.fromJson_toJson⟩

end CloakBridge.Evm
