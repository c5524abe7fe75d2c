import CloakBridge.Models.Tee.EthereumState
import CloakBridge.Models.Tee.TransactionSync
import Mathlib.Tactic.Linarith

/-!
# The escrow handshake

To take over a proxy the enclave asks the host for the logic address in the proxy's
rollback slot, then for the code of that contract, then for the proof in the proxy's proof
slot. Between the steps it keeps two maps: from logic addresses to proxies, and from
proxies to codes. Addresses travel as byte strings without leading zeros, and are read
back from a fixed number of bytes.
-/

namespace CloakBridge.Tee

open Std

/-- `rlp::encode_details::to_byte_string` -/
def toByteString (n : Word) : ByteString := (wordBytes n).drop (32 - significantBytes n.toNat)

/-- What lies behind a vector in memory. -/
abbrev Beyond := Nat → UInt8

/-- `from_big_endian(data.data(), size)`, for at most 32 bytes -/
def readBigEndian (size : Nat) (data : ByteString) (beyond : Beyond) : Word :=
  BitVec.ofNat 256 (fromBigEndian ((data ++ (List.range size).map beyond).take size))

/-- `to_uint256(data, size, false)`, which throws for more than 32 bytes -/
def toUint256 (data : ByteString) : Option Word :=
  if data.length ≤ 32 then some (BitVec.ofNat 256 (fromBigEndian data)) else none

/-- The rollback slot of a proxy. -/
def logicSlot : Word := 0x2a7ee7a990a244bda6b8218d6cc50c824030ffcca1203a6c59bdca9cb30f9e58

/-- The proof slot of a proxy. -/
def proofSlot : Word := 0x2c3b1d89f196b8b08364560cca554b8f81cb28533bd8b87aacb02775960713c2

inductive EscrowStatus where
  | getCode
  | getProof
  deriving DecidableEq, Repr

/-- What the enclave asks the host for. -/
inductive HostRequest where
  /-- `Web3Msg::escrow`: a storage slot of a contract -/
  | escrow (status : EscrowStatus) (contract params : ByteString)
  /-- `Web3Msg::call` with `Methods::GetCode` -/
  | getCode (request : ByteString)
  deriving DecidableEq, Repr

/-- The members of `Web3Operation` that a handshake uses. -/
structure Handshakes where
  escrows : TreeMap Word Address
  contractCodes : TreeMap Address ByteString

namespace Web3Operation

/-- `contract_escrow` -/
def contractEscrow (contract : Address) : HostRequest :=
  .escrow .getCode (toByteString contract) (toByteString logicSlot)

/-- The `GETCODE` branch of the `Web3Msg::escrow` handler. -/
def onGetCode (h : Handshakes) (contract params : ByteString)
    (beyondContract beyondParams : Beyond) : Handshakes × Option HostRequest :=
  let addr := readBigEndian 20 contract beyondContract
  let logicAddr := readBigEndian 20 params beyondParams
  if logicAddr = 0 then (h, none)
  else ({ h with escrows := h.escrows.insert logicAddr addr }, some (.getCode params))

/-- The `Methods::GetCode` branch of the `Web3Msg::call_response` handler. Looking up an absent
logic address enters the zero address for it. -/
def onCode (h : Handshakes) (request code : ByteString) : Handshakes × Option HostRequest :=
  match toUint256 request with
  | none => (h, none)
  | some logic =>
    let contract := h.escrows.getD logic 0
    let h := { h with escrows := h.escrows.insertIfNew logic 0 }
    if code.isEmpty then (h, none)
    else ({ h with contractCodes := h.contractCodes.insert contract code },
      some (.escrow .getProof (toByteString contract) (toByteString proofSlot)))

/-- The digest that the `GETPROOF` branch computes. -/
def escrowDigest (code : ByteString) (state : Address) : ByteString :=
  keccak256 (keccak256 code ++ toByteString state)

/-- The loop that erases the first entry of a proxy. -/
def eraseEscrow (escrows : TreeMap Word Address) (addr : Address) : TreeMap Word Address :=
  match escrows.toList.find? fun entry => entry.2 = addr with
  | some entry => escrows.erase entry.1
  | none => escrows

/-- What the `GETPROOF` branch does in its transaction; `false` if it returns without a commit. -/
def installCode (addr : Address) (proof : Word) (code : ByteString) : Exec Bool := do
  let account ← EthereumState.get addr
  let hasCode ← account.hasCode
  if hasCode then pure false
  else do
    Exec.put .levels addr .solidity
    Exec.put .proof addr proof
    account.setCode code
    pure true

/-- The `GETPROOF` branch up to its transaction: the maps, and the code to install if the proof
verifies. Looking up an absent code enters an empty one. -/
def onGetProof (state : Address) (h : Handshakes) (addr : Address) (proof : Word) :
    Handshakes × Option ByteString :=
  let code := h.contractCodes.getD addr []
  let h' : Handshakes :=
    { escrows := eraseEscrow h.escrows addr
      contractCodes := h.contractCodes.insertIfNew addr [] }
  if proof = wordOfBytes (escrowDigest code state) then (h', some code) else (h', none)

/-- The installed code is moved out of the map. -/
def forgetCode (h : Handshakes) (addr : Address) : Handshakes :=
  { h with contractCodes := h.contractCodes.erase addr }

end Web3Operation

/-- Leading zeros are not written. -/
theorem length_toByteString (n : Word) : (toByteString n).length = significantBytes n.toNat := by
  have hle : significantBytes n.toNat ≤ 32 := by
    rw [significantBytes_le_iff]
    exact n.isLt
  simp only [toByteString, List.length_drop, length_wordBytes]
  omega

private theorem toByteString_eq (n : Word) :
    toByteString n = toBigEndian (significantBytes n.toNat) n.toNat := by
  rw [toByteString, wordBytes, drop_toBigEndian]
  rw [significantBytes_le_iff]
  exact n.isLt

/-- A number is read back from its bytes. -/
theorem fromBigEndian_toByteString (n : Word) : fromBigEndian (toByteString n) = n.toNat := by
  rw [toByteString_eq, fromBigEndian_toBigEndian, Nat.mod_eq_of_lt (lt_pow_significantBytes _)]

/-- Numbers are read back from all their bytes. -/
theorem toUint256_toByteString (n : Word) : toUint256 (toByteString n) = some n := by
  have hle : (toByteString n).length ≤ 32 := by
    rw [length_toByteString, significantBytes_le_iff]
    exact n.isLt
  rw [toUint256, if_pos hle, fromBigEndian_toByteString]
  simp

/-- Numbers with as many bytes as are read come out right. -/
theorem readBigEndian_toByteString {n : Word} {size : Nat} (h : significantBytes n.toNat = size)
    (beyond : Beyond) : readBigEndian size (toByteString n) beyond = n := by
  have htake : (toByteString n ++ (List.range size).map beyond).take size = toByteString n := by
    rw [← h, ← length_toByteString, List.take_left]
  rw [readBigEndian, htake, fromBigEndian_toByteString]
  simp

/-- The numbers that take twenty bytes. -/
theorem significantBytes_eq_twenty {n : Nat} :
    significantBytes n = 20 ↔ 2 ^ 152 ≤ n ∧ n < 2 ^ 160 := by
  have hlow : significantBytes n ≤ 19 ↔ n < 2 ^ 152 := significantBytes_le_iff (k := 19)
  have hhigh : significantBytes n ≤ 20 ↔ n < 2 ^ 160 := significantBytes_le_iff (k := 20)
  omega

end CloakBridge.Tee
