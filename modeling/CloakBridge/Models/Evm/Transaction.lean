import CloakBridge.Models.Abi.Text
import CloakBridge.Models.Evm.Rlp

/-!
# Raw transactions

A raw transaction is a list of nine items: six describe the call, three are the signature.
Its sender is recovered from the signature over a digest of the items. The nonce is part
of the digest and of nothing else. The same items are signed when the enclave sends a
transaction of its own.
-/

namespace CloakBridge.Evm

open Tee

/-- `MessageCall`; `data` is a hexadecimal text. -/
structure MessageCall where
  from_ : Address
  to_ : Option Address
  gas : Word
  gasPrice : Word := 0
  value : Word
  data : ByteString
  deriving DecidableEq, Repr

/-- `EthereumTransaction` -/
structure EthereumTransaction where
  nonce : Nat
  gasPrice : Word
  gas : Word
  to_ : ByteString
  value : Word
  data : ByteString
  deriving DecidableEq, Repr

/-- `EthereumTransactionWithSignature` -/
structure SignedTransaction extends EthereumTransaction where
  v : Nat
  r : Word
  s : Word
  deriving DecidableEq, Repr

/-- `current_chain_id`, as it is initialised. The functions below take the chain id as an
argument. -/
def currentChainId : Nat := 1

/-- `is_pre_eip_155` -/
def isPreEip155 (v : Nat) : Bool := v = 27 || v = 28

/-- `to_ethereum_recovery_id` -/
def toEthereumRecoveryId (chainId recId : Nat) : Except Error Nat :=
  if recId > 1 then throw .invalidSignature
  else if chainId = 0 then pure (recId + 27)
  else pure ((recId + chainId * 2 + 35) % 2 ^ 64)

/-- `from_ethereum_recovery_id` -/
def fromEthereumRecoveryId (chainId v : Nat) : Except Error Nat :=
  if isPreEip155 v then pure (v - 27)
  else if v < 37 then throw .invalidSignature
  else
    let recId := (v - 35) % 2
    if ((v - recId) - 35) / 2 ≠ chainId then throw .invalidSignature else pure recId

/-- `encode_optional_address`: the last 20 bytes, or none -/
def encodeOptionalAddress : Option Address → ByteString
  | some address => toBigEndian 20 address.toNat
  | none => []

/-- `get_address_from_public_key` -/
def getAddressFromPublicKey (pubKey : ByteString) : Except Error Address :=
  match pubKey with
  | 0x04 :: bytes => pure (addressOfDigest (keccak256 bytes))
  | _ => throw .invalidSignature

namespace EthereumTransaction

/-- The constructor from a nonce and a call. -/
def ofCall (nonce : Nat) (call : MessageCall) : EthereumTransaction where
  nonce := nonce
  gasPrice := call.gasPrice
  gas := call.gas
  to_ := encodeOptionalAddress call.to_
  value := call.value
  data := Abicoder.evmToBytes call.data

/-- The items that are signed with or without the rest. -/
def callItems (t : EthereumTransaction) : List ByteString :=
  [Rlp.sizeBytes t.nonce, toByteString t.gasPrice, toByteString t.gas, t.to_, toByteString t.value,
    t.data]

/-- `EthereumTransaction::encode` -/
def encode (t : EthereumTransaction) : ByteString := Rlp.encode t.callItems

/-- `to_be_signed_with_chain_id` -/
def toBeSignedWithChainId (chainId : Nat) (t : EthereumTransaction) : ByteString :=
  keccak256 (Rlp.encode (t.callItems ++ [Rlp.sizeBytes chainId, [], []]))

/-- `EthereumTransaction::to_transaction_call`; the sender is left as it was. -/
def toTransactionCall (t : EthereumTransaction) (sender : Address) : Except Error MessageCall := do
  let to_ ← if t.to_ = [] then pure none else some <$> Rlp.toWord t.to_
  return { from_ := sender, to_ := to_, gas := t.gas, gasPrice := t.gasPrice, value := t.value,
           data := Abicoder.toHexString t.data }

end EthereumTransaction

namespace SignedTransaction

/-- The types of the nine items. -/
def kinds : List Rlp.Kind :=
  [.number 8, .number 32, .number 32, .bytes, .number 32, .bytes, .number 8, .number 32, .number 32]

/-- The constructor from an encoding. -/
def ofBytes (encoded : ByteString) (beyond : Nat → UInt8) : Except Error SignedTransaction := do
  match ← Rlp.decode kinds encoded beyond with
  | [nonce, gasPrice, gas, to_, value, data, v, r, s] =>
    return { nonce := fromBigEndian nonce
             gasPrice := Rlp.word gasPrice
             gas := Rlp.word gas
             to_ := to_
             value := Rlp.word value
             data := data
             v := fromBigEndian v
             r := Rlp.word r
             s := Rlp.word s }
  | _ => throw .decodeError

/-- The nine items. -/
def items (t : SignedTransaction) : List ByteString :=
  t.callItems ++ [Rlp.sizeBytes t.v, toByteString t.r, toByteString t.s]

/-- `EthereumTransactionWithSignature::encode` -/
def encode (t : SignedTransaction) : ByteString := Rlp.encode t.items

/-- `to_be_signed`. Before EIP-155 the inherited function calls the overridden `encode`, so that
the signature is part of what is signed. -/
def toBeSigned (chainId : Nat) (t : SignedTransaction) (includeSignature : Bool) : ByteString :=
  if isPreEip155 t.v || includeSignature then keccak256 t.encode
  else t.toBeSignedWithChainId chainId

/-- `get_sender_address` -/
def getSenderAddress (chainId : Nat) (pf : Platform) (t : SignedTransaction) :
    Except Error Address := do
  let recoveryId ← fromEthereumRecoveryId chainId t.v
  match pf.recoverKey recoveryId (wordBytes t.r ++ wordBytes t.s) (t.toBeSigned chainId false) with
  | none => throw .invalidSignature
  | some pubKey => getAddressFromPublicKey pubKey

/-- `EthereumTransactionWithSignature::to_transaction_call` -/
def toTransactionCall (chainId : Nat) (pf : Platform) (t : SignedTransaction) :
    Except Error MessageCall := do
  let call ← t.toEthereumTransaction.toTransactionCall 0
  let sender ← t.getSenderAddress chainId pf
  return { call with from_ := sender }

end SignedTransaction

/-- `RecoverableSignature` -/
structure RecoverableSignature where
  raw : ByteString
  recoveryId : Nat
  deriving DecidableEq, Repr

/-- The constructor from the 65 bytes that `sign_hash` returns. The byte that is copied behind the
array falls on the recovery id, which is set next. -/
def RecoverableSignature.ofBytes (data : ByteString) : RecoverableSignature where
  raw := data.take 64
  recoveryId := (data.getD 64 0).toNat

/-- A key of the curve: the coordinates of its point, and how it signs. -/
structure KeyPair where
  point : ByteString
  signHash : ByteString → ByteString

/-- `public_key_raw`: the point, uncompressed -/
def KeyPair.publicKeyRaw (kp : KeyPair) : ByteString := 0x04 :: kp.point

/-- The constructor from a transaction and a signature. -/
def SignedTransaction.ofSignature (chainId : Nat) (tx : EthereumTransaction)
    (sig : RecoverableSignature) : Except Error SignedTransaction := do
  let v ← toEthereumRecoveryId chainId sig.recoveryId
  return { tx with v := v, r := wordOfBytes sig.raw, s := wordOfBytes (sig.raw.drop 32) }

/-- `sign_transaction`; without the chain id the encoding itself is signed. -/
def signTransaction (chainId : Nat) (kp : KeyPair) (tx : EthereumTransaction)
    (withChainId : Bool) : Except Error SignedTransaction :=
  let tbs := if withChainId then tx.toBeSignedWithChainId chainId else keccak256 tx.encode
  let sig := kp.signHash tbs
  SignedTransaction.ofSignature chainId tx (RecoverableSignature.ofBytes sig)

/-- `sign_eth_tx` -/
def signEthTx (chainId : Nat) (kp : KeyPair) (mc : MessageCall) (nonce : Nat) :
    Except Error ByteString := do
  let ethTx ← signTransaction chainId kp (EthereumTransaction.ofCall nonce mc) true
  return ethTx.encode

end CloakBridge.Evm
