import CloakBridge.Core.Bytes
import CloakBridge.Core.Kv.Store

/-!
# The key-value tables of the enclave

The tables that the modelled code reads or writes. Each name fixes the types of its keys
and values; the committed store, a running transaction and the plain contents a reader
sees are instances of one generic record of maps.
-/

namespace CloakBridge.Tee

open Kv

/-- An `eevm::Address`, a 256-bit integer in the source. -/
abbrev Address := Word

/-- A contract together with one of its storage slots. -/
abbrev StorageKey := Address × Word

/-- `eevm::Account::Nonce`, a 64-bit counter. -/
abbrev Nonce := BitVec 64

/-- How a contract is synchronised with the chain, in increasing order. -/
inductive ContractLevel where
  | basic
  | solidity
  | solidityEnhance
  | cloak
  deriving DecidableEq, Repr

/-- The position of a level in the enumeration. -/
def ContractLevel.rank : ContractLevel → Nat
  | .basic => 0
  | .solidity => 1
  | .solidityEnhance => 2
  | .cloak => 3

instance : LT ContractLevel := ⟨fun a b => a.rank < b.rank⟩

instance (a b : ContractLevel) : Decidable (a < b) :=
  inferInstanceAs (Decidable (a.rank < b.rank))

/-- `solidity` is the level above `basic`. -/
theorem ContractLevel.eq_solidity_of_not {l : ContractLevel} (hbasic : l ≠ .basic)
    (hlevel : ¬ ContractLevel.solidity < l) : l = .solidity := by
  cases l with
  | basic => exact absurd rfl hbasic
  | solidity => rfl
  | solidityEnhance | cloak => exact absurd (by decide) hlevel

/-- One emitted log. -/
structure LogEntry where
  address : Address
  data : ByteString
  topics : List Word
  deriving DecidableEq, Repr

/-- What is kept about an executed transaction. -/
structure TxResult where
  contractAddress : Option Address
  logs : List LogEntry
  deriving DecidableEq, Repr

/-- The tables; `syncs` and `pendingStates` are sets, `teeAddress` is a single value. -/
inductive TableName where
  | balances
  | codes
  | nonces
  | storage
  | syncs
  | pendingStates
  | pendingStorage
  | encrypted
  | levels
  | proof
  | txResults
  | teeAddress
  | teePrivateKey
  | teeNonces
  deriving DecidableEq, Repr

namespace TableName

instance : Fintype TableName where
  elems := {.balances, .codes, .nonces, .storage, .syncs, .pendingStates, .pendingStorage,
    .encrypted, .levels, .proof, .txResults, .teeAddress, .teePrivateKey, .teeNonces}
  complete t := by cases t <;> decide

/-- The keys of each table. -/
@[reducible] def Key : TableName → Type
  | .storage | .syncs | .pendingStates | .pendingStorage => StorageKey
  | .txResults => Word
  | .teeAddress => Unit
  | .balances | .codes | .nonces | .encrypted | .levels | .proof => Address
  | .teePrivateKey | .teeNonces => Address

/-- The values of each table. -/
@[reducible] def Val : TableName → Type
  | .balances | .proof => Word
  | .codes | .storage | .pendingStorage | .encrypted | .teePrivateKey => ByteString
  | .nonces | .teeNonces => Nonce
  | .syncs | .pendingStates => Unit
  | .levels => ContractLevel
  | .txResults => TxResult
  | .teeAddress => Address

instance : (t : TableName) → DecidableEq t.Key
  | .storage | .syncs | .pendingStates | .pendingStorage => inferInstanceAs (DecidableEq StorageKey)
  | .txResults => inferInstanceAs (DecidableEq Word)
  | .teeAddress => inferInstanceAs (DecidableEq Unit)
  | .balances | .codes | .nonces | .encrypted | .levels | .proof
  | .teePrivateKey | .teeNonces => inferInstanceAs (DecidableEq Address)

end TableName

/-- The committed store. -/
abbrev Store := Tables VersionedMap TableName.Key TableName.Val

/-- The change sets of one `kv::Tx`. -/
abbrev Tx := Tables ChangeSet TableName.Key TableName.Val

/-- The plain contents of all tables. -/
abbrev Contents := Tables Content TableName.Key TableName.Val

end CloakBridge.Tee
