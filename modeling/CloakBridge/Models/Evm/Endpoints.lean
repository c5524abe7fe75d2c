import CloakBridge.Core.Abi
import CloakBridge.Models.Evm.Processor
import CloakBridge.Models.Evm.Transaction

/-!
# Executing message calls, and the endpoints that do

`EVMC` runs a message call in a transaction. A deployment first creates the
account it runs in, with the gas of the call as its balance; the value of a call is
passed to the callee and not moved. Behind a run the nonce of the sender is
incremented, and nowhere is it compared with anything.

The endpoints get a transaction each, which is committed when the handler returns.
-/

namespace CloakBridge.Evm

open Tee Kv Exec Abicoder Tables

namespace EVMC

/-- The callee of a message call: its target, or the account made for a deployment. -/
def callee (call : MessageCall) : Exec Address :=
  match call.to_ with
  | some to_ => pure to_
  | none => do
    let fromState ← EthereumState.get call.from_
    let nonce ← fromState.getNonce
    let to_ := generateAddress fromState.address nonce
    let _ ← EthereumState.create to_ call.gas (evmToBytes call.data)
    pure to_

/-- `AbstractEVM::run` -/
def runCallee (pf : Platform) (fuel : Nat) (call : MessageCall) (to_ : Address) :
    Exec (ExecResult × List LogEntry × AccountProxy) := do
  let accountState ← EthereumState.get to_
  let hasCode ← accountState.hasCode
  throwIf (¬hasCode) (.commonAddress to_)
  let (result, logs) ←
    Evm.run pf fuel call.from_ accountState (evmToBytes call.data) call.value
  pure (result, logs, accountState)

/-- A deployment installs the output as the code of the new account. -/
def deploy (call : MessageCall) (output : ByteString) (accountState : AccountProxy) : Exec Unit :=
  if call.to_ = none then accountState.setCode output else pure ()

/-- The nonce of the sender is incremented. -/
def countTransaction (call : MessageCall) : Exec Unit := do
  let fromState ← EthereumState.get call.from_
  let _ ← fromState.getNonce
  fromState.incrementNonce

/-- `run_in_evm` -/
def runInEvm (pf : Platform) (fuel : Nat) (call : MessageCall) :
    Exec (ExecResult × List LogEntry × Address) := do
  let to_ ← callee call
  let (result, logs, accountState) ← runCallee pf fuel call to_
  match result.exit with
  | .threw _ => pure (result, logs, 0)
  | _ => do
    deploy call result.output accountState
    countTransaction call
    pure (result, logs, accountState.address)

/-- A run that ended in an exception is rethrown. -/
def rethrow (result : ExecResult) : Exec Unit :=
  match result.exit with
  | .threw type => throw (.executionThrew type)
  | _ => pure ()

/-- `EVMC::run` -/
def run (pf : Platform) (fuel : Nat) (call : MessageCall) : Exec TxResult := do
  let (result, logs, toAddress) ← runInEvm pf fuel call
  rethrow result
  pure ⟨if call.to_ = none then some toAddress else none, logs⟩

/-- `EVMC::run_with_result` -/
def runWithResult (pf : Platform) (fuel : Nat) (call : MessageCall) : Exec ExecResult := do
  let (result, _, _) ← runInEvm pf fuel call
  rethrow result
  pure result

end EVMC

/-- A handler returned, and its transaction was committed. -/
def Commits {α : Type} (handler : (fuel : Nat) → Exec α) (s s' : Store) : Prop :=
  ∃ fuel r w version, handler fuel (World.start s) = .ok r w ∧ s' = w.tx.commit version s

/-- What an endpoint answers. -/
inductive Response where
  /-- "Can only request latest block" -/
  | latestBlockOnly
  /-- "Missing 'to' field" -/
  | missingTo
  | result (text : ByteString)
  | done
  deriving DecidableEq, Repr

namespace Endpoint

/-- The block of a query that is answered. -/
def latest : ByteString := Abi.ascii "latest"

/-- `eth_getBalance` -/
def getBalance (address : Address) (blockId : ByteString) : Exec Response :=
  if blockId ≠ latest then pure .latestBlockOnly
  else do
    let accountState ← EthereumState.get address
    let balance ← accountState.getBalance
    pure (.result (numberToHexString balance))

/-- `eth_getTransactionCount` -/
def getTransactionCount (address : Address) (blockId : ByteString) : Exec Response :=
  if blockId ≠ latest then pure .latestBlockOnly
  else do
    let accountState ← EthereumState.get address
    let nonce ← accountState.getNonce
    pure (.result (numberToHexString (BitVec.ofNat 256 nonce.toNat)))

/-- `eth_call` -/
def ethCall (pf : Platform) (fuel : Nat) (call : MessageCall) : Exec Response :=
  if call.to_ = none then pure .missingTo
  else do
    let result ← EVMC.runWithResult pf fuel call
    pure (.result (toHexString result.output))

/-- Continue with a decoded value, or throw. -/
def ofExcept {α : Type} : Except Error α → Exec α
  | .ok a => pure a
  | .error e => throw e

/-- `eth_sendRawTransaction` -/
def sendRawTransaction (pf : Platform) (fuel : Nat) (rawTransaction : ByteString) :
    Exec Response := do
  let beyond ← ask pf.heapBytes
  let ethTx ← ofExcept (SignedTransaction.ofBytes (evmToBytes rawTransaction) beyond)
  let call ← ofExcept (ethTx.toTransactionCall currentChainId pf)
  let hash := ethTx.toBeSigned currentChainId true
  let txResult ← EVMC.run pf fuel call
  put .txResults (wordOfBytes hash) txResult
  pure (.result (toHexString hash))

/-- `set_contractKey` -/
def setContractKey (pf : Platform) (address : Address) : Exec Response := do
  let accountState ← EthereumState.get address
  let hasCode ← accountState.hasCode
  throwIf (¬hasCode) .badRequest
  let key ← get .encrypted address
  throwIf key.isSome .badRequest
  let newKey ← ask pf.randomKey
  put .encrypted address newKey
  let level ← get .levels address
  throwIf (level.isSome ∧ level ≠ some .solidity) .badRequest
  put .levels address .solidityEnhance
  pure .done

/-- `send_contractEscrow`, with the request it makes to the host -/
def sendContractEscrow (address : Address) : Exec HostRequest := do
  let accountState ← EthereumState.get address
  let hasCode ← accountState.hasCode
  throwIf hasCode .badRequest
  pure (Web3Operation.contractEscrow address)

/-- What a `set_contractKey` that returned has found and written. -/
theorem parts_of_setContractKey {pf : Platform} {a : Address} {w w' : World} {r : Response}
    (h : setContractKey pf a w = .ok r w') :
    ∃ p w₁ w₂ newKey, EthereumState.get a w = .ok p w₁ ∧ p.hasCode w₁ = .ok true w₂ ∧
      w₂.tx.view .encrypted a = none ∧
        (w₂.tx.view .levels a = none ∨ w₂.tx.view .levels a = some .solidity) ∧
          w'.tx.origin = w₂.tx.origin ∧
            w'.tx.view = (w₂.tx.view.setRow .encrypted a (some newKey)).setRow .levels a
              (some .solidityEnhance) := by
  obtain ⟨p, w₁, hget, hfound⟩ := bind_eq_ok.mp h
  obtain ⟨hasCode, w₂, hread, hchecked⟩ := bind_eq_ok.mp hfound
  obtain ⟨_, w₃, hthrow, hcoded⟩ := bind_eq_ok.mp hchecked
  obtain ⟨hcode, rfl⟩ := throwIf_eq_ok.mp hthrow
  rw [not_not.mp hcode] at hread
  obtain ⟨key, w₄, hgetKey, hasked⟩ := bind_eq_ok.mp hcoded
  obtain ⟨rfl, rfl⟩ := get_eq_ok.mp hgetKey
  obtain ⟨_, w₅, hthrow', hunset⟩ := bind_eq_ok.mp hasked
  obtain ⟨hnone, rfl⟩ := throwIf_eq_ok.mp hthrow'
  obtain ⟨newKey, w₆, hask, hdrawn⟩ := bind_eq_ok.mp hunset
  obtain ⟨-, rfl⟩ := modifyGet_eq_ok.mp hask
  obtain ⟨_, w₇, hputKey, hset⟩ := bind_eq_ok.mp hdrawn
  obtain rfl := put_eq_ok.mp hputKey
  obtain ⟨level, w₈, hgetLevel, hread'⟩ := bind_eq_ok.mp hset
  obtain ⟨rfl, rfl⟩ := get_eq_ok.mp hgetLevel
  obtain ⟨_, w₉, hthrow'', hlow⟩ := bind_eq_ok.mp hread'
  obtain ⟨hlevel, rfl⟩ := throwIf_eq_ok.mp hthrow''
  obtain ⟨_, w₁₀, hputLevel, hpure⟩ := bind_eq_ok.mp hlow
  obtain rfl := put_eq_ok.mp hputLevel
  obtain ⟨-, rfl⟩ := pure_eq_ok.mp hpure
  refine ⟨p, w₁, w₃, newKey, hget, hread, Option.not_isSome_iff_eq_none.mp hnone, ?_, ?_, ?_⟩
  · simp only [view_put, view_noteRead] at hlevel
    rw [setRow_of_ne _ (by decide)] at hlevel
    cases hrow : w₃.tx.view .levels a with
    | none => exact Or.inl rfl
    | some level =>
      rw [hrow, not_and_not_right] at hlevel
      exact Or.inr (hlevel rfl)
  · simp only [origin_put, origin_noteRead]
  · simp only [view_put, view_noteRead]

end Endpoint

end CloakBridge.Evm
