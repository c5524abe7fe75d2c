import CloakBridge.Models.Service.Ledger

/-!
# The escrow contracts

`EIP1967`, `State`, `StateFactory`, `ProxyBridge`, `ProxyFactory` and `Service`, and the
`TransparentUpgradeableProxy` they are made for. Contracts outside the system are programs
that read and write their own storage, send messages and destroy the account they run in;
they do not create accounts, which is a step of its own. `Network` and the getters of
`Service` touch none of this state and are left out.
-/

namespace CloakBridge.Service

open Exec

/-- `_IMPLEMENTATION_SLOT` -/
def implementationSlot : Word := 0x360894a13ba1a3210667c828492db98dca3e2076cc3735a920a3ca505d382bbc

/-- `_ADMIN_SLOT` -/
def adminSlot : Word := 0xb53127684a568b3173ae13b9f8a6016e243e63b6e8ee1178d6a717850b5d6103

/-- `_ROLLBACK_SLOT` -/
def rollbackSlot : Word := 0x2a7ee7a990a244bda6b8218d6cc50c824030ffcca1203a6c59bdca9cb30f9e58

/-- `_EXECUTOR_SLOT` -/
def executorSlot : Word := 0xb8348531df8271f8aede09ac451eebefaf9b4f564d3006bd336f1747c0d8d659

/-- `_PROOF_SLOT` -/
def proofSlot : Word := 0x2c3b1d89f196b8b08364560cca554b8f81cb28533bd8b87aacb02775960713c2

/-- `_ACCOUNT_HASH` -/
def accountHash : Word := 0xc5d2460186f7233c927e7db2dcc703c0e500b653ca82273b7bfad8045d85a470

/-- The address in the low bytes of a slot. -/
def addressOf (value : Word) : Address := value.setWidth 160

/-- A slot with the address in its low bytes replaced. -/
def withAddress (value : Word) (account : Address) : Word :=
  (value.extractLsb' 160 96 ++ account : BitVec (96 + 160))

/-- An address is read back from its word. -/
@[simp]
theorem addressOf_withAddress (value : Word) (account : Address) :
    addressOf (withAddress value account) = account := by
  ext i hi
  rw [addressOf, withAddress, BitVec.getElem_setWidth, BitVec.getLsbD_append, if_pos hi]
  exact BitVec.getLsbD_eq_getElem hi

/-- `StorageSlot.getAddressSlot(slot).value` -/
def getAddressSlot (self : Address) (slot : Word) : Exec Address := do
  let value ← sload self slot
  pure (addressOf value)

/-- `StorageSlot.getAddressSlot(slot).value = account` -/
def setAddressSlot (self : Address) (slot : Word) (account : Address) : Exec Unit := do
  let value ← sload self slot
  sstore self slot (withAddress value account)

namespace EIP1967

/-- `_setImplementation` -/
def setImplementation (self newImplementation : Address) : Exec Unit := do
  let code ← Exec.code newImplementation
  require (!code.isEmpty) "EIP1967: new implementation is not a contract"
  setAddressSlot self implementationSlot newImplementation

/-- `_changeAdmin` and `_setAdmin` -/
def changeAdmin (self newAdmin : Address) : Exec Unit := do
  require (newAdmin ≠ 0) "EIP1967: new admin is the zero address"
  setAddressSlot self adminSlot newAdmin

end EIP1967

namespace State

/-- `_setRollBack` -/
def setRollBack (self account : Address) : Exec Unit := do
  require (account ≠ 0) "BaseState: account is the zero address"
  setAddressSlot self rollbackSlot account

/-- `_setExecutor` -/
def setExecutor (self account : Address) : Exec Unit := do
  require (account ≠ 0) "BaseState: account is the zero address"
  setAddressSlot self executorSlot account

/-- `onlyExecutor` -/
def onlyExecutor (c : Context) : Exec Unit := do
  let executor ← getAddressSlot c.self executorSlot
  require (executor = c.sender) "State: caller is not the executor"

/-- `onlyInitialized` -/
def onlyInitialized (c : Context) : Exec Unit := do
  let executor ← getAddressSlot c.self executorSlot
  require (executor = 0) "StateFactory: executor has already setting"

/-- `_clearConfigure` -/
def clearConfigure (self : Address) : Exec Unit := do
  sstore self proofSlot 0
  setAddressSlot self rollbackSlot 0
  setAddressSlot self executorSlot 0

/-- `_setProofHash` -/
def setProofHash (self : Address) (proof : Word) : Exec Unit := do
  require (proof ≠ 0) "State: proof is none"
  sstore self proofSlot proof

/-- `_updateState`, whose body is commented out -/
def updateState (_proof : Word) (_keys _vals : List Word) : Exec Unit := pure ()

end State

section Contracts

variable (d : Deployment)

/-- `extcodehash(account)` -/
def Deployment.extcodehash : Code → Word
  | .absent => 0
  | .plain => accountHash
  | code => d.codehash code

namespace StateFactory

/-- `keccak256(abi.encodePacked(codehash, state))` -/
def escrowProof (codehash : Word) (state : Address) : Word :=
  wordOfBytes (Keccak.keccak256 (wordBytes codehash ++ (wordBytes (state.setWidth 256)).drop 12))

/-- `generateEscrowProof` -/
def generateEscrowProof (self account : Address) : Exec Word := do
  let state ← getAddressSlot self implementationSlot
  let code ← Exec.code account
  require (d.extcodehash code ≠ accountHash) "BaseState: account is a common address"
  pure (escrowProof (d.extcodehash code) state)

/-- `updateProof` -/
def updateProof (self account : Address) : Exec Unit := do
  let proof ← generateEscrowProof d self account
  State.setProofHash self proof

/-- `initialize` -/
def initialise (c : Context) (logic : Address) : Exec Unit := do
  State.onlyInitialized c
  let rollback ← getAddressSlot c.self rollbackSlot
  require (rollback ≠ logic) "StateFactory: the same as contract or not implementated"
  State.setRollBack c.self logic
  State.setExecutor c.self c.sender
  updateProof d c.self logic

/-- `upgrade` -/
def upgrade (c : Context) (logic : Address) : Exec Unit := do
  State.onlyExecutor c
  let rollback ← getAddressSlot c.self rollbackSlot
  require (rollback ≠ logic) "StateFactory: new contract should be different"
  State.setRollBack c.self logic
  updateProof d c.self logic

/-- `cancel` -/
def cancel (c : Context) (master : Address) : Exec Unit := do
  State.onlyExecutor c
  let logic ← getAddressSlot c.self rollbackSlot
  require (logic ≠ 0) "StateFactory: logic is the zero address"
  EIP1967.setImplementation c.self logic
  EIP1967.changeAdmin c.self master
  State.clearConfigure c.self

/-- The functions of the contract; it has no fallback. -/
def receive (c : Context) : Calldata → Exec Unit
  | .updateState proof keys vals => State.updateState proof keys vals
  | .initialise logic => initialise d c logic
  | .upgrade logic => upgrade d c logic
  | .cancel master => cancel c master
  | _ => throw .empty

end StateFactory

namespace ProxyBridge

/-- `upgradeAndChangeAdmin` -/
def upgradeAndChangeAdmin (c : Context) (newImplementation : Address) : Exec Unit := do
  require (d.proxyFactory = c.sender) "ProxyBridge: caller is forbidden"
  let admin ← getAddressSlot c.self adminSlot
  require (admin = c.origin) "ProxyBridge: caller is not origin admin"
  EIP1967.changeAdmin c.self d.proxyFactory
  EIP1967.setImplementation c.self newImplementation

/-- The functions of the contract; it has no fallback. -/
def receive (c : Context) : Calldata → Exec Unit
  | .upgradeAndChangeAdmin newImplementation => upgradeAndChangeAdmin d c newImplementation
  | _ => throw .empty

end ProxyBridge

variable (send : Message → Exec Unit)

namespace ProxyFactory

/-- `onlyOwner` of OpenZeppelin -/
def onlyOwner (c : Context) : Exec Unit := do
  let owner ← factoryOwner
  require (owner = c.sender) "Ownable: caller is not the owner"

/-- `upgradeAndChangeAdmin` -/
def upgradeAndChangeAdmin (c : Context) (proxy implementation : Address) : Exec Unit := do
  onlyOwner c
  c.callContract send proxy (.upgradeAndChangeAdmin implementation)

/-- `transferOwnership` of OpenZeppelin -/
def transferOwnership (c : Context) (newOwner : Address) : Exec Unit := do
  onlyOwner c
  require (newOwner ≠ 0) "Ownable: new owner is the zero address"
  setFactoryOwner newOwner

/-- `renounceOwnership` of OpenZeppelin -/
def renounceOwnership (c : Context) : Exec Unit := do
  onlyOwner c
  setFactoryOwner 0

/-- The functions of the contract; it has no fallback. -/
def receive (c : Context) : Calldata → Exec Unit
  | .upgradeProxyAndChangeAdmin proxy implementation =>
    upgradeAndChangeAdmin send c proxy implementation
  | .transferOwnership newOwner => transferOwnership c newOwner
  | .renounceOwnership => renounceOwnership c
  | _ => throw .empty

end ProxyFactory

/-- `onlyEscrow` -/
def onlyEscrow (c : Context) (proxy : Address) : Exec Unit := do
  let e ← Exec.escrow proxy
  require (e.master = c.sender) "Service: caller is not the escrow master"

/-- `onlyNotEscrow` -/
def onlyNotEscrow (c : Context) (proxy : Address) : Exec Unit := do
  let e ← Exec.escrow proxy
  require (e.master ≠ c.sender) "Service: contract has alread escrowed"

/-- `onlyNotEnhanced` -/
def onlyNotEnhanced (proxy : Address) : Exec Unit := do
  let e ← Exec.escrow proxy
  require (e.enhanced = false) "Service: escrow enchaned become effective"

/-- `delete escrows[proxy]` -/
def deleteEscrow (proxy : Address) : Exec Unit := setEscrow proxy ⟨0, false⟩

/-- `escrow` -/
def escrow (c : Context) (proxy implementation : Address) : Exec Unit := do
  onlyNotEscrow c proxy
  require (proxy ≠ implementation) "Service: implementation cannot be proxy"
  c.callContract send d.proxyFactory (.upgradeProxyAndChangeAdmin proxy d.stateFactory)
  c.callContract send proxy (.initialise implementation)
  setEscrow proxy ⟨c.sender, false⟩

/-- `privacyEnhancement` -/
def privacyEnhancement (c : Context) (proxy : Address) : Exec Unit := do
  onlyEscrow c proxy
  onlyNotEnhanced proxy
  let e ← Exec.escrow proxy
  setEscrow proxy { e with enhanced := true }

/-- `upgrade` -/
def upgrade (c : Context) (proxy logic : Address) : Exec Unit := do
  onlyEscrow c proxy
  c.callContract send proxy (.upgrade logic)

/-- `cancel` -/
def cancel (c : Context) (proxy : Address) : Exec Unit := do
  onlyEscrow c proxy
  onlyNotEnhanced proxy
  c.callContract send proxy (.cancel c.sender)
  deleteEscrow proxy

/-- `updateState(address,bytes)` -/
def updateState (c : Context) (proxy : Address) (data : Calldata) : Exec Unit := do
  let e ← Exec.escrow proxy
  require (e.master ≠ 0) "Service: contract is not escrows"
  c.functionCall send proxy data

/-- The loop `for (uint8 i = 0; i < proxy.length; i++)`, whose counter cannot pass 255. -/
def forEach (f : Address → Calldata → Exec Unit) : Nat → List (Address × Calldata) → Exec Unit
  | _, [] => pure ()
  | i, (proxy, data) :: rest => do
    f proxy data
    if i = 255 then throw (.panic 0x11) else forEach f (i + 1) rest

/-- `updateState(address[],bytes[])` -/
def updateStates (c : Context) (proxies : List Address) (data : List Calldata) : Exec Unit := do
  require (proxies.length = data.length) "Service: both length not equal"
  forEach (updateState send c) 0 (proxies.zip data)

/-- The body of the loop of `updateStateAndCancel`. -/
def updateStateThenCancel (c : Context) (proxy : Address) (data : Calldata) : Exec Unit := do
  updateState send c proxy data
  let e ← Exec.escrow proxy
  c.callContract send proxy (.cancel e.master)
  deleteEscrow proxy

/-- `updateStateAndCancel` -/
def updateStateAndCancel (c : Context) (proxies : List Address) (data : List Calldata) :
    Exec Unit := do
  require (proxies.length = data.length) "Service: both length not equal"
  forEach (updateStateThenCancel send c) 0 (proxies.zip data)

/-- The functions of `Service`; it has no fallback. -/
def receive (c : Context) : Calldata → Exec Unit
  | .escrow proxy implementation => escrow d send c proxy implementation
  | .privacyEnhancement proxy => privacyEnhancement c proxy
  | .upgradeProxy proxy logic => upgrade send c proxy logic
  | .cancel proxy => cancel send c proxy
  | .updateProxy proxy data => updateState send c proxy data
  | .updateProxies proxies data => updateStates send c proxies data
  | .updateStateAndCancel proxies data => updateStateAndCancel send c proxies data
  | _ => throw .empty

end Contracts

/-- A contract outside the system, as far as it touches the modelled state. -/
inductive Foreign where
  | stop
  | revert
  | selfdestruct
  | sload (slot : Word) (next : Word → Foreign)
  | sstore (slot value : Word) (next : Foreign)
  | call (target : Address) (data : Calldata) (next : Bool → Foreign)

/-- What the code at an address does when it gets a message, for every number of messages made
before. -/
abbrev Surroundings := Nat → Address → Message → Foreign

/-- Execute a program as the account that it runs in. -/
def Foreign.run (send : Message → Exec Unit) (c : Context) : Foreign → Exec Unit
  | .stop => pure ()
  | .revert => throw .empty
  | .selfdestruct => Exec.selfdestruct c.self
  | .sload slot next => do
    let value ← Exec.sload c.self slot
    (next value).run send c
  | .sstore slot value next => do
    Exec.sstore c.self slot value
    next.run send c
  | .call target data next => do
    let returned ← attempt (send ⟨c.origin, c.self, target, data⟩)
    (next returned).run send c

section Messages

variable (d : Deployment) (env : Surroundings) (send : Message → Exec Unit)

/-- Execute code that is not modelled. -/
def runForeign (c : Context) (logic : Address) (data : Calldata) : Exec Unit := do
  let w ← get
  (env w.log.length logic ⟨c.origin, c.sender, c.self, data⟩).run send c

/-- `delegatecall`: code at `logic` runs in the storage of `c.self`. -/
def delegate (c : Context) (logic : Address) (data : Calldata) : Exec Unit := do
  let code ← Exec.code logic
  match code with
  | .absent | .plain => pure ()
  | .proxyBridge => ProxyBridge.receive d c data
  | .stateFactory => StateFactory.receive d c data
  | .service | .proxyFactory | .proxy | .foreign _ => runForeign env send c logic data

namespace TransparentUpgradeableProxy

/-- `_upgradeTo` -/
def upgradeTo (self newImplementation : Address) : Exec Unit := do
  let code ← Exec.code newImplementation
  require (!code.isEmpty) "ERC1967: new implementation is not a contract"
  setAddressSlot self implementationSlot newImplementation

/-- The functions behind `ifAdmin`; the admin cannot reach the implementation. -/
def receiveAdmin (c : Context) : Calldata → Exec Unit
  | .admin | .implementation => pure ()
  | .changeAdmin newAdmin => do
    require (newAdmin ≠ 0) "ERC1967: new admin is the zero address"
    setAddressSlot c.self adminSlot newAdmin
  | .upgradeTo newImplementation => upgradeTo c.self newImplementation
  | .upgradeToAndCall newImplementation data => do
    upgradeTo c.self newImplementation
    delegate d env send c newImplementation data
  | _ => throw (.reason "TransparentUpgradeableProxy: admin cannot fallback to proxy target")

/-- Everybody but the admin is delegated to the implementation. -/
def receive (c : Context) (data : Calldata) : Exec Unit := do
  let admin ← getAddressSlot c.self adminSlot
  if c.sender = admin then receiveAdmin d env send c data
  else do
    let implementation ← getAddressSlot c.self implementationSlot
    delegate d env send c implementation data

end TransparentUpgradeableProxy

/-- The code of the target handles the message. -/
def dispatch (m : Message) : Exec Unit := do
  let c : Context := ⟨m.origin, m.sender, m.target⟩
  let code ← Exec.code m.target
  match code with
  | .absent | .plain => pure ()
  | .service => receive d send c m.data
  | .proxyFactory => ProxyFactory.receive send c m.data
  | .proxyBridge => ProxyBridge.receive d c m.data
  | .stateFactory => StateFactory.receive d c m.data
  | .proxy => TransparentUpgradeableProxy.receive d env send c m.data
  | .foreign _ => runForeign env send c m.target m.data

/-- Handle a message with a bound on how deep messages may nest. -/
def handle : Nat → Message → Exec Unit
  | 0, _ => throw .empty
  | depth + 1, m => dispatch d env (Exec.call (handle depth)) m

end Messages

/-- A transaction: the message of an externally owned account, how deep messages nest before gas or
the call stack is exhausted, and what the contracts outside the system do. -/
structure Transaction where
  origin : Address
  target : Address
  data : Calldata
  depth : Nat
  env : Surroundings

/-- What happens on the chain. -/
inductive Action where
  | transact (t : Transaction)
  /-- An account without code comes into existence, or gets code. -/
  | create (account : Address) (code : Code) (storage : Word → Word)

/-- Codes that accounts can get during a run: the contracts of the system exist already. -/
def Code.isNew : Code → Bool
  | .plain | .proxy | .foreign _ => true
  | _ => false

/-- Execute a transaction from a ledger. -/
def Transaction.execute (d : Deployment) (t : Transaction) (l : Ledger) : World :=
  stateAfter (Exec.call (handle d t.env t.depth) ⟨t.origin, t.origin, t.target, t.data⟩)
    ⟨{ l with destroyed := [] }, []⟩

/-- Proxies and contracts outside the system can execute `selfdestruct`. -/
def Code.isMortal : Code → Bool
  | .proxy | .foreign _ => true
  | _ => false

/-- The account vanishes when the transaction ends. -/
def Ledger.vanishes (l : Ledger) (account : Address) : Bool :=
  l.destroyed.contains account && (l.code account).isMortal

/-- The ledger behind a transaction. -/
def Ledger.settle (l : Ledger) : Ledger := { l with
  code := fun a => if l.vanishes a then .absent else l.code a
  storage := fun a => if l.vanishes a then fun _ => 0 else l.storage a
  destroyed := [] }

/-- One step of the chain. Contracts do not send transactions, and nobody owns the zero address. -/
def step (d : Deployment) (l : Ledger) : Action → Option Ledger
  | .transact t =>
    if t.origin ≠ 0 ∧ (l.code t.origin).isEmpty then some (t.execute d l).ledger.settle else none
  | .create account code storage =>
    if account ≠ 0 ∧ (l.code account).isEmpty ∧ code.isNew then
      some { l with
        code := Function.update l.code account code
        storage := Function.update l.storage account storage }
    else none

end CloakBridge.Service
