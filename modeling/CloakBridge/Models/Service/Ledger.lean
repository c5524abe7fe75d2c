import CloakBridge.Core.Keccak
import CloakBridge.Core.Effect

/-!
# Accounts, storage and messages on the chain

The code and the storage of every account, the escrow table of `Service`, and the owner of
`ProxyFactory`. Messages are given with their arguments decoded; calldata that no modelled
function accepts is `other`. A world is a ledger with the messages made so far, each with
the ledger it was made in. An account that executes `selfdestruct` exists until the
transaction ends.
-/

namespace CloakBridge.Service

/-- `address` -/
abbrev Address := BitVec 160

/-- What an account runs. An account without code may be absent altogether. -/
inductive Code where
  | absent
  | plain
  | service
  | proxyFactory
  | proxyBridge
  | stateFactory
  /-- OpenZeppelin's `TransparentUpgradeableProxy` -/
  | proxy
  /-- Code that is not part of the modelled system. -/
  | foreign (id : Nat)
  deriving DecidableEq, Repr

/-- `extcodesize(account) == 0` -/
def Code.isEmpty : Code → Bool
  | .absent | .plain => true
  | _ => false

/-- The calldata of a message. -/
inductive Calldata where
  /-- `Service.escrow(address,address)` -/
  | escrow (proxy implementation : Address)
  /-- `Service.privacyEnhancement(address)` -/
  | privacyEnhancement (proxy : Address)
  /-- `Service.upgrade(address,address)` -/
  | upgradeProxy (proxy logic : Address)
  /-- `Service.updateState(address,bytes)` -/
  | updateProxy (proxy : Address) (data : Calldata)
  /-- `Service.updateState(address[],bytes[])` -/
  | updateProxies (proxies : List Address) (data : List Calldata)
  /-- `Service.updateStateAndCancel(address[],bytes[])` -/
  | updateStateAndCancel (proxies : List Address) (data : List Calldata)
  /-- `ProxyFactory.upgradeAndChangeAdmin(address,address)` -/
  | upgradeProxyAndChangeAdmin (proxy implementation : Address)
  /-- `ProxyFactory.transferOwnership(address)` -/
  | transferOwnership (newOwner : Address)
  /-- `ProxyFactory.renounceOwnership()` -/
  | renounceOwnership
  /-- `ProxyBridge.upgradeAndChangeAdmin(address)` -/
  | upgradeAndChangeAdmin (newImplementation : Address)
  /-- `StateFactory.initialize(address)` -/
  | initialise (logic : Address)
  /-- `StateFactory.upgrade(address)` -/
  | upgrade (logic : Address)
  /-- `StateFactory.cancel(address)` and `Service.cancel(address)`, which share their selector -/
  | cancel (account : Address)
  /-- `StateFactory.updateState(bytes32,bytes32[],bytes32[])` -/
  | updateState (proof : Word) (keys vals : List Word)
  /-- `TransparentUpgradeableProxy.changeAdmin(address)` -/
  | changeAdmin (newAdmin : Address)
  /-- `TransparentUpgradeableProxy.upgradeTo(address)` -/
  | upgradeTo (newImplementation : Address)
  /-- `TransparentUpgradeableProxy.upgradeToAndCall(address,bytes)` -/
  | upgradeToAndCall (newImplementation : Address) (data : Calldata)
  /-- `TransparentUpgradeableProxy.admin()` -/
  | admin
  /-- `TransparentUpgradeableProxy.implementation()` -/
  | implementation
  | other (data : ByteString)

/-- A message call. -/
structure Message where
  /-- `tx.origin` -/
  origin : Address
  /-- `msg.sender` -/
  sender : Address
  target : Address
  data : Calldata

/-- `Service.Escrow` -/
structure Escrow where
  master : Address
  enhanced : Bool
  deriving DecidableEq, Repr

/-- The state of the chain. -/
structure Ledger where
  code : Address → Code
  storage : Address → Word → Word
  /-- `Service.escrows` -/
  escrows : Address → Escrow
  /-- The owner of `ProxyFactory`. -/
  factoryOwner : Address
  /-- The accounts that have executed `selfdestruct` in this transaction. -/
  destroyed : List Address

/-- A message, with the ledger in which it was made. -/
structure Entry where
  message : Message
  before : Ledger

/-- A transaction in execution. -/
structure World where
  ledger : Ledger
  /-- The messages made so far, the latest first. -/
  log : List Entry

/-- Why a call reverts. -/
inductive Revert where
  | reason (text : String)
  | panic (code : Nat)
  | empty
  deriving DecidableEq, Repr

/-- Contract code in execution. -/
abbrev Exec := EStateM Revert World

namespace Exec

/-- `require(p, text)` -/
def require (p : Prop) [Decidable p] (text : String) : Exec Unit :=
  if p then pure () else throw (.reason text)

def code (account : Address) : Exec Code := modifyGet fun w => (w.ledger.code account, w)

/-- `sload` in the storage of an account -/
def sload (account : Address) (slot : Word) : Exec Word :=
  modifyGet fun w => (w.ledger.storage account slot, w)

/-- `sstore` in the storage of an account -/
def sstore (account : Address) (slot value : Word) : Exec Unit :=
  modify fun w => { w with ledger := { w.ledger with
    storage := Function.update w.ledger.storage account
      (Function.update (w.ledger.storage account) slot value) } }

/-- `escrows[proxy]` -/
def escrow (proxy : Address) : Exec Escrow := modifyGet fun w => (w.ledger.escrows proxy, w)

/-- `escrows[proxy] = e` -/
def setEscrow (proxy : Address) (e : Escrow) : Exec Unit :=
  modify fun w => { w with ledger := { w.ledger with
    escrows := Function.update w.ledger.escrows proxy e } }

def factoryOwner : Exec Address := modifyGet fun w => (w.ledger.factoryOwner, w)

def setFactoryOwner (owner : Address) : Exec Unit :=
  modify fun w => { w with ledger := { w.ledger with factoryOwner := owner } }

def selfdestruct (account : Address) : Exec Unit :=
  modify fun w => { w with ledger := { w.ledger with
    destroyed := account :: w.ledger.destroyed } }

/-- A message call to `callee`; a revert is passed on, and its effects are taken back. -/
def call (callee : Message → Exec Unit) (m : Message) : Exec Unit := fun w =>
  match callee m { w with log := ⟨m, w.ledger⟩ :: w.log } with
  | .ok _ w' => .ok () w'
  | .error e w' => .error e { w' with ledger := w.ledger }

/-- Go on after a revert, knowing whether there was one. -/
def attempt (x : Exec Unit) : Exec Bool := fun w =>
  match x w with
  | .ok _ w' => .ok true w'
  | .error _ w' => .ok false w'

end Exec

/-- Who executes code, and for whom. -/
structure Context where
  /-- `tx.origin` -/
  origin : Address
  /-- `msg.sender` -/
  sender : Address
  /-- `address(this)` -/
  self : Address

/-- A message to a contract through its interface. -/
def Context.callContract (c : Context) (send : Message → Exec Unit) (target : Address)
    (data : Calldata) : Exec Unit := do
  let code ← Exec.code target
  if code.isEmpty then throw .empty else send ⟨c.origin, c.self, target, data⟩

/-- `Address.functionCall` of OpenZeppelin -/
def Context.functionCall (c : Context) (send : Message → Exec Unit) (target : Address)
    (data : Calldata) : Exec Unit := do
  let code ← Exec.code target
  Exec.require (!code.isEmpty) "Address: call to non-contract"
  send ⟨c.origin, c.self, target, data⟩

/-- The addresses of the contracts of the service, and the hashes of all codes. -/
structure Deployment where
  service : Address
  proxyFactory : Address
  proxyBridge : Address
  stateFactory : Address
  codehash : Code → Word

end CloakBridge.Service
