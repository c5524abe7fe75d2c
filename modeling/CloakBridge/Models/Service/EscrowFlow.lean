import CloakBridge.Models.Service.Effects

/-!
# What the escrow functions leave in a proxy

The five reserved slots of a proxy, read as one record, and the exact change that
each successful function of `StateFactory` and `ProxyBridge` makes to it. The last
part follows `Service.escrow` through `ProxyFactory` and the proxy's two
implementations.
-/

namespace CloakBridge.Service

open Exec Ledger OpenZeppelin

/-- The contents of the reserved slots of an account. -/
structure Reserved where
  admin : Address
  implementation : Address
  rollback : Address
  executor : Address
  proof : Word
  deriving DecidableEq, Repr

/-- The reserved slots of an account. -/
def Ledger.reserved (l : Ledger) (a : Address) : Reserved where
  admin := l.addressAt a adminSlot
  implementation := l.addressAt a implementationSlot
  rollback := l.addressAt a rollbackSlot
  executor := l.addressAt a executorSlot
  proof := l.storage a proofSlot

/-- The world after an address was written to a slot. -/
def World.setAddress (w : World) (a : Address) (slot : Word) (account : Address) : World :=
  w.write a slot (withAddress (w.ledger.storage a slot) account)

variable {slot : Word}

namespace World

variable (w : World) (a : Address) {slot' : Word}

/-- A write changes its slot. -/
theorem storage_write (slot value slot' : Word) : (w.write a slot value).ledger.storage a slot' =
      if slot' = slot then value else w.ledger.storage a slot' := by
  simp [write, Function.update_apply]

private theorem storage_setAddress_of_ne (h : slot' ≠ slot) (account : Address) :
    (w.setAddress a slot account).ledger.storage a slot' = w.ledger.storage a slot' := by
  rw [setAddress, storage_write, if_neg h]

/-- Writing an address changes its slot. -/
theorem addressAt_setAddress (slot slot' : Word) (account : Address) :
    (w.setAddress a slot account).ledger.addressAt a slot' =
      if slot' = slot then account else w.ledger.addressAt a slot' := by
  rw [addressAt, setAddress, storage_write]
  by_cases h : slot' = slot
  · rw [if_pos h, if_pos h, addressOf_withAddress]
  · rw [if_neg h, if_neg h, addressAt]

private theorem addressAt_write_of_ne (h : slot' ≠ slot) (value : Word) :
    (w.write a slot value).ledger.addressAt a slot' = w.ledger.addressAt a slot' := by
  rw [addressAt, storage_write, if_neg h, addressAt]

private theorem reserved_setAdmin (account : Address) :
    (w.setAddress a adminSlot account).ledger.reserved a =
      { w.ledger.reserved a with admin := account } := by
  simp only [reserved, addressAt_setAddress, if_true,
    storage_setAddress_of_ne w a (show proofSlot ≠ adminSlot by decide),
    if_neg (show implementationSlot ≠ adminSlot by decide),
    if_neg (show rollbackSlot ≠ adminSlot by decide),
    if_neg (show executorSlot ≠ adminSlot by decide)]

/-- The implementation slot is written. -/
theorem reserved_setImplementation (account : Address) :
    (w.setAddress a implementationSlot account).ledger.reserved a =
      { w.ledger.reserved a with implementation := account } := by
  simp only [reserved, addressAt_setAddress, if_true,
    storage_setAddress_of_ne w a (show proofSlot ≠ implementationSlot by decide),
    if_neg (show adminSlot ≠ implementationSlot by decide),
    if_neg (show rollbackSlot ≠ implementationSlot by decide),
    if_neg (show executorSlot ≠ implementationSlot by decide)]

private theorem reserved_setRollback (account : Address) :
    (w.setAddress a rollbackSlot account).ledger.reserved a =
      { w.ledger.reserved a with rollback := account } := by
  simp only [reserved, addressAt_setAddress, if_true,
    storage_setAddress_of_ne w a (show proofSlot ≠ rollbackSlot by decide),
    if_neg (show adminSlot ≠ rollbackSlot by decide),
    if_neg (show implementationSlot ≠ rollbackSlot by decide),
    if_neg (show executorSlot ≠ rollbackSlot by decide)]

private theorem reserved_setExecutor (account : Address) :
    (w.setAddress a executorSlot account).ledger.reserved a =
      { w.ledger.reserved a with executor := account } := by
  simp only [reserved, addressAt_setAddress, if_true,
    storage_setAddress_of_ne w a (show proofSlot ≠ executorSlot by decide),
    if_neg (show adminSlot ≠ executorSlot by decide),
    if_neg (show implementationSlot ≠ executorSlot by decide),
    if_neg (show rollbackSlot ≠ executorSlot by decide)]

private theorem reserved_setProof (proof : Word) :
    (w.write a proofSlot proof).ledger.reserved a =
      { w.ledger.reserved a with proof := proof } := by
  simp only [reserved, storage_write, if_true,
    addressAt_write_of_ne w a (show adminSlot ≠ proofSlot by decide),
    addressAt_write_of_ne w a (show implementationSlot ≠ proofSlot by decide),
    addressAt_write_of_ne w a (show rollbackSlot ≠ proofSlot by decide),
    addressAt_write_of_ne w a (show executorSlot ≠ proofSlot by decide)]

end World

variable {a account : Address}

section Steps

variable {α : Type} {w w' : World} {r : α}

theorem require_bind {q : Prop} [Decidable q] {text : String} {f : Unit → Exec α} :
    (require q text >>= f) w = .ok r w' ↔ q ∧ f () w = .ok r w' := by
  by_cases hq : q
  · rw [bind_of_ok (require_eq_ok.mpr ⟨hq, rfl⟩)]
    simp [hq]
  · rw [bind_of_error (require_of_not hq w)]
    simp [hq]

theorem getAddressSlot_bind {f : Address → Exec α} :
    (getAddressSlot a slot >>= f) w = f (w.ledger.addressAt a slot) w :=
  bind_of_ok (getAddressSlot_run a slot w)

theorem setAddressSlot_bind {f : Unit → Exec α} :
    (setAddressSlot a slot account >>= f) w = f () (w.setAddress a slot account) :=
  bind_of_ok (setAddressSlot_run a slot account w)

theorem setAddressSlot_ok (h : setAddressSlot a slot account w = .ok () w') :
    w' = w.setAddress a slot account := by
  rw [setAddressSlot_run] at h
  exact (EStateM.Result.ok.inj h).2.symm

theorem code_bind {f : Code → Exec α} : (Exec.code a >>= f) w = f (w.ledger.code a) w :=
  bind_of_ok rfl

theorem escrow_bind {f : Escrow → Exec α} : (Exec.escrow a >>= f) w = f (w.ledger.escrows a) w :=
  bind_of_ok rfl

theorem sstore_bind {value : Word} {f : Unit → Exec α} :
    (Exec.sstore a slot value >>= f) w = f () (w.write a slot value) :=
  bind_of_ok rfl

end Steps

section Library

variable {d : Deployment} {c : Context} {w w' : World}

/-- The proof that is stored for a logic contract, given the codes of the accounts. -/
def Deployment.proofOf (d : Deployment) (code : Address → Code) (logic state : Address) : Word :=
  StateFactory.escrowProof (d.extcodehash (code logic)) state

variable {logic : Address}

/-- `updateProof` writes the proof slot. -/
theorem updateProof_ok (h : StateFactory.updateProof d c.self account w = .ok () w') :
    w' = w.write c.self proofSlot
      (d.proofOf w.ledger.code account (w.ledger.addressAt c.self implementationSlot)) := by
  have hproof : ∀ proof w₁, StateFactory.generateEscrowProof d c.self account w = .ok proof w₁ →
      proof = d.proofOf w.ledger.code account (w.ledger.addressAt c.self implementationSlot) ∧
        w₁ = w := by
    intro proof w₁ hproof
    simp only [StateFactory.generateEscrowProof, getAddressSlot_bind, code_bind,
      require_bind] at hproof
    exact pure_eq_ok.mp hproof.2
  obtain ⟨proof, w₁, hrun, hset⟩ := bind_eq_ok.mp h
  obtain ⟨hp, hw⟩ := hproof proof w₁ hrun
  simp only [State.setProofHash, require_bind] at hset
  obtain ⟨-, hfinal⟩ := modifyGet_eq_ok.mp hset.2
  rw [hfinal, hp, hw]
  rfl

/-- A successful `initialize`. -/
theorem initialise_ok (h : StateFactory.initialise d c logic w = .ok () w') :
    (w.ledger.reserved c.self).executor = 0 ∧ logic ≠ 0 ∧ w'.ledger.reserved c.self =
        { w.ledger.reserved c.self with
          rollback := logic
          executor := c.sender
          proof := d.proofOf w.ledger.code logic (w.ledger.reserved c.self).implementation } := by
  simp only [StateFactory.initialise, State.onlyInitialized, State.setRollBack, State.setExecutor,
    bind_assoc, getAddressSlot_bind, require_bind, setAddressSlot_bind] at h
  obtain ⟨hexecutor, -, hlogic, -, hproof⟩ := h
  refine ⟨hexecutor, hlogic, ?_⟩
  rw [updateProof_ok hproof, World.reserved_setProof, World.reserved_setExecutor,
    World.reserved_setRollback]
  simp only [World.addressAt_setAddress, if_neg (show implementationSlot ≠ executorSlot by decide),
    if_neg (show implementationSlot ≠ rollbackSlot by decide)]
  rfl

/-- A successful `upgrade`. -/
theorem stateUpgrade_ok (h : StateFactory.upgrade d c logic w = .ok () w') :
    (w.ledger.reserved c.self).executor = c.sender ∧ logic ≠ 0 ∧ w'.ledger.reserved c.self =
        { w.ledger.reserved c.self with
          rollback := logic
          proof := d.proofOf w.ledger.code logic (w.ledger.reserved c.self).implementation } := by
  simp only [StateFactory.upgrade, State.onlyExecutor, State.setRollBack, bind_assoc,
    getAddressSlot_bind, require_bind, setAddressSlot_bind] at h
  obtain ⟨hexecutor, -, hlogic, hproof⟩ := h
  refine ⟨hexecutor, hlogic, ?_⟩
  rw [updateProof_ok hproof, World.reserved_setProof, World.reserved_setRollback]
  simp only [World.addressAt_setAddress, if_neg (show implementationSlot ≠ rollbackSlot by decide)]
  rfl

/-- A successful `cancel`. -/
theorem stateCancel_ok {master : Address} (h : StateFactory.cancel c master w = .ok () w') :
    (w.ledger.reserved c.self).executor = c.sender ∧
      (w.ledger.code (w.ledger.reserved c.self).rollback).isEmpty = false ∧ master ≠ 0 ∧
      w'.ledger.reserved c.self = ⟨master, (w.ledger.reserved c.self).rollback, 0, 0, 0⟩ := by
  simp only [StateFactory.cancel, State.onlyExecutor, EIP1967.setImplementation,
    EIP1967.changeAdmin, State.clearConfigure, bind_assoc, getAddressSlot_bind, require_bind,
    code_bind, setAddressSlot_bind, sstore_bind] at h
  obtain ⟨hexecutor, -, hcode, hmaster, hfinal⟩ := h
  rw [Bool.not_eq_true'] at hcode
  refine ⟨hexecutor, hcode, hmaster, ?_⟩
  rw [setAddressSlot_ok hfinal, World.reserved_setExecutor, World.reserved_setRollback,
    World.reserved_setProof, World.reserved_setAdmin, World.reserved_setImplementation]
  rfl

/-- A successful `upgradeAndChangeAdmin`. -/
theorem bridge_ok {newImplementation : Address}
    (h : ProxyBridge.upgradeAndChangeAdmin d c newImplementation w = .ok () w') :
    d.proxyFactory = c.sender ∧ (w.ledger.reserved c.self).admin = c.origin ∧
      (w.ledger.code newImplementation).isEmpty = false ∧ w'.ledger.reserved c.self =
        { w.ledger.reserved c.self with
          admin := d.proxyFactory
          implementation := newImplementation } := by
  simp only [ProxyBridge.upgradeAndChangeAdmin, EIP1967.setImplementation, EIP1967.changeAdmin,
    bind_assoc, getAddressSlot_bind, require_bind, code_bind, setAddressSlot_bind] at h
  obtain ⟨hsender, hadmin, -, hcode, hfinal⟩ := h
  rw [Bool.not_eq_true'] at hcode
  refine ⟨hsender, hadmin, hcode, ?_⟩
  rw [setAddressSlot_ok hfinal, World.reserved_setImplementation, World.reserved_setAdmin]

end Library

variable {m : Message} {target proxy : Address} {data : Calldata}

section Runs

variable {d : Deployment} {env : Surroundings} {send : Message → Exec Unit} {c : Context}
  {w : World} {callee : Message → Exec Unit} {r : Revert} {w' : World}

/-- Others than the executor are turned down. -/
theorem onlyExecutor_of_ne (h : w.ledger.addressAt c.self executorSlot ≠ c.sender) :
    State.onlyExecutor c w = .error (.reason "State: caller is not the executor") w := by
  rw [State.onlyExecutor, bind_of_ok (getAddressSlot_run _ _ _)]
  exact require_of_not h w

/-- No executor is set where there is one. -/
theorem onlyInitialized_of_ne (h : w.ledger.addressAt c.self executorSlot ≠ 0) :
    State.onlyInitialized c w =
      .error (.reason "StateFactory: executor has already setting") w := by
  rw [State.onlyInitialized, bind_of_ok (getAddressSlot_run _ _ _)]
  exact require_of_not h w

/-- A message to a proxy is handled by the proxy. -/
theorem dispatch_of_proxy (h : w.ledger.code m.target = .proxy) : dispatch d env send m w =
      TransparentUpgradeableProxy.receive d env send ⟨m.origin, m.sender, m.target⟩ m.data w := by
  have hcode : Exec.code m.target w = .ok .proxy w := by
    rw [← h]
    rfl
  rw [dispatch, bind_of_ok hcode]

/-- A call of a contract is a message. -/
theorem callContract_of_code (h : (w.ledger.code target).isEmpty = false) :
    c.callContract send target data w = send ⟨c.origin, c.self, target, data⟩ w := by
  have hcode : Exec.code target w = .ok (w.ledger.code target) w := rfl
  rw [Context.callContract, bind_of_ok hcode, h]
  rfl

private theorem callContract_of_empty (h : (w.ledger.code target).isEmpty = true) :
    c.callContract send target data w = .error .empty w := by
  have hcode : Exec.code target w = .ok (w.ledger.code target) w := rfl
  rw [Context.callContract, bind_of_ok hcode, h]
  rfl

/-- The master may go on. -/
theorem onlyEscrow_of_eq (h : (w.ledger.escrows proxy).master = c.sender) :
    onlyEscrow c proxy w = .ok () w := by
  have hread : Exec.escrow proxy w = .ok (w.ledger.escrows proxy) w := rfl
  rw [onlyEscrow, bind_of_ok hread]
  exact require_eq_ok.mpr ⟨h, rfl⟩

/-- Others than the master are turned down. -/
theorem onlyEscrow_of_ne (h : (w.ledger.escrows proxy).master ≠ c.sender) :
    onlyEscrow c proxy w = .error (.reason "Service: caller is not the escrow master") w := by
  have hread : Exec.escrow proxy w = .ok (w.ledger.escrows proxy) w := rfl
  rw [onlyEscrow, bind_of_ok hread]
  exact require_of_not h w

/-- Without enhancement one may go on. -/
theorem onlyNotEnhanced_of_eq (h : (w.ledger.escrows proxy).enhanced = false) :
    onlyNotEnhanced proxy w = .ok () w := by
  have hread : Exec.escrow proxy w = .ok (w.ledger.escrows proxy) w := rfl
  rw [onlyNotEnhanced, bind_of_ok hread]
  exact require_eq_ok.mpr ⟨h, rfl⟩

/-- With enhancement one is turned down. -/
theorem onlyNotEnhanced_of_ne (h : (w.ledger.escrows proxy).enhanced ≠ false) :
    onlyNotEnhanced proxy w =
      .error (.reason "Service: escrow enchaned become effective") w := by
  have hread : Exec.escrow proxy w = .ok (w.ledger.escrows proxy) w := rfl
  rw [onlyNotEnhanced, bind_of_ok hread]
  exact require_of_not h w

/-- A call that fails changes nothing. -/
theorem ledger_of_call_error (h : Exec.call callee m w = .error r w') : w'.ledger = w.ledger := by
  unfold Exec.call at h
  split at h
  next => cases h
  next =>
    cases h
    rfl

/-- A call of a contract that fails changes nothing. -/
theorem ledger_of_callContract_error
    (h : c.callContract (Exec.call callee) target data w = .error r w') : w'.ledger = w.ledger := by
  cases hcode : (w.ledger.code target).isEmpty with
  | true =>
    rw [callContract_of_empty hcode] at h
    cases h
    rfl
  | false =>
    rw [callContract_of_code hcode] at h
    exact ledger_of_call_error h

end Runs

/-- The contracts of the service are where they should be, and nowhere else. -/
structure Deployed (d : Deployment) (code : Address → Code) : Prop where
  service : ∀ a, code a = .service ↔ a = d.service
  proxyFactory : ∀ a, code a = .proxyFactory ↔ a = d.proxyFactory
  stateFactory : ∀ a, code a = .stateFactory ↔ a = d.stateFactory
  zero : (code 0).isEmpty

variable {code : Code}

/-- What can be destroyed is not empty. -/
theorem Code.isEmpty_of_isMortal (h : code.isMortal = true) : code.isEmpty = false := by
  cases code <;> first | rfl | cases h

/-- A proxy can be destroyed. -/
theorem Code.isMortal_of_proxy (h : code = .proxy) : code.isMortal = true := by
  rw [h]
  rfl

namespace Deployed

variable {d : Deployment} {code : Address → Code} (h : Deployed d code)

include h

/-- `Service` has code. -/
theorem isEmpty_service : (code d.service).isEmpty = false := by
  rw [(h.service d.service).mpr rfl]
  rfl

/-- `ProxyFactory` has code. -/
theorem isEmpty_proxyFactory : (code d.proxyFactory).isEmpty = false := by
  rw [(h.proxyFactory d.proxyFactory).mpr rfl]
  rfl

/-- There is no code at address zero. -/
theorem ne_zero (ha : (code a).isEmpty = false) : a ≠ 0 := by
  rintro rfl
  rw [h.zero] at ha
  cases ha

/-- `ProxyFactory` is not `Service`. -/
theorem proxyFactory_ne_service : d.proxyFactory ≠ d.service := by
  intro heq
  have hfactory := (h.proxyFactory d.proxyFactory).mpr rfl
  rw [(h.service d.proxyFactory).mpr heq] at hfactory
  cases hfactory

/-- What can be destroyed is not `Service`. -/
theorem ne_service (ha : (code a).isMortal = true) : a ≠ d.service := by
  rintro rfl
  rw [(h.service _).mpr rfl] at ha
  cases ha

/-- What can be destroyed is not `ProxyFactory`. -/
theorem ne_proxyFactory (ha : (code a).isMortal = true) : a ≠ d.proxyFactory := by
  rintro rfl
  rw [(h.proxyFactory _).mpr rfl] at ha
  cases ha

end Deployed

/-! ### The end of a transaction -/

namespace Ledger

variable {l : Ledger} {a : Address}

private theorem not_vanishes (h : a ∉ l.destroyed) : l.vanishes a = false := by
  simp [vanishes, h]

/-- What was not destroyed keeps its code. -/
theorem settle_code (h : a ∉ l.destroyed) : l.settle.code a = l.code a := by
  simp [settle, not_vanishes h]

/-- What was not destroyed keeps its slots. -/
theorem settle_storage (h : a ∉ l.destroyed) : l.settle.storage a = l.storage a := by
  simp [settle, not_vanishes h]

/-- Entries outlive a transaction. -/
theorem settle_escrows (l : Ledger) : l.settle.escrows = l.escrows := rfl

/-- What was not destroyed keeps its reserved slots. -/
theorem settle_reserved (h : a ∉ l.destroyed) : l.settle.reserved a = l.reserved a := by
  simp only [reserved, addressAt, settle_storage h]

private theorem settle_code_eq_iff (code : Code) (hmortal : code.isMortal = false)
    (habsent : code ≠ .absent) : l.settle.code a = code ↔ l.code a = code := by
  simp only [settle]
  split
  next hv =>
    refine ⟨fun h => absurd h.symm habsent, fun h => ?_⟩
    rw [vanishes, h, hmortal, Bool.and_false] at hv
    cases hv
  next => rfl

private theorem settle_isEmpty (h : (l.code a).isEmpty = true) :
    (l.settle.code a).isEmpty = true := by
  simp only [settle]
  split
  next => rfl
  next => exact h

end Ledger

/-- The contracts of the service outlast every transaction. -/
theorem Deployed.settle {d : Deployment} {l : Ledger} (h : Deployed d l.code) :
    Deployed d l.settle.code := by
  refine ⟨fun a => ?_, fun a => ?_, fun a => ?_, settle_isEmpty h.zero⟩
  · rw [settle_code_eq_iff .service rfl (by decide)]
    exact h.service a
  · rw [settle_code_eq_iff .proxyFactory rfl (by decide)]
    exact h.proxyFactory a
  · rw [settle_code_eq_iff .stateFactory rfl (by decide)]
    exact h.stateFactory a

section Flow

variable {d : Deployment} {env : Surroundings} {depth : Nat} {c : Context} {w w' : World}
  {send : Message → Exec Unit} {implementation : Address}

/-- A call that returns reached a contract. -/
theorem callContract_ok
    (h : c.callContract (Exec.call (handle d env depth)) target data w = .ok () w') :
    (w.ledger.code target).isEmpty = false ∧ ∃ n v, v.ledger = w.ledger ∧
      dispatch d env (Exec.call (handle d env n)) ⟨c.origin, c.self, target, data⟩ v =
        .ok () w' := by
  cases hcode : (w.ledger.code target).isEmpty with
  | true =>
    rw [callContract_of_empty hcode] at h
    cases h
  | false =>
    rw [callContract_of_code hcode] at h
    have hrun := call_eq_ok.mp h
    cases depth with
    | zero => cases hrun
    | succ n =>
      exact ⟨rfl, n, { w with log := ⟨⟨c.origin, c.self, target, data⟩, w.ledger⟩ :: w.log }, rfl,
        hrun⟩

/-- A message to `Service` is handled by `Service`. -/
theorem dispatch_of_service (h : w.ledger.code m.target = .service) :
    dispatch d env send m w = receive d send ⟨m.origin, m.sender, m.target⟩ m.data w := by
  have hcode : Exec.code m.target w = .ok .service w := by
    rw [← h]
    rfl
  rw [dispatch, bind_of_ok hcode]

private theorem dispatch_of_proxyFactory (h : w.ledger.code m.target = .proxyFactory) :
    dispatch d env send m w =
      ProxyFactory.receive send ⟨m.origin, m.sender, m.target⟩ m.data w := by
  have hcode : Exec.code m.target w = .ok .proxyFactory w := by
    rw [← h]
    rfl
  rw [dispatch, bind_of_ok hcode]

private theorem factoryReceive_ok
    (h : ProxyFactory.receive send c (.upgradeProxyAndChangeAdmin proxy implementation) w =
      .ok () w') :
    c.callContract send proxy (.upgradeAndChangeAdmin implementation) w = .ok () w' := by
  obtain ⟨_, w₁, honly, hcall⟩ := bind_eq_ok.mp h
  rw [ownable.passes honly] at hcall
  exact hcall

/-- A proxy that accepts `upgradeAndChangeAdmin` passed it on to its implementation. -/
theorem proxyReceive_escrow_ok
    (h : TransparentUpgradeableProxy.receive d env send c
      (.upgradeAndChangeAdmin implementation) w = .ok () w') :
    c.sender ≠ (w.ledger.reserved c.self).admin ∧
      delegate d env send c (w.ledger.reserved c.self).implementation
        (.upgradeAndChangeAdmin implementation) w = .ok () w' := by
  by_cases hadmin : c.sender = w.ledger.addressAt c.self adminSlot
  · rw [proxy.refuses hadmin] at h
    cases h
  · rw [proxy.delegates hadmin] at h
    exact ⟨hadmin, h⟩

/-- A proxy passes what is not its admin's on to `StateFactory` when that is its implementation. -/
theorem proxyReceive_of_stateFactory (hadmin : c.sender ≠ (w.ledger.reserved c.self).admin)
    (hcode : w.ledger.code (w.ledger.reserved c.self).implementation = .stateFactory) :
    TransparentUpgradeableProxy.receive d env send c data w = StateFactory.receive d c data w := by
  have hread : Exec.code (w.ledger.addressAt c.self implementationSlot) w =
      .ok .stateFactory w := by
    rw [← hcode]
    rfl
  rw [proxy.delegates hadmin, delegate, bind_of_ok hread]

/-- What a successful `Service.escrow` found in the proxy, and what it left. -/
structure Started (d : Deployment) (p implementation origin sender : Address) (l l' : Ledger) :
    Prop where
  admin : (l.reserved p).admin = origin
  notHeld : (l.reserved p).admin ≠ d.proxyFactory
  executor : (l.reserved p).executor = 0
  implementation_ne : implementation ≠ 0
  reserved : l'.reserved p = ⟨d.proxyFactory, d.stateFactory, implementation, d.service,
    d.proofOf l.code implementation d.stateFactory⟩
  escrows : l'.escrows = Function.update l.escrows p ⟨sender, false⟩
  code : l'.code = l.code
  destroyed : l'.destroyed = l.destroyed

/-- `Service.escrow` of a proxy that is not fooled: only `ProxyBridge` accepts
`upgradeAndChangeAdmin`. -/
theorem escrow_ok (hdep : Deployed d w.ledger.code) (hself : c.self = d.service) {p : Address}
    (hproxy : w.ledger.code p = .proxy) (hbridge : ∀ n w₁ w₂, w₁.ledger = w.ledger →
      delegate d env (Exec.call (handle d env n)) ⟨c.origin, d.proxyFactory, p⟩
        (w.ledger.reserved p).implementation (.upgradeAndChangeAdmin d.stateFactory) w₁ =
          .ok () w₂ → w.ledger.code (w.ledger.reserved p).implementation = .proxyBridge)
    (h : escrow d (Exec.call (handle d env depth)) c p implementation w = .ok () w') :
    Started d p implementation c.origin c.sender w.ledger w'.ledger := by
  simp only [escrow, onlyNotEscrow, bind_assoc, escrow_bind, require_bind] at h
  obtain ⟨-, -, h⟩ := h
  obtain ⟨_, w₁, hfactory, h⟩ := bind_eq_ok.mp h
  obtain ⟨_, w₂, hinit, hset⟩ := bind_eq_ok.mp h
  obtain ⟨-, n, v, hv, hrun⟩ := callContract_ok hfactory
  have hfactory : v.ledger.code d.proxyFactory = .proxyFactory := by
    rw [hv]
    exact (hdep.proxyFactory _).mpr rfl
  rw [dispatch_of_proxyFactory hfactory] at hrun
  obtain ⟨-, n', v', hv', hrun⟩ := callContract_ok (factoryReceive_ok hrun)
  rw [hv] at hv'
  have hproxy' : v'.ledger.code p = .proxy := by
    rw [hv']
    exact hproxy
  rw [dispatch_of_proxy hproxy'] at hrun
  obtain ⟨hadmin, hdelegate⟩ := proxyReceive_escrow_ok hrun
  dsimp only at hadmin hdelegate
  rw [hv'] at hadmin hdelegate
  have hcode := hbridge n' v' w₁ hv' hdelegate
  obtain ⟨horigin, hreserved, hcodes, hescrows, hdestroyed⟩ :
      (w.ledger.reserved p).admin = c.origin ∧
        w₁.ledger.reserved p = { w.ledger.reserved p with
          admin := d.proxyFactory
          implementation := d.stateFactory } ∧
        w₁.ledger.code = w.ledger.code ∧ w₁.ledger.escrows = w.ledger.escrows ∧
        w₁.ledger.destroyed = w.ledger.destroyed := by
    have hread : Exec.code (w.ledger.reserved p).implementation v' = .ok .proxyBridge v' := by
      rw [← hcode, ← hv']
      rfl
    rw [delegate, bind_of_ok hread] at hdelegate
    obtain ⟨-, horigin, -, hreserved⟩ := bridge_ok hdelegate
    obtain ⟨-, hcodes, hescrows, hdestroyed, -⟩ :=
      (keeps_bridgeReceive d (mayWrite_writesSlots ⟨c.origin, d.proxyFactory, p⟩ reservedSlots)
        (.upgradeAndChangeAdmin d.stateFactory)).of_ok hdelegate
    dsimp only at horigin hreserved
    rw [hv'] at horigin hreserved hcodes hescrows hdestroyed
    exact ⟨horigin, hreserved, hcodes, hescrows, hdestroyed⟩
  obtain ⟨-, n'', v'', hv'', hrun⟩ := callContract_ok hinit
  have hproxy'' : v''.ledger.code p = .proxy := by
    rw [hv'', hcodes]
    exact hproxy
  have hadmin' : c.self ≠ (v''.ledger.reserved p).admin := by
    rw [hv'', hreserved, hself]
    exact hdep.proxyFactory_ne_service.symm
  have hstate : v''.ledger.code (v''.ledger.reserved p).implementation = .stateFactory := by
    rw [hv'', hreserved, hcodes]
    exact (hdep.stateFactory _).mpr rfl
  rw [dispatch_of_proxy hproxy'',
    proxyReceive_of_stateFactory (c := ⟨c.origin, c.self, p⟩) hadmin' hstate] at hrun
  obtain ⟨hexecutor, hne, hreserved₂⟩ := initialise_ok hrun
  obtain ⟨-, hcodes₂, hescrows₂, hdestroyed₂, -⟩ :=
    (keeps_stateReceive d (mayWrite_writesSlots ⟨c.origin, c.self, p⟩ reservedSlots)
      (.initialise implementation)).of_ok hrun
  dsimp only at hexecutor hreserved₂
  rw [hv'', hreserved] at hexecutor hreserved₂
  rw [hcodes, hself] at hreserved₂
  obtain ⟨-, hfinal⟩ := modifyGet_eq_ok.mp hset
  refine ⟨horigin, fun heq => hadmin heq.symm, hexecutor, hne, ?_, ?_, ?_, ?_⟩
  · rw [hfinal]
    exact hreserved₂
  · rw [hfinal]
    dsimp only
    rw [hescrows₂, hv'', hescrows]
  · rw [hfinal]
    dsimp only
    rw [hcodes₂, hv'', hcodes]
  · rw [hfinal]
    dsimp only
    rw [hdestroyed₂, hv'', hdestroyed]

end Flow

end CloakBridge.Service
