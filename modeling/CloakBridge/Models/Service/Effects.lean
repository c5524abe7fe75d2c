import CloakBridge.Models.Service.Contracts

/-!
# What contract code can touch

Two frames. The library contracts write to a few slots of the account they run in and
to nothing else. Code of any kind only adds to the log of messages and never changes
the code of an account.
-/

namespace CloakBridge.Service

open Exec CloakBridge.Frame List

variable {w w' : World} {callee : Message → Exec Unit} {m : Message}

namespace Exec

variable {F : Frame World} {q : Prop} {text : String}

private theorem keeps_code (a : Address) : F.Keeps (Exec.code a) := fun w => F.refl w

theorem keeps_sload (a : Address) (slot : Word) : F.Keeps (Exec.sload a slot) := fun w => F.refl w

theorem keeps_escrow (a : Address) : F.Keeps (Exec.escrow a) := fun w => F.refl w

private theorem keeps_factoryOwner : F.Keeps Exec.factoryOwner := fun w => F.refl w

theorem keeps_require (q : Prop) [Decidable q] (text : String) : F.Keeps (require q text) :=
  keeps_ite (fun _ => keeps_pure _) fun _ => keeps_throw _

/-- Going on after a revert stays in the frame. -/
theorem keeps_attempt {x : Exec Unit} (h : F.Keeps x) : F.Keeps (attempt x) := by
  intro w
  have hw := h w
  unfold stateAfter at hw ⊢
  simp only [attempt]
  cases hx : x w with
  | ok _ _ | error _ _ => simpa only [hx] using hw

/-- A check passes if its condition holds. -/
theorem require_eq_ok [Decidable q] : require q text w = .ok () w' ↔ q ∧ w' = w := by
  unfold require
  split
  next hq => simp [pure_eq_ok, hq]
  next hq =>
    refine ⟨fun h => ?_, fun h => absurd h.1 hq⟩
    cases h

/-- Otherwise it reverts with its text. -/
theorem require_of_not [Decidable q] (h : ¬ q) (w : World) :
    require q text w = .error (.reason text) w := by
  rw [require, if_neg h]
  rfl

/-- A call that returns is one whose callee returns. -/
theorem call_eq_ok : call callee m w = .ok () w' ↔
      callee m { w with log := ⟨m, w.ledger⟩ :: w.log } = .ok () w' := by
  unfold call
  split
  next u w₁ h => simp [h]
  next e w₁ h => simp [h]

end Exec

variable {F : Frame World} {slot : Word} {data : Calldata}

private theorem keeps_getAddressSlot (a : Address) (slot : Word) :
    F.Keeps (getAddressSlot a slot) :=
  keeps_bind (keeps_sload a slot) fun _ => keeps_pure _

private theorem keeps_setAddressSlot {a : Address} (h : ∀ v, F.Keeps (Exec.sstore a slot v))
    (account : Address) : F.Keeps (setAddressSlot a slot account) :=
  keeps_bind (keeps_sload a slot) fun _ => h _

/-- The address in a slot of an account. -/
def Ledger.addressAt (l : Ledger) (a : Address) (slot : Word) : Address :=
  addressOf (l.storage a slot)

/-- The world after a write to a slot. -/
def World.write (w : World) (a : Address) (slot value : Word) : World :=
  { w with ledger := { w.ledger with
    storage := Function.update w.ledger.storage a
      (Function.update (w.ledger.storage a) slot value) } }

/-- An address is written to the low bits of its slot. -/
theorem setAddressSlot_run (a : Address) (slot : Word) (account : Address) (w : World) :
    setAddressSlot a slot account w =
      .ok () (w.write a slot (withAddress (w.ledger.storage a slot) account)) := rfl

/-- An address is read from its slot. -/
theorem getAddressSlot_run (a : Address) (slot : Word) (w : World) :
    getAddressSlot a slot w = .ok (w.ledger.addressAt a slot) w := rfl

/-- Only the given slots of one account are written to, and no message is made. -/
def writesSlots (a : Address) (slots : List Word) : Frame World where
  rel w w' := w'.log = w.log ∧ w'.ledger.code = w.ledger.code ∧
    w'.ledger.escrows = w.ledger.escrows ∧ w'.ledger.destroyed = w.ledger.destroyed ∧
    ∀ b slot, (b = a → slot ∉ slots) → w'.ledger.storage b slot = w.ledger.storage b slot
  refl _ := ⟨rfl, rfl, rfl, rfl, fun _ _ _ => rfl⟩
  trans h h' := ⟨h'.1.trans h.1, h'.2.1.trans h.2.1, h'.2.2.1.trans h.2.2.1,
    h'.2.2.2.1.trans h.2.2.2.1, fun b slot hb =>
      (h'.2.2.2.2 b slot hb).trans (h.2.2.2.2 b slot hb)⟩

namespace writesSlots

variable {a : Address} {slots : List Word}

private theorem keeps_sstore (h : slot ∈ slots) (value : Word) :
    (writesSlots a slots).Keeps (Exec.sstore a slot value) := by
  refine keeps_modify fun w => ⟨rfl, rfl, rfl, rfl, fun b slot' hb => ?_⟩
  dsimp only
  by_cases hba : b = a
  · subst hba
    have hne : slot' ≠ slot := fun heq => hb rfl (heq ▸ h)
    rw [Function.update_self, Function.update_of_ne hne]
  · rw [Function.update_of_ne hba]

/-- Slots that are not written keep their addresses. -/
theorem addressAt_eq (h : (writesSlots a slots).rel w w') {b : Address} (hslot : slot ∉ slots) :
    w'.ledger.addressAt b slot = w.ledger.addressAt b slot := by
  rw [Ledger.addressAt, h.2.2.2.2 b slot fun _ => hslot, Ledger.addressAt]

end writesSlots

/-- The slots that the contracts of the service use in a proxy. -/
def reservedSlots : List Word :=
  [implementationSlot, adminSlot, rollbackSlot, executorSlot, proofSlot]

section Library

variable {F : Frame World} (d : Deployment) (c : Context)

/-- The slots may be written to in the account that runs the code. -/
def MayWrite (F : Frame World) (c : Context) (slots : List Word) : Prop :=
  ∀ slot ∈ slots, ∀ value, F.Keeps (Exec.sstore c.self slot value)

variable {slots : List Word}

/-- The slots of the frame may be written. -/
theorem mayWrite_writesSlots (slots : List Word) : MayWrite (writesSlots c.self slots) c slots :=
  fun _ hslot value => writesSlots.keeps_sstore hslot value

variable {c}

private theorem MayWrite.mono {slots' : List Word} (h : MayWrite F c slots')
    (hsub : slots ⊆ slots') :
    MayWrite F c slots :=
  fun slot hslot => h slot (hsub hslot)

private theorem MayWrite.setAddressSlot (h : MayWrite F c slots) (hslot : slot ∈ slots)
    (account : Address) :
    F.Keeps (setAddressSlot c.self slot account) :=
  keeps_setAddressSlot (h slot hslot) account

private theorem keeps_updateProof (h : MayWrite F c [proofSlot]) (account : Address) :
    F.Keeps (StateFactory.updateProof d c.self account) := by
  apply keeps_bind
  · apply keeps_bind (keeps_getAddressSlot _ _)
    intro state
    apply keeps_bind (keeps_code _)
    intro code
    exact keeps_bind (keeps_require _ _) fun _ => keeps_pure _
  · intro proof
    exact keeps_bind (keeps_require _ _) fun _ => h proofSlot (by simp) proof

private theorem keeps_setRollBack (h : MayWrite F c [rollbackSlot]) (account : Address) :
    F.Keeps (State.setRollBack c.self account) :=
  keeps_bind (keeps_require _ _) fun _ => h.setAddressSlot (by simp) _

private theorem keeps_setExecutor (h : MayWrite F c [executorSlot]) (account : Address) :
    F.Keeps (State.setExecutor c.self account) :=
  keeps_bind (keeps_require _ _) fun _ => h.setAddressSlot (by simp) _

private theorem keeps_onlyExecutor : F.Keeps (State.onlyExecutor c) :=
  keeps_bind (keeps_getAddressSlot _ _) fun _ => keeps_require _ _

private theorem keeps_onlyInitialized : F.Keeps (State.onlyInitialized c) :=
  keeps_bind (keeps_getAddressSlot _ _) fun _ => keeps_require _ _

/-- `upgrade` writes the rollback and the proof. -/
theorem keeps_stateUpgrade (h : MayWrite F c [rollbackSlot, proofSlot]) (logic : Address) :
    F.Keeps (StateFactory.upgrade d c logic) := by
  apply keeps_bind keeps_onlyExecutor
  intro _
  apply keeps_bind (keeps_getAddressSlot _ _)
  intro rollback
  apply keeps_bind (keeps_require _ _)
  intro _
  apply keeps_bind (keeps_setRollBack (h.mono (by simp)) _)
  intro _
  exact keeps_updateProof d (h.mono (by simp)) _

private theorem keeps_stateInitialise (h : MayWrite F c [rollbackSlot, executorSlot, proofSlot])
    (logic : Address) : F.Keeps (StateFactory.initialise d c logic) := by
  apply keeps_bind keeps_onlyInitialized
  intro _
  apply keeps_bind (keeps_getAddressSlot _ _)
  intro rollback
  apply keeps_bind (keeps_require _ _)
  intro _
  apply keeps_bind (keeps_setRollBack (h.mono (by simp)) _)
  intro _
  apply keeps_bind (keeps_setExecutor (h.mono (by simp)) _)
  intro _
  exact keeps_updateProof d (h.mono (by simp)) _

private theorem keeps_setImplementation (h : MayWrite F c [implementationSlot])
    (account : Address) :
    F.Keeps (EIP1967.setImplementation c.self account) := by
  apply keeps_bind (keeps_code _)
  intro code
  exact keeps_bind (keeps_require _ _) fun _ => h.setAddressSlot (by simp) _

private theorem keeps_changeAdmin (h : MayWrite F c [adminSlot]) (account : Address) :
    F.Keeps (EIP1967.changeAdmin c.self account) :=
  keeps_bind (keeps_require _ _) fun _ => h.setAddressSlot (by simp) _

private theorem keeps_stateCancel (h : MayWrite F c reservedSlots) (master : Address) :
    F.Keeps (StateFactory.cancel c master) := by
  apply keeps_bind keeps_onlyExecutor
  intro _
  apply keeps_bind (keeps_getAddressSlot _ _)
  intro logic
  apply keeps_bind (keeps_require _ _)
  intro _
  apply keeps_bind (keeps_setImplementation (h.mono (by simp [reservedSlots])) _)
  intro _
  apply keeps_bind (keeps_changeAdmin (h.mono (by simp [reservedSlots])) _)
  intro _
  apply keeps_bind (h proofSlot (by simp [reservedSlots]) 0)
  intro _
  apply keeps_bind (h.setAddressSlot (by simp [reservedSlots]) 0)
  intro _
  exact h.setAddressSlot (by simp [reservedSlots]) 0

/-- `StateFactory` writes to the reserved slots of the account it runs in. -/
theorem keeps_stateReceive (h : MayWrite F c reservedSlots) (data : Calldata) :
    F.Keeps (StateFactory.receive d c data) := by
  unfold StateFactory.receive
  split
  · exact keeps_pure _
  · exact keeps_stateInitialise d (h.mono (by simp [reservedSlots])) _
  · exact keeps_stateUpgrade d (h.mono (by simp [reservedSlots])) _
  · exact keeps_stateCancel h _
  · exact keeps_throw _

/-- `ProxyBridge` writes to the reserved slots of the account it runs in. -/
theorem keeps_bridgeReceive (h : MayWrite F c reservedSlots) (data : Calldata) :
    F.Keeps (ProxyBridge.receive d c data) := by
  unfold ProxyBridge.receive
  split
  · apply keeps_bind (keeps_require _ _)
    intro _
    apply keeps_bind (keeps_getAddressSlot _ _)
    intro admin
    apply keeps_bind (keeps_require _ _)
    intro _
    apply keeps_bind (keeps_changeAdmin (h.mono (by simp [reservedSlots])) _)
    intro _
    exact keeps_setImplementation (h.mono (by simp [reservedSlots])) _
  · exact keeps_throw _

end Library

section Calls

variable {F : Frame World} {d : Deployment} {env : Surroundings} {send : Message → Exec Unit}
  {c : Context}

/-- A call stays in the frame if its message does. -/
theorem keeps_callContract {target : Address}
    (h : F.Keeps (send ⟨c.origin, c.self, target, data⟩)) :
    F.Keeps (c.callContract send target data) := by
  apply keeps_bind (keeps_code _)
  intro code
  exact keeps_ite (fun _ => keeps_throw _) fun _ => h

/-- The frame is kept by everything that code outside the system does as an account. -/
structure ActsAs (F : Frame World) (send : Message → Exec Unit) (c : Context) : Prop where
  stores : ∀ slot value, F.Keeps (Exec.sstore c.self slot value)
  destroys : F.Keeps (Exec.selfdestruct c.self)
  sends : ∀ target data, F.Keeps (send ⟨c.origin, c.self, target, data⟩)

private theorem keeps_run (h : ActsAs F send c) (f : Foreign) : F.Keeps (f.run send c) := by
  induction f with
  | stop => exact keeps_pure _
  | revert => exact keeps_throw _
  | selfdestruct => exact h.destroys
  | sload slot next ih =>
    apply keeps_bind (keeps_sload _ _)
    intro value
    exact ih value
  | sstore slot value next ih =>
    apply keeps_bind (h.stores slot value)
    intro _
    exact ih
  | call target data next ih =>
    apply keeps_bind (keeps_attempt (h.sends target data))
    intro returned
    exact ih returned

/-- Foreign code stays in the frame if it may act. -/
theorem keeps_runForeign (h : ActsAs F send c) (logic : Address) (data : Calldata) :
    F.Keeps (runForeign env send c logic data) := by
  apply keeps_bind keeps_get
  intro w
  exact keeps_run h _

private theorem keeps_delegate (h : ActsAs F send c) (logic : Address) (data : Calldata) :
    F.Keeps (delegate d env send c logic data) := by
  apply keeps_bind (keeps_code _)
  intro code
  split
  · exact keeps_pure _
  · exact keeps_pure _
  · exact keeps_bridgeReceive d (fun slot _ => h.stores slot) data
  · exact keeps_stateReceive d (fun slot _ => h.stores slot) data
  all_goals exact keeps_runForeign h logic data

end Calls

/-! ### OpenZeppelin

The repository imports these contracts and does not contain them. What is used of them
is stated on its own, and met by the definitions of the model.
-/

def Calldata.isUpgradeToAndCall : Calldata → Bool
  | .upgradeToAndCall _ _ => true
  | _ => false

/-- How a `TransparentUpgradeableProxy` handles a message. -/
structure OpenZeppelin.Proxy (d : Deployment) (env : Surroundings) (send : Message → Exec Unit)
    (proxy : Context → Calldata → Exec Unit) : Prop where
  /-- Everybody but the admin is delegated to the implementation. -/
  delegates : ∀ {c : Context} {data : Calldata} {w : World},
    c.sender ≠ w.ledger.addressAt c.self adminSlot →
      proxy c data w =
        delegate d env send c (w.ledger.addressAt c.self implementationSlot) data w
  /-- The admin cannot reach the implementation. -/
  refuses : ∀ {c : Context} {newImplementation : Address} {w : World},
    c.sender = w.ledger.addressAt c.self adminSlot →
      proxy c (.upgradeAndChangeAdmin newImplementation) w =
        .error (.reason "TransparentUpgradeableProxy: admin cannot fallback to proxy target") w
  /-- The admin sets the implementation to a contract. -/
  upgrades : ∀ {c : Context} {newImplementation : Address} {w w' : World},
    c.sender = w.ledger.addressAt c.self adminSlot →
      proxy c (.upgradeTo newImplementation) w = .ok () w' →
        (w.ledger.code newImplementation).isEmpty = false ∧
          setAddressSlot c.self implementationSlot newImplementation w = .ok () w'
  /-- Unless it upgrades and calls, the admin changes two slots at most. -/
  administers : ∀ {c : Context} {data : Calldata} {w : World},
    c.sender = w.ledger.addressAt c.self adminSlot → data.isUpgradeToAndCall = false →
      (writesSlots c.self [adminSlot, implementationSlot]).rel w (stateAfter (proxy c data) w)
  /-- In any case the proxy acts as its account. -/
  acts : ∀ {F : Frame World} {c : Context}, ActsAs F send c → ∀ data, F.Keeps (proxy c data)

/-- `onlyOwner` of `Ownable` lets pass or reverts. -/
structure OpenZeppelin.Ownable (onlyOwner : Context → Exec Unit) : Prop where
  keeps : ∀ {F : Frame World} {c : Context}, F.Keeps (onlyOwner c)
  passes : ∀ {c : Context} {w w' : World}, onlyOwner c w = .ok () w' → w' = w

/-- `functionCall` of `Address` sends a message to a contract. -/
structure OpenZeppelin.FunctionCall (send : Message → Exec Unit)
    (functionCall : Context → Address → Calldata → Exec Unit) : Prop where
  calls : ∀ {c : Context} {target : Address} {data : Calldata} {w : World},
    (w.ledger.code target).isEmpty = false →
      functionCall c target data w = send ⟨c.origin, c.self, target, data⟩ w
  keeps : ∀ {F : Frame World} {c : Context} {target : Address} {data : Calldata},
    F.Keeps (send ⟨c.origin, c.self, target, data⟩) → F.Keeps (functionCall c target data)

section OpenZeppelin

variable {F : Frame World} {d : Deployment} {env : Surroundings} {send : Message → Exec Unit}
  {c : Context} {w : World}

private theorem keeps_setImplementationSlot (h : MayWrite F c [adminSlot, implementationSlot])
    (a : Address) : F.Keeps (TransparentUpgradeableProxy.upgradeTo c.self a) := by
  apply keeps_bind (keeps_code _)
  intro code
  exact keeps_bind (keeps_require _ _) fun _ => h.setAddressSlot (by simp) _

private theorem keeps_receiveAdmin (h : MayWrite F c [adminSlot, implementationSlot])
    (hcall : data.isUpgradeToAndCall = true → ActsAs F send c) :
    F.Keeps (TransparentUpgradeableProxy.receiveAdmin d env send c data) := by
  unfold TransparentUpgradeableProxy.receiveAdmin
  split
  · exact keeps_pure _
  · exact keeps_pure _
  · exact keeps_bind (keeps_require _ _) fun _ => h.setAddressSlot (by simp) _
  · exact keeps_setImplementationSlot h _
  · exact keeps_bind (keeps_setImplementationSlot h _) fun _ =>
      keeps_delegate (hcall rfl) _ _
  · exact keeps_throw _

private theorem proxyReceive_of_ne (h : c.sender ≠ w.ledger.addressAt c.self adminSlot) :
    TransparentUpgradeableProxy.receive d env send c data w =
      delegate d env send c (w.ledger.addressAt c.self implementationSlot) data w := by
  rw [TransparentUpgradeableProxy.receive, bind_of_ok (getAddressSlot_run _ _ _), if_neg h,
    bind_of_ok (getAddressSlot_run _ _ _)]

private theorem proxyReceive_of_eq (h : c.sender = w.ledger.addressAt c.self adminSlot) :
    TransparentUpgradeableProxy.receive d env send c data w =
      TransparentUpgradeableProxy.receiveAdmin d env send c data w := by
  rw [TransparentUpgradeableProxy.receive, bind_of_ok (getAddressSlot_run _ _ _), if_pos h]

namespace OpenZeppelin

/-- The proxy of the model is transparent. -/
theorem proxy : Proxy d env send (TransparentUpgradeableProxy.receive d env send) where
  delegates h := proxyReceive_of_ne h
  refuses h := proxyReceive_of_eq h
  upgrades {c a w w'} h hrun := by
    rw [proxyReceive_of_eq h] at hrun
    obtain ⟨code, w₁, hcode, hrest⟩ := bind_eq_ok.mp hrun
    obtain ⟨_, w₂, hrequire, hset⟩ := bind_eq_ok.mp hrest
    obtain ⟨rfl, rfl⟩ := modifyGet_eq_ok.mp hcode
    obtain ⟨hlive, rfl⟩ := require_eq_ok.mp hrequire
    rw [Bool.not_eq_true'] at hlive
    exact ⟨hlive, hset⟩
  administers {c data w} h hdata := by
    rw [stateAfter_congr (proxyReceive_of_eq h)]
    refine keeps_receiveAdmin (mayWrite_writesSlots c _) (fun hcall => ?_) w
    rw [hdata] at hcall
    cases hcall
  acts {F c} h data := by
    apply keeps_bind (keeps_getAddressSlot _ _)
    intro admin
    apply keeps_ite
    · exact fun _ => keeps_receiveAdmin (fun slot _ => h.stores slot) fun _ => h
    · intro _
      apply keeps_bind (keeps_getAddressSlot _ _)
      intro implementation
      exact keeps_delegate h _ _

/-- `onlyOwner` is as OpenZeppelin specifies it. -/
theorem ownable : Ownable ProxyFactory.onlyOwner where
  keeps := keeps_bind keeps_factoryOwner fun _ => keeps_require _ _
  passes h := by
    obtain ⟨owner, w₁, howner, hrequire⟩ := bind_eq_ok.mp h
    rw [(require_eq_ok.mp hrequire).2]
    exact (modifyGet_eq_ok.mp howner).2

/-- `functionCall` is as OpenZeppelin specifies it. -/
theorem functionCall : FunctionCall send fun c => c.functionCall send where
  calls {c target data w} h := by
    have hcode : Exec.code target w = .ok (w.ledger.code target) w := rfl
    have hrequire : Exec.require (!(w.ledger.code target).isEmpty) "Address: call to non-contract"
        w = .ok () w := require_eq_ok.mpr ⟨by simp [h], rfl⟩
    rw [Context.functionCall, bind_of_ok hcode, bind_of_ok hrequire]
  keeps h := by
    apply keeps_bind (keeps_code _)
    intro code
    exact keeps_bind (keeps_require _ _) fun _ => h

end OpenZeppelin

end OpenZeppelin

section Calls

variable {F : Frame World} {d : Deployment} {env : Surroundings} {send : Message → Exec Unit}
  {c : Context}

/-- `ProxyFactory` stays in the frame if its effects do. -/
theorem keeps_factoryReceive (howner : ∀ owner, F.Keeps (setFactoryOwner owner))
    (hsend : ∀ target implementation,
      F.Keeps (send ⟨c.origin, c.self, target, .upgradeAndChangeAdmin implementation⟩))
    (data : Calldata) : F.Keeps (ProxyFactory.receive send c data) := by
  have honly : F.Keeps (ProxyFactory.onlyOwner c) := OpenZeppelin.ownable.keeps
  unfold ProxyFactory.receive
  split
  · exact keeps_bind honly fun _ => keeps_callContract (hsend _ _)
  · apply keeps_bind honly
    intro _
    exact keeps_bind (keeps_require _ _) fun _ => howner _
  · exact keeps_bind honly fun _ => howner _
  · exact keeps_throw _

theorem keeps_onlyEscrow {proxy : Address} : F.Keeps (onlyEscrow c proxy) :=
  keeps_bind (keeps_escrow _) fun _ => keeps_require _ _

theorem keeps_onlyNotEnhanced {proxy : Address} : F.Keeps (onlyNotEnhanced proxy) :=
  keeps_bind (keeps_escrow _) fun _ => keeps_require _ _

section Proxy

variable {proxy : Address} (hsend : ∀ data, F.Keeps (send ⟨c.origin, c.self, proxy, data⟩))

include hsend

/-- `escrow` stays in the frame if its effects do. -/
theorem keeps_escrowProxy {implementation : Address}
    (hfactory : F.Keeps (send ⟨c.origin, c.self, d.proxyFactory,
      .upgradeProxyAndChangeAdmin proxy d.stateFactory⟩))
    (hset : F.Keeps (setEscrow proxy ⟨c.sender, false⟩)) :
    F.Keeps (escrow d send c proxy implementation) := by
  apply keeps_bind
  · exact keeps_bind (keeps_escrow _) fun _ => keeps_require _ _
  · intro _
    apply keeps_bind (keeps_require _ _)
    intro _
    apply keeps_bind (keeps_callContract hfactory)
    intro _
    exact keeps_bind (keeps_callContract (hsend _)) fun _ => hset

/-- `upgrade` stays in the frame. -/
theorem keeps_upgrade {logic : Address} : F.Keeps (upgrade send c proxy logic) :=
  keeps_bind keeps_onlyEscrow fun _ => keeps_callContract (hsend _)

/-- `updateState` stays in the frame. -/
theorem keeps_updateState : F.Keeps (updateState send c proxy data) := by
  apply keeps_bind (keeps_escrow _)
  intro e
  exact keeps_bind (keeps_require _ _) fun _ => OpenZeppelin.functionCall.keeps (hsend _)

variable (hdelete : F.Keeps (deleteEscrow proxy))

include hdelete

/-- `cancel` stays in the frame. -/
theorem keeps_cancel : F.Keeps (cancel send c proxy) := by
  apply keeps_bind keeps_onlyEscrow
  intro _
  apply keeps_bind keeps_onlyNotEnhanced
  intro _
  exact keeps_bind (keeps_callContract (hsend _)) fun _ => hdelete

/-- A round that cancels stays in the frame. -/
theorem keeps_updateStateThenCancel : F.Keeps (updateStateThenCancel send c proxy data) := by
  apply keeps_bind (keeps_updateState hsend)
  intro _
  apply keeps_bind (keeps_escrow _)
  intro e
  exact keeps_bind (keeps_callContract (hsend _)) fun _ => hdelete

end Proxy

/-- A counted loop stays in the frame if its rounds do. -/
theorem keeps_forEach {f : Address → Calldata → Exec Unit} {items : List (Address × Calldata)}
    (h : ∀ x ∈ items, F.Keeps (f x.1 x.2)) (i : Nat) : F.Keeps (forEach f i items) := by
  induction items generalizing i with
  | nil => exact keeps_pure _
  | cons x items ih =>
    apply keeps_bind (h x mem_cons_self)
    intro _
    apply keeps_ite
    · intro _
      exact keeps_throw _
    · intro _
      exact ih (fun y hy => h y (mem_cons_of_mem _ hy)) (i + 1)

end Calls

/-- The log only gets longer, and codes stay. -/
def grows : Frame World where
  rel w w' := w.log <:+ w'.log ∧ w'.ledger.code = w.ledger.code
  refl _ := ⟨suffix_refl _, rfl⟩
  trans h h' := ⟨h.1.trans h'.1, h'.2.trans h.2⟩

namespace grows

variable {send : Message → Exec Unit}

/-- A store leaves the codes. -/
theorem keeps_sstore (a : Address) (slot value : Word) : grows.Keeps (Exec.sstore a slot value) :=
  keeps_modify fun _ => ⟨suffix_refl _, rfl⟩

/-- Setting an entry leaves the codes. -/
theorem keeps_setEscrow (a : Address) (e : Escrow) : grows.Keeps (setEscrow a e) :=
  keeps_modify fun _ => ⟨suffix_refl _, rfl⟩

/-- Setting the owner leaves the codes. -/
theorem keeps_setFactoryOwner (owner : Address) : grows.Keeps (setFactoryOwner owner) :=
  keeps_modify fun _ => ⟨suffix_refl _, rfl⟩

/-- Codes stay until the transaction ends. -/
theorem keeps_selfdestruct (a : Address) : grows.Keeps (Exec.selfdestruct a) :=
  keeps_modify fun _ => ⟨suffix_refl _, rfl⟩

/-- Foreign code leaves the codes. -/
theorem actsAs (h : ∀ m, grows.Keeps (send m)) (c : Context) : ActsAs grows send c :=
  ⟨keeps_sstore _, keeps_selfdestruct _, fun _ _ => h _⟩

/-- A call adds to the log. -/
theorem keeps_call (h : grows.Keeps (callee m)) : grows.Keeps (Exec.call callee m) := by
  intro w
  have hw := h { w with log := ⟨m, w.ledger⟩ :: w.log }
  unfold stateAfter at hw ⊢
  simp only [Exec.call]
  cases hx : callee m { w with log := ⟨m, w.ledger⟩ :: w.log } with
  | ok u w' =>
    rw [hx] at hw
    exact ⟨(suffix_cons _ _).trans hw.1, hw.2⟩
  | error e w' =>
    rw [hx] at hw
    exact ⟨(suffix_cons _ _).trans hw.1, rfl⟩

variable (d : Deployment) (env : Surroundings)

/-- `Service` leaves the codes. -/
theorem keeps_receive (hsend : ∀ m, grows.Keeps (send m)) (c : Context) (data : Calldata) :
    grows.Keeps (receive d send c data) := by
  unfold receive
  split
  · exact keeps_escrowProxy (fun _ => hsend _) (hsend _) (keeps_setEscrow _ _)
  · apply keeps_bind keeps_onlyEscrow
    intro _
    apply keeps_bind keeps_onlyNotEnhanced
    intro _
    exact keeps_bind (keeps_escrow _) fun _ => keeps_setEscrow _ _
  · exact keeps_upgrade fun _ => hsend _
  · exact keeps_cancel (fun _ => hsend _) (keeps_setEscrow _ _)
  · exact keeps_updateState fun _ => hsend _
  · apply keeps_bind (keeps_require _ _)
    intro _
    exact keeps_forEach (fun x _ => keeps_updateState fun _ => hsend _) 0
  · apply keeps_bind (keeps_require _ _)
    intro _
    exact keeps_forEach
      (fun x _ => keeps_updateStateThenCancel (fun _ => hsend _) (keeps_setEscrow _ _)) 0
  · exact keeps_throw _

/-- Whatever code a message reaches, it leaves the codes. -/
theorem keeps_dispatch (hsend : ∀ m, grows.Keeps (send m)) (m : Message) :
    grows.Keeps (dispatch d env send m) := by
  have hacts := actsAs hsend ⟨m.origin, m.sender, m.target⟩
  apply keeps_bind (keeps_code _)
  intro code
  split
  · exact keeps_pure _
  · exact keeps_pure _
  · exact keeps_receive d hsend _ _
  · exact keeps_factoryReceive keeps_setFactoryOwner (fun _ _ => hsend _) _
  · exact keeps_bridgeReceive d (fun slot _ => hacts.stores slot) _
  · exact keeps_stateReceive d (fun slot _ => hacts.stores slot) _
  · exact OpenZeppelin.proxy.acts hacts _
  · exact keeps_runForeign hacts _ _

/-- Handling a message adds to the log, whatever code it reaches. -/
theorem keeps_handle (depth : Nat) (m : Message) : grows.Keeps (handle d env depth m) := by
  induction depth generalizing m with
  | zero => exact keeps_throw _
  | succ depth ih => exact keeps_dispatch d env (fun m' => keeps_call (ih m')) m

end grows

end CloakBridge.Service
