import CloakBridge.Core.Run
import CloakBridge.Models.Service.EscrowFlow

/-!
# Who controls an escrowed proxy

While a proxy is escrowed, its admin is `ProxyFactory`, its implementation `StateFactory`
and its executor `Service`, which forwards any calldata to any escrowed proxy for anybody.
As long as nobody uses this to forward `cancel` or `upgrade`, only the master can change
the slots. `Guards` relates the worlds before and after any code that runs inside a
transaction, so that contracts may call back in the middle of a call.
-/

namespace CloakBridge.Service

open Exec Function OpenZeppelin CloakBridge.Frame

/-- The calldata that a message to `Service` makes it forward to a proxy. -/
def Calldata.forwards (p : Address) : Calldata → List Calldata
  | .updateProxy proxy data => if proxy = p then [data] else []
  | .updateProxies proxies data | .updateStateAndCancel proxies data =>
    ((proxies.zip data).filter fun x => x.1 = p).map Prod.snd
  | _ => []

/-- A message to `Service` asks to escrow the proxy. -/
def Calldata.escrows (p : Address) : Calldata → Bool
  | .escrow proxy _ => proxy = p
  | _ => false

/-- A message to `Service` asks to update the proxy and end its escrow. -/
def Calldata.releases (p : Address) : Calldata → Bool
  | .updateStateAndCancel proxies data => (proxies.zip data).any fun x => x.1 = p
  | _ => false

def Calldata.isCancel : Calldata → Bool
  | .cancel _ => true
  | _ => false

def Calldata.isUpgrade : Calldata → Bool
  | .upgrade _ => true
  | _ => false

/-- A message to `Service` makes it forward calldata. -/
def Calldata.updates : Calldata → Bool
  | .updateProxy _ _ | .updateProxies _ _ | .updateStateAndCancel _ _ => true
  | _ => false

def Calldata.isUpgradeTo (newImplementation : Address) : Calldata → Bool
  | .upgradeTo a => a = newImplementation
  | _ => false

/-- The implementation of the proxy is a contract of the service. -/
def InHouse (p : Address) (l : Ledger) : Prop :=
  l.code (l.addressAt p implementationSlot) = .proxyBridge ∨
    l.code (l.addressAt p implementationSlot) = .stateFactory

/-- The message does not forward `cancel` to the proxy. It escrows it only if it is a proxy whose
implementation is a contract of the service. -/
def Sealed (d : Deployment) (p : Address) (e : Entry) : Prop :=
  e.message.target = d.service →
    (∀ data ∈ e.message.data.forwards p, data.isCancel = false) ∧
    (e.message.data.escrows p = true → e.before.code p = .proxy ∧ InHouse p e.before)

/-- The message escrows the proxy only on behalf of an externally owned account. -/
def Direct (d : Deployment) (p : Address) (e : Entry) : Prop :=
  e.message.target = d.service → e.message.data.escrows p = true →
    e.message.sender = e.message.origin

/-- The message does not make a logic contract outside the service run in the proxy. -/
def Closed (p : Address) (e : Entry) : Prop :=
  e.message.target = p →
    (e.message.sender = e.before.addressAt p adminSlot →
      e.message.data.isUpgradeToAndCall = false) ∧
    (e.message.sender ≠ e.before.addressAt p adminSlot → InHouse p e.before)

/-- The message does not come from `m`, does not forward `upgrade` to the proxy and does not end its
escrow on the way. -/
def Quiet (d : Deployment) (p m : Address) (e : Entry) : Prop :=
  e.message.target = d.service →
    e.message.sender ≠ m ∧ (∀ data ∈ e.message.data.forwards p, data.isUpgrade = false) ∧
    e.message.data.releases p = false

/-- The message does not end the escrow of the proxy on the way. -/
def Retains (d : Deployment) (p : Address) (e : Entry) : Prop :=
  e.message.target = d.service → e.message.data.releases p = false

/-- The message does not make `Service` forward anything, and if it comes from the admin of the
proxy it asks for `ProxyBridge` as the implementation. What `ProxyFactory` sends is not up to
anybody. -/
def Ordinary (d : Deployment) (p : Address) (e : Entry) : Prop :=
  (e.message.target = d.service → e.message.data.updates = false) ∧
    (e.message.target = p → e.message.sender = e.before.addressAt p adminSlot →
      e.message.sender ≠ d.proxyFactory → e.message.data.isUpgradeTo d.proxyBridge = true)

instance (d : Deployment) (p : Address) (e : Entry) : Decidable (Retains d p e) :=
  inferInstanceAs (Decidable (_ → _))

instance (d : Deployment) (p : Address) (e : Entry) : Decidable (Ordinary d p e) :=
  inferInstanceAs (Decidable ((_ → _) ∧ (_ → _ → _ → _)))

instance (p : Address) (l : Ledger) : Decidable (InHouse p l) :=
  inferInstanceAs (Decidable (_ ∨ _))

instance (d : Deployment) (p : Address) (e : Entry) : Decidable (Sealed d p e) :=
  inferInstanceAs (Decidable (_ → (∀ data ∈ e.message.data.forwards p, _) ∧ (_ → _ ∧ _)))

instance (d : Deployment) (p : Address) (e : Entry) : Decidable (Direct d p e) :=
  inferInstanceAs (Decidable (_ → _ → _))

instance (p : Address) (e : Entry) : Decidable (Closed p e) :=
  inferInstanceAs (Decidable (_ → (_ → _) ∧ (_ → _)))

instance (d : Deployment) (p m : Address) (e : Entry) : Decidable (Quiet d p m e) :=
  inferInstanceAs (Decidable (_ → _ ∧ (∀ data ∈ e.message.data.forwards p, _) ∧ _))

/-- All messages of a transaction meet a condition. -/
def Action.All (d : Deployment) (ok : Entry → Prop) (l : Ledger) : Action → Prop
  | .transact t => ∀ e ∈ (t.execute d l).log, ok e
  | .create _ _ _ => True

instance (d : Deployment) (ok : Entry → Prop) [DecidablePred ok] (l : Ledger) :
    (a : Action) → Decidable (a.All d ok l)
  | .transact t => inferInstanceAs (Decidable (∀ e ∈ (t.execute d l).log, ok e))
  | .create _ _ _ => isTrue trivial

variable {d : Deployment} {l : Ledger}

/-- What all messages meet may be weakened. -/
theorem Action.All.imp {ok ok' : Entry → Prop} {a : Action} (h : a.All d ok l)
    (himp : ∀ e, ok e → ok' e) : a.All d ok' l := by
  cases a with
  | transact t => exact fun e he => himp e (h e he)
  | create account code storage => trivial

/-- The contract that a slot of the proxy names in the end is not destroyed on the way. -/
def Action.Leaves (d : Deployment) (p : Address) (slot : Word) (l : Ledger) : Action → Prop
  | .transact t =>
    (t.execute d l).ledger.addressAt p slot ∉ (t.execute d l).ledger.destroyed
  | .create _ _ _ => True

instance (d : Deployment) (p : Address) (slot : Word) (l : Ledger) :
    (a : Action) → Decidable (a.Leaves d p slot l)
  | .transact _ => inferInstanceAs (Decidable (_ ∉ _))
  | .create _ _ _ => isTrue trivial

/-- All messages are sealed, and if the proxy is escrowed on behalf of a contract, no logic contract
outside the service runs in it in the same transaction. -/
def Action.Sealed (d : Deployment) (p : Address) (l : Ledger) (a : Action) : Prop :=
  a.All d (Service.Sealed d p) l ∧ (a.All d (Direct d p) l ∨ a.All d (Closed p) l)

instance (d : Deployment) (p : Address) (l : Ledger) (a : Action) : Decidable (a.Sealed d p l) :=
  inferInstanceAs (Decidable (_ ∧ (_ ∨ _)))

/-- The proxy is in the escrow table. -/
def Escrowed (p : Address) (l : Ledger) : Prop := (l.escrows p).master ≠ 0

/-- The service has the proxy in its hands. -/
structure Held (d : Deployment) (p : Address) (l : Ledger) : Prop where
  admin : l.addressAt p adminSlot = d.proxyFactory
  implementation : l.addressAt p implementationSlot = d.stateFactory
  executor : l.addressAt p executorSlot = d.service

/-- An escrowed account is a proxy in the hands of the service, and has not destroyed itself. -/
def Controlled (d : Deployment) (p : Address) (l : Ledger) : Prop :=
  Escrowed p l → l.code p = .proxy ∧ Held d p l ∧ p ∉ l.destroyed

/-- The reserved slots of the proxy are the same. -/
def SameReserved (p : Address) (l l' : Ledger) : Prop :=
  ∀ slot ∈ reservedSlots, l'.storage p slot = l.storage p slot

namespace SameReserved

variable {p : Address} {l l' : Ledger}

theorem refl : SameReserved p l l := fun _ _ => rfl

theorem trans {l'' : Ledger} (h : SameReserved p l l') (h' : SameReserved p l' l'') :
    SameReserved p l l'' := by
  intro slot hslot
  rw [h' slot hslot, h slot hslot]

private theorem addressAt_eq (h : SameReserved p l l') {slot : Word}
    (hslot : slot ∈ reservedSlots) :
    l'.addressAt p slot = l.addressAt p slot := by
  rw [Ledger.addressAt, h slot hslot, Ledger.addressAt]

/-- The reserved slots have the same contents. -/
theorem reserved_eq (h : SameReserved p l l') : l'.reserved p = l.reserved p := by
  have hproof : l'.storage p proofSlot = l.storage p proofSlot := h _ (by simp [reservedSlots])
  have hslots : ∀ slot ∈ reservedSlots, l'.addressAt p slot = l.addressAt p slot :=
    fun _ hslot => h.addressAt_eq hslot
  simp only [reservedSlots, List.forall_mem_cons] at hslots
  obtain ⟨himplementation, hadmin, hrollback, hexecutor, -⟩ := hslots
  rw [Ledger.reserved, hadmin, himplementation, hrollback, hexecutor, hproof, Ledger.reserved]

/-- A held proxy stays held. -/
theorem held (h : SameReserved p l l') (hheld : Held d p l) : Held d p l' := by
  refine ⟨?_, ?_, ?_⟩
  · rw [h.addressAt_eq (by simp [reservedSlots])]
    exact hheld.admin
  · rw [h.addressAt_eq (by simp [reservedSlots])]
    exact hheld.implementation
  · rw [h.addressAt_eq (by simp [reservedSlots])]
    exact hheld.executor

end SameReserved

namespace EscrowControl

/-- What every message meets in a transaction: either all escrows of the proxy are direct, or the
proxy is closed. -/
structure Admitted (d : Deployment) (p : Address) (direct : Bool) (e : Entry) : Prop where
  isSealed : Sealed d p e
  isDirect : direct = true → Direct d p e
  isClosed : direct = false → Closed p e

/-- What holds inside such a transaction. A closed proxy does not destroy itself. -/
structure Safe (d : Deployment) (p : Address) (direct : Bool) (l : Ledger) : Prop where
  controlled : Controlled d p l
  intact : direct = false → l.code p = .proxy → p ∉ l.destroyed

/-- What code leaves of the proxy: it is safe, it is not newly escrowed where escrows are direct, an
enhanced escrow is retained, and a master about whom all messages are quiet stays master of the same
slots. -/
structure Outcome (d : Deployment) (p : Address) (direct : Bool) (w w' : World) : Prop where
  safe : Safe d p direct w'.ledger
  unescrowed : direct = true → ¬ Escrowed p w.ledger → ¬ Escrowed p w'.ledger
  retained : Escrowed p w.ledger → (w.ledger.escrows p).enhanced = true →
    (∀ e ∈ w'.log, Retains d p e) → Escrowed p w'.ledger ∧ (w'.ledger.escrows p).enhanced = true
  untouched : ∀ m, m ≠ 0 → (w.ledger.escrows p).master = m → (∀ e ∈ w'.log, Quiet d p m e) →
    (w'.ledger.escrows p).master = m ∧ SameReserved p w.ledger w'.ledger

/-- Code that runs after `e₀` was logged leaves the outcome, if all messages are admitted. -/
structure Guards (d : Deployment) (code : Address → Code) (p : Address) (direct : Bool)
    (e₀ : Option Entry) (w w' : World) : Prop where
  grow : grows.rel w w'
  outcome : w.ledger.code = code → (∀ e ∈ e₀, e ∈ w.log) →
    (∀ e ∈ w'.log, Admitted d p direct e) → Safe d p direct w.ledger → Outcome d p direct w w'

variable {d : Deployment} {code : Address → Code} {p : Address} {direct : Bool} {e₀ : Option Entry}
  {w w' : World} {α : Type} {a x logic implementation : Address} {m : Message} {data : Calldata}
  {c : Context}

private theorem Outcome.of_same (hcode : w'.ledger.code = w.ledger.code)
    (hmaster : (w'.ledger.escrows p).master = (w.ledger.escrows p).master)
    (henhanced : (w.ledger.escrows p).enhanced = true → (w'.ledger.escrows p).enhanced = true)
    (hslots : w.ledger.code p = .proxy → SameReserved p w.ledger w'.ledger)
    (hdestroyed : w.ledger.code p = .proxy → p ∈ w'.ledger.destroyed → p ∈ w.ledger.destroyed)
    (h : Safe d p direct w.ledger) : Outcome d p direct w w' := by
  have hescrowed : Escrowed p w'.ledger ↔ Escrowed p w.ledger := by
    rw [Escrowed, Escrowed, hmaster]
  refine ⟨⟨fun hesc => ?_, fun hclosed hproxy => ?_⟩, fun _ hesc => mt hescrowed.mp hesc,
    fun hesc he _ => ⟨hescrowed.mpr hesc, henhanced he⟩, fun m hm0 hm _ => ⟨hmaster.trans hm, ?_⟩⟩
  · obtain ⟨hproxy, hheld, hintact⟩ := h.controlled (hescrowed.mp hesc)
    rw [hcode]
    exact ⟨hproxy, (hslots hproxy).held hheld, mt (hdestroyed hproxy) hintact⟩
  · rw [hcode] at hproxy
    exact mt (hdestroyed hproxy) (h.intact hclosed hproxy)
  · have hesc : Escrowed p w.ledger := by
      rw [Escrowed, hm]
      exact hm0
    exact hslots (h.controlled hesc).1

/-- Nothing happened. -/
theorem Outcome.of_ledger_eq (hledger : w'.ledger = w.ledger) (h : Safe d p direct w.ledger) :
    Outcome d p direct w w' := by
  refine .of_same ?_ ?_ ?_ (fun _ => ?_) (fun _ => ?_) h
  all_goals rw [hledger]
  · exact id
  · exact .refl
  · exact id

private theorem Outcome.of_unescrowed (h : ¬ Escrowed p w.ledger) (h' : ¬ Escrowed p w'.ledger)
    (hintact : direct = false → w'.ledger.code p = .proxy → p ∉ w'.ledger.destroyed) :
    Outcome d p direct w w' := by
  refine ⟨⟨fun hesc => absurd hesc h', hintact⟩, fun _ _ => h', fun hesc => absurd hesc h,
    fun m hm0 hm _ => ?_⟩
  refine absurd ?_ h
  rw [Escrowed, hm]
  exact hm0

private theorem Guards.of_same (hgrow : grows.rel w w')
    (hmaster : (w'.ledger.escrows p).master = (w.ledger.escrows p).master)
    (henhanced : (w.ledger.escrows p).enhanced = true → (w'.ledger.escrows p).enhanced = true)
    (hslots : code p = .proxy → SameReserved p w.ledger w'.ledger)
    (hdestroyed : code p = .proxy → p ∈ w'.ledger.destroyed → p ∈ w.ledger.destroyed) :
    Guards d code p direct e₀ w w' := by
  refine ⟨hgrow, fun hcode _ _ hsafe => ?_⟩
  subst hcode
  exact .of_same hgrow.2 hmaster henhanced hslots hdestroyed hsafe

/-- Code that is guarded. -/
def guards (d : Deployment) (code : Address → Code) (p : Address) (direct : Bool)
    (e₀ : Option Entry) : Frame World where
  rel := Guards d code p direct e₀
  refl w := .of_same (grows.refl w) rfl id (fun _ => .refl) fun _ => id
  trans {w₁ w₂ w₃} h h' := by
    refine ⟨grows.trans h.grow h'.grow, fun hcode hmem hadmitted hsafe => ?_⟩
    have hsub : ∀ e ∈ w₂.log, e ∈ w₃.log := fun e he => h'.grow.1.subset he
    have h₁ := h.outcome hcode hmem (fun e he => hadmitted e (hsub e he)) hsafe
    have h₂ := h'.outcome (h.grow.2.trans hcode) (fun e he => h.grow.1.subset (hmem e he)) hadmitted
      h₁.safe
    refine ⟨h₂.safe, fun hd hesc => h₂.unescrowed hd (h₁.unescrowed hd hesc), ?_, ?_⟩
    · intro hesc henhanced hretains
      obtain ⟨hesc₂, henhanced₂⟩ := h₁.retained hesc henhanced fun e he => hretains e (hsub e he)
      exact h₂.retained hesc₂ henhanced₂ hretains
    · intro m hm0 hm hquiet
      obtain ⟨hm₂, hsame⟩ := h₁.untouched m hm0 hm fun e he => hquiet e (hsub e he)
      obtain ⟨hm₃, hsame'⟩ := h₂.untouched m hm0 hm₂ hquiet
      exact ⟨hm₃, hsame.trans hsame'⟩

private theorem keeps_of_none {x : Exec α} (h : (guards d code p direct none).Keeps x) :
    (guards d code p direct e₀).Keeps x :=
  fun w => ⟨(h w).grow, fun hcode _ => (h w).outcome hcode fun _ he => (nomatch he)⟩

private theorem keeps_sstore (h : code p = .proxy → a ≠ p) (slot value : Word) :
    (guards d code p direct e₀).Keeps (Exec.sstore a slot value) := by
  refine keeps_modify fun w => ?_
  refine .of_same (grows.keeps_sstore a slot value w) rfl id (fun hproxy slot' _ => ?_) fun _ => id
  dsimp only
  rw [update_of_ne (h hproxy).symm]

private theorem keeps_selfdestruct (h : code p = .proxy → a ≠ p) :
    (guards d code p direct e₀).Keeps (Exec.selfdestruct a) := by
  refine keeps_modify fun w => ?_
  refine .of_same (grows.keeps_selfdestruct a w) rfl id (fun _ => .refl) fun hproxy hmem => ?_
  exact (List.mem_cons.mp hmem).resolve_left (h hproxy).symm

private theorem keeps_setEscrow (h : a ≠ p) (e : Escrow) :
    (guards d code p direct e₀).Keeps (setEscrow a e) := by
  refine keeps_modify fun w => ?_
  refine .of_same (grows.keeps_setEscrow a e w) ?_ ?_ (fun _ => .refl) fun _ => id
  · dsimp only
    rw [update_of_ne h.symm]
  · dsimp only
    rw [update_of_ne h.symm]
    exact id

private theorem keeps_setFactoryOwner (owner : Address) :
    (guards d code p direct e₀).Keeps (setFactoryOwner owner) :=
  keeps_modify fun w =>
    .of_same (grows.keeps_setFactoryOwner owner w) rfl id (fun _ => .refl) fun _ => id

/-- A call is guarded if its callee is whenever it returns, knowing that the message is in the
log. -/
theorem keeps_call {callee : Message → Exec Unit} (hgrow : grows.Keeps (callee m))
    (h : ∀ w w', callee m w = .ok () w' → Guards d code p direct (some ⟨m, w.ledger⟩) w w') :
    (guards d code p direct none).Keeps (Exec.call callee m) := by
  intro w
  have hgrow' := grows.keeps_call hgrow w
  cases hrun : Exec.call callee m w with
  | ok u w' =>
    rw [stateAfter, hrun] at hgrow' ⊢
    refine ⟨hgrow', fun hcode _ hadmitted hsafe => ?_⟩
    have hout := (h _ w' (call_eq_ok.mp hrun)).outcome hcode (by simp) hadmitted hsafe
    exact ⟨hout.safe, hout.unescrowed, hout.retained, hout.untouched⟩
  | error e w' =>
    rw [stateAfter, hrun] at hgrow' ⊢
    exact ⟨hgrow', fun _ _ _ hsafe => .of_ledger_eq (ledger_of_call_error hrun) hsafe⟩

/-- Code that does not escrow the proxy anew, where escrows are direct. -/
def unescrowing (d : Deployment) (code : Address → Code) (p : Address) : Frame World where
  rel w w' := grows.rel w w' ∧ (w.ledger.code = code → (∀ e ∈ w'.log, Admitted d p true e) →
    ¬ Escrowed p w.ledger → ¬ Escrowed p w'.ledger)
  refl w := ⟨grows.refl w, fun _ _ h => h⟩
  trans h h' := ⟨grows.trans h.1 h'.1, fun hcode hadmitted hesc =>
    h'.2 (h.1.2.trans hcode) hadmitted
      (h.2 hcode (fun e he => hadmitted e (h'.1.1.subset he)) hesc)⟩

private theorem unescrowing_of_guards {x : Exec α} (h : (guards d code p true none).Keeps x) :
    (unescrowing d code p).Keeps x := by
  intro w
  refine ⟨(h w).grow, fun hcode hadmitted hesc => ?_⟩
  have hsafe : Safe d p true w.ledger := ⟨fun h => absurd h hesc, fun h => (nomatch h)⟩
  exact ((h w).outcome hcode (fun _ he => (nomatch he)) hadmitted hsafe).unescrowed rfl hesc

private theorem unescrowing_sstore (a : Address) (slot value : Word) :
    (unescrowing d code p).Keeps (Exec.sstore a slot value) :=
  keeps_modify fun w => ⟨grows.keeps_sstore a slot value w, fun _ _ h => h⟩

private theorem unescrowing_selfdestruct (a : Address) :
    (unescrowing d code p).Keeps (Exec.selfdestruct a) :=
  keeps_modify fun w => ⟨grows.keeps_selfdestruct a w, fun _ _ h => h⟩

section Refusals

variable {env : Surroundings} {send : Message → Exec Unit} {c : Context}

private theorem stateReceive_of_ne (hset : w.ledger.addressAt c.self executorSlot ≠ 0)
    (hsender : w.ledger.addressAt c.self executorSlot ≠ c.sender) (data : Calldata) :
    stateAfter (StateFactory.receive d c data) w = w := by
  unfold StateFactory.receive
  split
  · rfl
  · exact stateAfter_bind_of_error (onlyInitialized_of_ne hset)
  · exact stateAfter_bind_of_error (onlyExecutor_of_ne hsender)
  · exact stateAfter_bind_of_error (onlyExecutor_of_ne hsender)
  · rfl

/-- A held proxy passes messages of others than its admin on to `StateFactory`. -/
theorem proxyReceive_of_held (hheld : Held d c.self w.ledger)
    (hfactory : w.ledger.code d.stateFactory = .stateFactory) (hsender : c.sender ≠ d.proxyFactory)
    (data : Calldata) :
    TransparentUpgradeableProxy.receive d env send c data w = StateFactory.receive d c data w := by
  apply proxyReceive_of_stateFactory
  · exact fun h => hsender (h.trans hheld.admin)
  · rw [← hfactory]
    exact congrArg _ hheld.implementation

private theorem writes_of_inHouse (d : Deployment) (env : Surroundings) (send : Message → Exec Unit)
    (hdata : c.sender = w.ledger.addressAt c.self adminSlot → data.isUpgradeToAndCall = false)
    (himpl : c.sender ≠ w.ledger.addressAt c.self adminSlot → InHouse c.self w.ledger) :
    (writesSlots c.self reservedSlots).rel w
      (stateAfter (TransparentUpgradeableProxy.receive d env send c data) w) := by
  by_cases hadmin : c.sender = w.ledger.addressAt c.self adminSlot
  · have hwrites : (writesSlots c.self [adminSlot, implementationSlot]).rel w
        (stateAfter (TransparentUpgradeableProxy.receive d env send c data) w) :=
      proxy.administers hadmin (hdata hadmin)
    obtain ⟨hlog, hcode, hescrows, hdestroyed, hstorage⟩ := hwrites
    refine ⟨hlog, hcode, hescrows, hdestroyed, fun b slot hb => hstorage b slot fun heq hmem => ?_⟩
    refine hb heq ?_
    simp only [List.mem_cons, List.not_mem_nil, or_false] at hmem
    rcases hmem with rfl | rfl <;> simp [reservedSlots]
  · rw [stateAfter_congr (proxy.delegates hadmin)]
    have hread :
        ∀ {code : Code}, w.ledger.code (w.ledger.addressAt c.self implementationSlot) = code →
        Exec.code (w.ledger.addressAt c.self implementationSlot) w = .ok code w := by
      rintro code rfl
      rfl
    rcases himpl hadmin with hcode | hcode
    · rw [delegate, stateAfter_bind_of_ok (hread hcode)]
      exact keeps_bridgeReceive d (mayWrite_writesSlots c reservedSlots) data w
    · rw [delegate, stateAfter_bind_of_ok (hread hcode)]
      exact keeps_stateReceive d (mayWrite_writesSlots c reservedSlots) data w

end Refusals

/-- Messages that code may send without knowing about the proxy. Inside a transaction the sender is
a contract and not the origin; `Service` is careful with the proxy, and `ProxyFactory` has one
message for it. -/
structure Plain (d : Deployment) (code : Address → Code) (p : Address) (direct : Bool)
    (m : Message) : Prop where
  origin : (code m.origin).isEmpty = true
  sender : m.sender ≠ 0
  toProxy : code p = .proxy → m.target = p → m.sender ≠ d.service ∧
    (m.sender = d.proxyFactory → ∃ a, m.data = .upgradeAndChangeAdmin a)
  escrows : direct = true → m.target = d.service → m.data.escrows p = true → m.sender ≠ m.origin

section Dispatch

variable {env : Surroundings} {send : Message → Exec Unit} (hdep : Deployed d code)
  (hgrow : ∀ m, grows.Keeps (send m))
  (hsend : ∀ m, Plain d code p direct m → (guards d code p direct none).Keeps (send m))

include hdep hsend

private theorem keeps_send (horigin : (code c.origin).isEmpty = true)
    (hself : (code c.self).isMortal = true) (target : Address) (data : Calldata) :
    (guards d code p direct none).Keeps (send ⟨c.origin, c.self, target, data⟩) := by
  have hempty := Code.isEmpty_of_isMortal hself
  refine hsend _ ⟨horigin, hdep.ne_zero hempty, fun _ _ => ⟨hdep.ne_service hself, fun h =>
    absurd h (hdep.ne_proxyFactory hself)⟩, fun _ _ _ heq => ?_⟩
  have heq : c.self = c.origin := heq
  rw [heq, horigin] at hempty
  cases hempty

private theorem keeps_sendService (horigin : (code c.origin).isEmpty = true)
    (hself : c.self = d.service)
    (hx : code p = .proxy → x ≠ p) (data : Calldata) :
    (guards d code p direct none).Keeps (send ⟨c.origin, c.self, x, data⟩) := by
  have hempty : (code c.self).isEmpty = false := by
    rw [hself]
    exact hdep.isEmpty_service
  refine hsend _ ⟨horigin, hdep.ne_zero hempty, fun hproxy htarget => absurd htarget (hx hproxy),
    fun _ _ _ heq => ?_⟩
  have heq : c.self = c.origin := heq
  rw [heq, horigin] at hempty
  cases hempty

/-- Other contracts outside the system act without concern for the proxy. -/
theorem actsAs (horigin : (code c.origin).isEmpty = true) (hself : (code c.self).isMortal = true)
    (hp : code p = .proxy → c.self ≠ p) : ActsAs (guards d code p direct e₀) send c := by
  exact ⟨keeps_sstore hp, keeps_selfdestruct hp, fun target data => keeps_of_none
    (keeps_send hdep hsend horigin hself target data)⟩

omit hsend in
/-- Where escrows are direct, a proxy that is not escrowed may do what it likes. -/
theorem unescrowed_proxyReceive
    (hsend : ∀ m, Plain d code p true m → (guards d code p true none).Keeps (send m))
    (horigin : (code c.origin).isEmpty = true) (hself : c.self = p) (hproxy : code p = .proxy)
    (data : Calldata) :
    (unescrowing d code p).Keeps (TransparentUpgradeableProxy.receive d env send c data) := by
  have hmortal : (code c.self).isMortal = true := by
    rw [hself]
    exact Code.isMortal_of_proxy hproxy
  exact proxy.acts ⟨unescrowing_sstore c.self, unescrowing_selfdestruct c.self, fun target data =>
    unescrowing_of_guards (keeps_send hdep hsend horigin hmortal target data)⟩ data

include hgrow

/-- Plain messages to the proxy. -/
theorem guards_proxyReceive (hm : Plain d code p direct m) (htarget : m.target = p)
    (hproxy : code p = .proxy)
    (h : TransparentUpgradeableProxy.receive d env send ⟨m.origin, m.sender, m.target⟩ m.data w =
      .ok () w') : Guards d code p direct (some ⟨m, w.ledger⟩) w w' := by
  have hafter : stateAfter (TransparentUpgradeableProxy.receive d env send
      ⟨m.origin, m.sender, m.target⟩ m.data) w = w' := by rw [stateAfter, h]
  have hgrows : grows.rel w w' :=
    (proxy.acts (grows.actsAs hgrow ⟨m.origin, m.sender, m.target⟩) m.data).of_ok h
  refine ⟨hgrows, fun hcode hmem hadmitted hsafe => ?_⟩
  by_cases hesc : Escrowed p w.ledger
  · have hheld : Held d m.target w.ledger := by
      rw [htarget]
      exact (hsafe.controlled hesc).2.1
    obtain ⟨hservice, hfactory⟩ := hm.toProxy hproxy htarget
    have hadmin : m.sender ≠ d.proxyFactory := by
      intro heq
      obtain ⟨a, ha⟩ := hfactory heq
      rw [ha, proxy.refuses (by exact heq.trans hheld.admin.symm)] at h
      cases h
    have hstate : w.ledger.code d.stateFactory = .stateFactory := by
      rw [hcode]
      exact (hdep.stateFactory _).mpr rfl
    rw [stateAfter_congr (proxyReceive_of_held hheld hstate hadmin m.data),
      stateReceive_of_ne (by rw [hheld.executor]; exact hdep.ne_zero hdep.isEmpty_service)
        (by rw [hheld.executor]; exact hservice.symm)] at hafter
    exact .of_ledger_eq (by rw [hafter]) hsafe
  · cases direct with
    | true =>
      have hfree := (unescrowed_proxyReceive hdep hsend hm.origin htarget hproxy m.data).of_ok h
      exact .of_unescrowed hesc (hfree.2 hcode hadmitted hesc) fun h => Bool.noConfusion h
    | false =>
      have hclosed := (hadmitted _ (hgrows.1.subset (hmem _ rfl))).isClosed rfl htarget
      rw [← htarget] at hclosed
      have hwrites := writes_of_inHouse d env send (c := ⟨m.origin, m.sender, m.target⟩)
        hclosed.1 hclosed.2
      rw [hafter] at hwrites
      obtain ⟨-, -, hescrows, hdestroyed, -⟩ := hwrites
      refine .of_unescrowed hesc ?_ fun _ hproxy' => ?_
      · rw [Escrowed, hescrows]
        exact hesc
      · rw [hgrows.2] at hproxy'
        rw [hdestroyed]
        exact hsafe.intact rfl hproxy'

end Dispatch

section Held

variable {env : Surroundings}

/-- An executor that does not cancel writes to two slots, and only when it upgrades. -/
theorem stateReceive_of_not_cancel (hset : w.ledger.addressAt c.self executorSlot ≠ 0)
    (hcancel : data.isCancel = false) : (writesSlots c.self [rollbackSlot, proofSlot]).rel w
        (stateAfter (StateFactory.receive d c data) w) ∧
      (data.isUpgrade = false → stateAfter (StateFactory.receive d c data) w = w) := by
  cases data with
  | cancel a => cases hcancel
  | upgrade logic =>
    exact ⟨keeps_stateUpgrade d (mayWrite_writesSlots c _) logic w, fun h => (nomatch h)⟩
  | initialise logic =>
    have hstay : stateAfter (StateFactory.receive d c (.initialise logic)) w = w :=
      stateAfter_bind_of_error (onlyInitialized_of_ne hset)
    rw [hstay]
    exact ⟨(writesSlots _ _).refl w, fun _ => rfl⟩
  | _ => exact ⟨(writesSlots _ _).refl w, fun _ => rfl⟩

private theorem ledger_call (callee : Message → Exec Unit) (m : Message) (w : World) :
    (stateAfter (Exec.call callee m) w).ledger =
        (stateAfter (callee m) { w with log := ⟨m, w.ledger⟩ :: w.log }).ledger ∨
      (stateAfter (Exec.call callee m) w).ledger = w.ledger := by
  unfold stateAfter Exec.call
  split
  next u w' h =>
    split at h
    next hcall =>
      cases h
      left
      rw [hcall]
    next => cases h
  next e w' h =>
    split at h
    next => cases h
    next =>
      cases h
      exact Or.inr rfl

private theorem held_send (env : Surroundings) (hdep : Deployed d code)
    (hcode : w.ledger.code = code)
    (hproxy : code p = .proxy) (hheld : Held d p w.ledger) (hcancel : data.isCancel = false)
    (depth : Nat) (origin : Address) :
    let w' := stateAfter (Exec.call (handle d env depth) ⟨origin, d.service, p, data⟩) w
    w'.ledger.escrows = w.ledger.escrows ∧ w'.ledger.destroyed = w.ledger.destroyed ∧
      Held d p w'.ledger ∧ (data.isUpgrade = false → SameReserved p w.ledger w'.ledger) := by
  intro w'
  rcases ledger_call (handle d env depth) ⟨origin, d.service, p, data⟩ w with hledger | hledger
  · cases depth with
    | zero =>
      exact ⟨congrArg _ hledger, congrArg _ hledger, hledger ▸ hheld, fun _ => hledger ▸ .refl⟩
    | succ depth =>
      have hstate : w.ledger.code d.stateFactory = .stateFactory := by
        rw [hcode]
        exact (hdep.stateFactory _).mpr rfl
      have hrun : handle d env (depth + 1) ⟨origin, d.service, p, data⟩
          { w with log := ⟨⟨origin, d.service, p, data⟩, w.ledger⟩ :: w.log } =
          StateFactory.receive d ⟨origin, d.service, p⟩ data
            { w with log := ⟨⟨origin, d.service, p, data⟩, w.ledger⟩ :: w.log } := by
        rw [handle, dispatch_of_proxy]
        · exact proxyReceive_of_held (c := ⟨origin, d.service, p⟩)
            (w := { w with log := ⟨⟨origin, d.service, p, data⟩, w.ledger⟩ :: w.log }) hheld hstate
            hdep.proxyFactory_ne_service.symm data
        · exact (congrFun hcode p).trans hproxy
      rw [stateAfter_congr hrun] at hledger
      have hset : w.ledger.addressAt p executorSlot ≠ 0 := by
        rw [hheld.executor]
        exact hdep.ne_zero hdep.isEmpty_service
      obtain ⟨hwrites, hstay⟩ := stateReceive_of_not_cancel (d := d) (c := ⟨origin, d.service, p⟩)
        (w := { w with log := ⟨⟨origin, d.service, p, data⟩, w.ledger⟩ :: w.log }) hset hcancel
      refine ⟨?_, ?_, ⟨?_, ?_, ?_⟩, fun hupgrade => ?_⟩
      · exact (congrArg _ hledger).trans hwrites.2.2.1
      · exact (congrArg _ hledger).trans hwrites.2.2.2.1
      · rw [← hheld.admin, hledger]
        exact writesSlots.addressAt_eq hwrites (by decide)
      · rw [← hheld.implementation, hledger]
        exact writesSlots.addressAt_eq hwrites (by decide)
      · rw [← hheld.executor, hledger]
        exact writesSlots.addressAt_eq hwrites (by decide)
      · intro slot _
        rw [hledger]
        exact congrFun (congrFun (congrArg (fun w => w.ledger.storage) (hstay hupgrade)) p) slot
  · exact ⟨congrArg _ hledger, congrArg _ hledger, hledger ▸ hheld, fun _ => hledger ▸ .refl⟩

end Held

section Escrow

variable {env : Surroundings} {depth : Nat} {c : Context}

private theorem held_of_reserved {rollback : Address} {proof : Word}
    (h : l.reserved p = ⟨d.proxyFactory, d.stateFactory, rollback, d.service, proof⟩) :
    Held d p l :=
  ⟨congrArg Reserved.admin h, congrArg Reserved.implementation h, congrArg Reserved.executor h⟩

private theorem delegate_bridge {send : Message → Exec Unit}
    (hcode : w.ledger.code logic = .proxyBridge ∨ w.ledger.code logic = .stateFactory)
    (h : delegate d env send c logic (.upgradeAndChangeAdmin a) w = .ok () w') :
    w.ledger.code logic = .proxyBridge := by
  rcases hcode with hcode | hcode
  · exact hcode
  · have hread : Exec.code logic w = .ok .stateFactory w := by
      rw [← hcode]
      rfl
    rw [delegate, bind_of_ok hread] at h
    cases h

/-- A successful escrow of the proxy. -/
theorem outcome_of_escrow_ok (hdep : Deployed d w.ledger.code) (hself : c.self = d.service)
    (hproxy : w.ledger.code p = .proxy) (himpl : InHouse p w.ledger)
    (hsafe : Safe d p false w.ledger)
    (h : escrow d (Exec.call (handle d env depth)) c p implementation w = .ok () w') :
    Outcome d p false w w' := by
  have hstarted : Started d p implementation c.origin c.sender w.ledger w'.ledger := by
    refine escrow_ok hdep hself hproxy (fun n w₁ w₂ hw₁ hdelegate => ?_) h
    have hcode := delegate_bridge (by rw [hw₁]; exact himpl) hdelegate
    rw [hw₁] at hcode
    exact hcode
  have hfresh : ¬ Escrowed p w.ledger := fun hesc =>
    hstarted.notHeld (hsafe.controlled hesc).2.1.admin
  have hintact : p ∉ w'.ledger.destroyed := by
    rw [hstarted.destroyed]
    exact hsafe.intact rfl hproxy
  refine ⟨⟨fun _ => ⟨?_, held_of_reserved hstarted.reserved, hintact⟩, fun _ _ => hintact⟩,
    fun h => (nomatch h), fun hesc => absurd hesc hfresh, fun m hm0 hm => ?_⟩
  · rw [hstarted.code]
    exact hproxy
  · refine absurd ?_ hfresh
    rw [Escrowed, hm]
    exact hm0

end Escrow

section Service

variable {env : Surroundings} {depth : Nat} {c : Context} {send : Message → Exec Unit}
  {proxy : Address}

/-- For an escrowed proxy, `updateState` sends the message. -/
theorem updateState_of_escrowed (h : Escrowed proxy w.ledger)
    (hcode : (w.ledger.code proxy).isEmpty = false) :
    updateState send c proxy data w = send ⟨c.origin, c.self, proxy, data⟩ w := by
  have hread : Exec.escrow proxy w = .ok (w.ledger.escrows proxy) w := rfl
  have hmaster : (w.ledger.escrows proxy).master ≠ 0 := h
  rw [updateState, bind_of_ok hread, bind_of_ok (require_eq_ok.mpr ⟨hmaster, rfl⟩),
    functionCall.calls hcode]

private theorem updateState_of_not_escrowed (h : ¬ Escrowed proxy w.ledger) :
    updateState send c proxy data w = .error (.reason "Service: contract is not escrows") w := by
  have hread : Exec.escrow proxy w = .ok (w.ledger.escrows proxy) w := rfl
  have hmaster : ¬ (w.ledger.escrows proxy).master ≠ 0 := h
  rw [updateState, bind_of_ok hread]
  exact bind_of_error (require_of_not hmaster w)

/-- What a message to the held proxy leaves. -/
theorem outcome_sendHeld (hdep : Deployed d code) (hcode : w.ledger.code = code)
    (hsafe : Safe d p direct w.ledger) (hesc : Escrowed p w.ledger)
    (hcancel : data.isCancel = false) {origin : Address}
    (hquiet : ∀ m, (w.ledger.escrows p).master = m →
      (∀ e ∈ (stateAfter (Exec.call (handle d env depth) ⟨origin, d.service, p, data⟩) w).log,
        Quiet d p m e) → data.isUpgrade = false) : Outcome d p direct w
      (stateAfter (Exec.call (handle d env depth) ⟨origin, d.service, p, data⟩) w) := by
  obtain ⟨hproxy, hheld, hintact⟩ := hsafe.controlled hesc
  have hgrow := grows.keeps_call (grows.keeps_handle d env depth ⟨origin, d.service, p, data⟩) w
  obtain ⟨hescrows, hdestroyed, hheld', hsame⟩ := held_send env hdep hcode
    ((congrFun hcode p).symm.trans hproxy) hheld hcancel depth origin
  rw [← hdestroyed] at hintact
  refine ⟨⟨fun _ => ⟨?_, hheld', hintact⟩, fun _ _ => hintact⟩, fun _ h => absurd hesc h, ?_, ?_⟩
  · rw [hgrow.2]
    exact hproxy
  · intro _ henhanced _
    rw [Escrowed, hescrows]
    exact ⟨hesc, henhanced⟩
  · intro m _ hm hq
    rw [hescrows]
    exact ⟨hm, hsame (hquiet m hm hq)⟩

variable {e : Entry} (hdep : Deployed d code)
  (hsend : ∀ m, Plain d code p direct m →
    (guards d code p direct none).Keeps (Exec.call (handle d env depth) m))
  (horigin : (code c.origin).isEmpty = true) (hself : c.self = d.service)

private theorem not_escrowed_deleteEscrow (x : Address) (w : World) :
    ¬ Escrowed x (stateAfter (deleteEscrow x) w).ledger := by
  intro hesc
  apply hesc
  change (update w.ledger.escrows x ⟨0, false⟩ x).master = 0
  rw [update_self]

private theorem destroyed_of_callContract_ok (hproxy : w.ledger.code p = .proxy)
    (h : c.callContract (Exec.call (handle d env depth)) p data w = .ok () w')
    (hclosed : ∀ e ∈ w'.log, Closed p e) : w'.ledger.destroyed = w.ledger.destroyed := by
  rw [callContract_of_code (by rw [hproxy]; rfl)] at h
  have hrun := call_eq_ok.mp h
  cases depth with
  | zero => cases hrun
  | succ n =>
    have hgrow : grows.rel _ w' := (grows.keeps_handle d env (n + 1) _).of_ok hrun
    have hmessage := hclosed _ (hgrow.1.subset List.mem_cons_self) rfl
    rw [handle, dispatch_of_proxy (by exact hproxy)] at hrun
    have hwrites := writes_of_inHouse d env (Exec.call (handle d env n))
      (c := ⟨c.origin, c.self, p⟩)
      (w := { w with log := ⟨⟨c.origin, c.self, p, data⟩, w.ledger⟩ :: w.log })
      hmessage.1 hmessage.2
    rw [stateAfter, hrun] at hwrites
    exact hwrites.2.2.2.1

/-- Ending the escrow of the proxy, where the message is not quiet. -/
theorem guards_release (hq : ∀ m, (w.ledger.escrows p).master = m → ¬ Quiet d p m e)
    (hr : (w.ledger.escrows p).enhanced = true → ¬ Retains d p e) :
    Guards d code p direct (some e) w (stateAfter
      (c.callContract (Exec.call (handle d env depth)) p (.cancel a) >>= fun _ => deleteEscrow p)
      w) := by
  have hkeeps : grows.Keeps
      (c.callContract (Exec.call (handle d env depth)) p (.cancel a) >>= fun _ =>
        deleteEscrow p) :=
    keeps_bind (keeps_callContract (grows.keeps_call (grows.keeps_handle d env depth _)))
      fun _ => grows.keeps_setEscrow _ _
  have hgrow := hkeeps w
  refine ⟨hgrow, fun hcode hmem hadmitted hsafe => ?_⟩
  have hlogged := hgrow.1.subset (hmem e rfl)
  cases hx : c.callContract (Exec.call (handle d env depth)) p (.cancel a) w with
  | error r w' =>
    rw [stateAfter_bind_of_error hx]
    exact .of_ledger_eq (ledger_of_callContract_error hx) hsafe
  | ok u w' =>
    rw [stateAfter_bind_of_ok hx] at hgrow hlogged hadmitted ⊢
    have hgone := not_escrowed_deleteEscrow p w'
    refine ⟨⟨fun hesc => absurd hesc hgone, fun hclosed hproxy => ?_⟩, fun _ _ => hgone,
      fun _ henhanced hretains => ?_, fun m _ hm hquiet => ?_⟩
    · rw [hgrow.2] at hproxy
      change p ∉ w'.ledger.destroyed
      rw [destroyed_of_callContract_ok hproxy hx fun e he => (hadmitted e he).isClosed hclosed]
      exact hsafe.intact hclosed hproxy
    · exact absurd (hretains e hlogged) (hr henhanced)
    · exact absurd (hquiet e hlogged) (hq m hm)

include hdep hsend horigin hself

/-- Forwarding to the proxy what is not a cancel, and to anybody else anything. -/
theorem keeps_updateStateOf (hcancel : x = p → data.isCancel = false)
    (hupgrade : x = p → ∀ m, Quiet d p m e → data.isUpgrade = false) :
    (guards d code p direct (some e)).Keeps
      (updateState (Exec.call (handle d env depth)) c x data) := by
  by_cases hx : code p = .proxy ∧ x = p
  · obtain ⟨hproxy, rfl⟩ := hx
    intro w
    have hgrow :
        grows.rel w (stateAfter (updateState (Exec.call (handle d env depth)) c x data) w) :=
      keeps_updateState (fun _ => grows.keeps_call (grows.keeps_handle d env depth _)) w
    refine ⟨hgrow, fun hcode hmem hadmitted hsafe => ?_⟩
    by_cases hesc : Escrowed x w.ledger
    · have hrun : updateState (Exec.call (handle d env depth)) c x data w = _ :=
        updateState_of_escrowed hesc (by rw [(hsafe.controlled hesc).1]; rfl)
      rw [hself] at hrun
      rw [stateAfter_congr hrun] at hgrow ⊢
      refine outcome_sendHeld hdep hcode hsafe hesc (hcancel rfl) fun m _ hquiet => ?_
      exact hupgrade rfl m (hquiet e (hgrow.1.subset (hmem e rfl)))
    · have hstay : stateAfter (updateState (Exec.call (handle d env depth)) c x data) w = w := by
        rw [stateAfter, updateState_of_not_escrowed hesc]
      rw [hstay]
      exact .of_ledger_eq rfl hsafe
  · apply keeps_updateState
    intro data
    exact keeps_of_none (keeps_sendService hdep hsend horigin hself (fun hproxy heq =>
      hx ⟨hproxy, heq⟩) data)

private theorem keeps_upgradeOf (hsender : c.sender ≠ 0) (he : ∀ m, Quiet d p m e → c.sender ≠ m) :
    (guards d code p direct (some e)).Keeps
      (upgrade (Exec.call (handle d env depth)) c x logic) := by
  by_cases hx : code p = .proxy ∧ x = p
  · obtain ⟨hproxy, rfl⟩ := hx
    intro w
    have hgrow : grows.rel w (stateAfter (upgrade (Exec.call (handle d env depth)) c x logic) w) :=
      keeps_upgrade (fun _ => grows.keeps_call (grows.keeps_handle d env depth _)) w
    refine ⟨hgrow, fun hcode hmem hadmitted hsafe => ?_⟩
    by_cases hmaster : (w.ledger.escrows x).master = c.sender
    · have hesc : Escrowed x w.ledger := by
        rw [Escrowed, hmaster]
        exact hsender
      have hrun : upgrade (Exec.call (handle d env depth)) c x logic w =
          Exec.call (handle d env depth) ⟨c.origin, d.service, x, .upgrade logic⟩ w := by
        rw [upgrade, bind_of_ok (onlyEscrow_of_eq hmaster),
          callContract_of_code (by rw [(hsafe.controlled hesc).1]; rfl), hself]
      rw [stateAfter_congr hrun] at hgrow ⊢
      refine outcome_sendHeld hdep hcode hsafe hesc rfl fun m hm hquiet => ?_
      exact absurd (hmaster.symm.trans hm) (he m (hquiet e (hgrow.1.subset (hmem e rfl))))
    · have hstay : stateAfter (upgrade (Exec.call (handle d env depth)) c x logic) w = w :=
        stateAfter_bind_of_error (onlyEscrow_of_ne hmaster)
      rw [hstay]
      exact .of_ledger_eq rfl hsafe
  · apply keeps_upgrade
    intro data
    exact keeps_of_none (keeps_sendService hdep hsend horigin hself (fun hproxy heq =>
      hx ⟨hproxy, heq⟩) data)

omit hdep hsend horigin hself in
private theorem keeps_deleteEscrow (hx : code p = .proxy → x ≠ p) :
    (guards d code p direct (some e)).Keeps (deleteEscrow x) := by
  by_cases heq : x = p
  · subst heq
    intro w
    have hgone := not_escrowed_deleteEscrow x w
    refine ⟨grows.keeps_setEscrow _ _ w, fun hcode _ _ hsafe => ?_⟩
    have hnot : w.ledger.code x ≠ .proxy := by
      rw [hcode]
      exact fun hproxy => hx hproxy rfl
    have hfree : ¬ Escrowed x w.ledger := fun hesc => hnot (hsafe.controlled hesc).1
    exact .of_unescrowed hfree hgone fun _ hproxy => absurd hproxy hnot
  · exact keeps_setEscrow heq _

private theorem keeps_cancelOf (he : ∀ m, Quiet d p m e → c.sender ≠ m) :
    (guards d code p direct (some e)).Keeps (cancel (Exec.call (handle d env depth)) c x) := by
  by_cases hx : code p = .proxy ∧ x = p
  · obtain ⟨hproxy, rfl⟩ := hx
    intro w
    by_cases hmaster : (w.ledger.escrows x).master = c.sender
    · rw [cancel, stateAfter_bind_of_ok (onlyEscrow_of_eq hmaster)]
      by_cases henhanced : (w.ledger.escrows x).enhanced = false
      · rw [stateAfter_bind_of_ok (onlyNotEnhanced_of_eq henhanced)]
        refine guards_release (fun m hm hquiet => he m hquiet (hmaster.symm.trans hm)) fun h => ?_
        rw [henhanced] at h
        cases h
      · rw [stateAfter_bind_of_error (onlyNotEnhanced_of_ne henhanced)]
        exact (guards d code x direct (some e)).refl w
    · have hstay : stateAfter (cancel (Exec.call (handle d env depth)) c x) w = w :=
        stateAfter_bind_of_error (onlyEscrow_of_ne hmaster)
      rw [hstay]
      exact (guards d code x direct (some e)).refl w
  · have hx' : code p = .proxy → x ≠ p := fun hproxy heq => hx ⟨hproxy, heq⟩
    exact keeps_cancel (fun data => keeps_of_none
      (keeps_sendService hdep hsend horigin hself hx' data)) (keeps_deleteEscrow hx')

private theorem keeps_updateStateThenCancelOf (hcancel : x = p → data.isCancel = false)
    (hquiet : x = p → ∀ m, ¬ Quiet d p m e) (hretains : x = p → ¬ Retains d p e) :
    (guards d code p direct (some e)).Keeps
      (updateStateThenCancel (Exec.call (handle d env depth)) c x data) := by
  by_cases hx : code p = .proxy ∧ x = p
  · obtain ⟨hproxy, rfl⟩ := hx
    apply keeps_bind
    · exact keeps_updateStateOf hdep hsend horigin hself hcancel fun _ m hq =>
        absurd hq (hquiet rfl m)
    · intro _
      apply keeps_bind (keeps_escrow x)
      intro entry w
      exact guards_release (fun m _ => hquiet rfl m) fun _ => hretains rfl
  · have hx' : code p = .proxy → x ≠ p := fun hproxy heq => hx ⟨hproxy, heq⟩
    exact keeps_updateStateThenCancel (fun data => keeps_of_none
      (keeps_sendService hdep hsend horigin hself hx' data)) (keeps_deleteEscrow hx')

omit hdep hsend horigin hself in
/-- The flag of an escrow has nothing to do with who controls it. -/
theorem keeps_privacyEnhancement :
    (guards d code p direct (some e)).Keeps (privacyEnhancement c x) := by
  apply keeps_bind keeps_onlyEscrow
  intro _
  apply keeps_bind keeps_onlyNotEnhanced
  intro _ w
  have hread : Exec.escrow x w = .ok (w.ledger.escrows x) w := rfl
  rw [stateAfter_bind_of_ok hread]
  refine .of_same (grows.keeps_setEscrow _ _ w) ?_ ?_ (fun _ => .refl) fun _ => id
  · change (update w.ledger.escrows x _ p).master = _
    by_cases heq : p = x
    · subst heq
      rw [update_self]
    · rw [update_of_ne heq]
  · change _ → (update w.ledger.escrows x _ p).enhanced = true
    by_cases heq : p = x
    · subst heq
      rw [update_self]
      exact fun _ => rfl
    · rw [update_of_ne heq]
      exact id

omit hdep hsend horigin hself in
private theorem guards_of_not_admitted (hgrow : grows.rel w w') (he : ¬ Admitted d p direct e) :
    Guards d code p direct (some e) w w' :=
  ⟨hgrow, fun _ hmem hadmitted _ => absurd (hadmitted e (hgrow.1.subset (hmem e rfl))) he⟩

/-- Escrowing anything but the proxy. -/
theorem keeps_escrowOf (hx : x ≠ p) : (guards d code p direct (some e)).Keeps
      (escrow d (Exec.call (handle d env depth)) c x implementation) := by
  apply keeps_escrowProxy
  · intro data
    exact keeps_of_none (keeps_sendService hdep hsend horigin hself (fun _ => hx) data)
  · refine keeps_of_none (keeps_sendService hdep hsend horigin hself ?_ _)
    exact fun hproxy heq => hdep.ne_proxyFactory (Code.isMortal_of_proxy hproxy) heq.symm
  · exact keeps_setEscrow hx _

end Service

private theorem mem_forwards_zip {proxies : List Address} {data : List Calldata}
    {x : Address × Calldata} (hx : x ∈ proxies.zip data) (hp : x.1 = p) :
    x.2 ∈ ((proxies.zip data).filter fun x => x.1 = p).map Prod.snd :=
  List.mem_map_of_mem (List.mem_filter.mpr ⟨hx, by simp [hp]⟩)

section Messages

variable {env : Surroundings} {depth : Nat} (hdep : Deployed d code)
  (hsend : ∀ m, Plain d code p direct m →
    (guards d code p direct none).Keeps (Exec.call (handle d env depth) m))

include hdep hsend

/-- `Service` guards the proxy against plain messages. -/
theorem guards_receive (hm : Plain d code p direct m) (htarget : m.target = d.service)
    (h : receive d (Exec.call (handle d env depth)) ⟨m.origin, m.sender, m.target⟩ m.data w =
      .ok () w') : Guards d code p direct (some ⟨m, w.ledger⟩) w w' := by
  have hgrow : grows.rel w w' := (grows.keeps_receive d
    (fun m' => grows.keeps_call (grows.keeps_handle d env depth m')) _ _).of_ok h
  by_cases hadmitted : Admitted d p direct ⟨m, w.ledger⟩
  swap
  · exact guards_of_not_admitted hgrow hadmitted
  obtain ⟨hcancel, hescrow⟩ := hadmitted.isSealed htarget
  dsimp only at hcancel hescrow
  have hquiet : ∀ a, Quiet d p a ⟨m, w.ledger⟩ → m.sender ≠ a := fun a h => (h htarget).1
  cases hdata : m.data with
  | escrow proxy implementation =>
    rw [hdata] at h hescrow
    by_cases hp : proxy = p
    · subst hp
      have hescrows : Calldata.escrows proxy (.escrow proxy implementation) = true := by
        simp [Calldata.escrows]
      obtain ⟨hproxy, himpl⟩ := hescrow hescrows
      cases direct with
      | true =>
        rw [← hdata] at hescrows
        exact absurd (hadmitted.isDirect rfl htarget hescrows) (hm.escrows rfl htarget hescrows)
      | false =>
        refine ⟨hgrow, fun hcode _ _ hsafe => ?_⟩
        exact outcome_of_escrow_ok (by rw [hcode]; exact hdep) htarget hproxy himpl hsafe h
    · exact (keeps_escrowOf hdep hsend hm.origin htarget hp).of_ok h
  | privacyEnhancement proxy =>
    rw [hdata] at h
    exact keeps_privacyEnhancement.of_ok h
  | upgradeProxy proxy logic =>
    rw [hdata] at h
    exact (keeps_upgradeOf hdep hsend hm.origin htarget hm.sender hquiet).of_ok h
  | cancel proxy =>
    rw [hdata] at h
    exact (keeps_cancelOf hdep hsend hm.origin htarget hquiet).of_ok h
  | updateProxy proxy data =>
    have hmem : proxy = p → data ∈ m.data.forwards p := by
      intro hp
      simp [hdata, Calldata.forwards, hp]
    rw [hdata] at h
    exact (keeps_updateStateOf hdep hsend hm.origin htarget (fun hp => hcancel _ (hmem hp))
      fun hp a h => (h htarget).2.1 _ (hmem hp)).of_ok h
  | updateProxies proxies data =>
    have hmem : ∀ x ∈ proxies.zip data, x.1 = p → x.2 ∈ m.data.forwards p := by
      intro x hx hp
      rw [hdata]
      exact mem_forwards_zip hx hp
    rw [hdata] at h
    refine Frame.Keeps.of_ok (F := guards d code p direct (some ⟨m, w.ledger⟩))
      (keeps_bind (keeps_require _ _) fun _ => keeps_forEach (fun x hx => ?_) 0) h
    exact keeps_updateStateOf hdep hsend hm.origin htarget (fun hp => hcancel _ (hmem x hx hp))
      fun hp a h => (h htarget).2.1 _ (hmem x hx hp)
  | updateStateAndCancel proxies data =>
    have hmem : ∀ x ∈ proxies.zip data, x.1 = p → x.2 ∈ m.data.forwards p := by
      intro x hx hp
      rw [hdata]
      exact mem_forwards_zip hx hp
    have hreleases : ∀ x ∈ proxies.zip data, x.1 = p → m.data.releases p = true := by
      intro x hx hp
      rw [hdata]
      exact List.any_eq_true.mpr ⟨x, hx, by simp [hp]⟩
    rw [hdata] at h
    refine Frame.Keeps.of_ok (F := guards d code p direct (some ⟨m, w.ledger⟩))
      (keeps_bind (keeps_require _ _) fun _ => keeps_forEach (fun x hx => ?_) 0) h
    refine keeps_updateStateThenCancelOf hdep hsend hm.origin htarget
      (fun hp => hcancel _ (hmem x hx hp)) (fun hp a h => ?_) fun hp h => ?_
    · have hnone := (h htarget).2.2
      rw [hreleases x hx hp] at hnone
      cases hnone
    · have hnone := h htarget
      rw [hreleases x hx hp] at hnone
      cases hnone
  | _ =>
    rw [hdata] at h
    cases h

/-- Whatever code a plain message reaches, the proxy is guarded. -/
theorem guards_dispatch (hm : Plain d code p direct m)
    (h : dispatch d env (Exec.call (handle d env depth)) m w = .ok () w') :
    Guards d code p direct (some ⟨m, w.ledger⟩) w w' := by
  have hcallGrow : ∀ m', grows.Keeps (Exec.call (handle d env depth) m') := fun m' =>
    grows.keeps_call (grows.keeps_handle d env depth m')
  have hgrow : grows.rel w w' := (grows.keeps_dispatch d env hcallGrow m).of_ok h
  suffices w.ledger.code = code → Guards d code p direct (some ⟨m, w.ledger⟩) w w' from
    ⟨hgrow, fun hcode => (this hcode).outcome hcode⟩
  intro hcode
  have hread : Exec.code m.target w = .ok (code m.target) w := by
    rw [← hcode]
    rfl
  have hother : code m.target ≠ .proxy → code p = .proxy → m.target ≠ p := by
    intro hne hproxy heq
    rw [heq] at hne
    exact hne hproxy
  rw [dispatch, bind_of_ok hread] at h
  cases htarget : code m.target with
  | absent | plain =>
    rw [htarget] at h
    obtain ⟨-, rfl⟩ := pure_eq_ok.mp h
    exact (guards d code p direct _).refl _
  | service =>
    rw [htarget] at h
    exact guards_receive hdep hsend hm ((hdep.service _).mp htarget) h
  | proxyFactory =>
    rw [htarget] at h
    have hfactory := (hdep.proxyFactory _).mp htarget
    refine (keeps_factoryReceive keeps_setFactoryOwner (fun target implementation => ?_) _).of_ok h
    refine keeps_of_none (hsend _ ⟨hm.origin, ?_, fun _ _ => ⟨?_, fun _ => ⟨_, rfl⟩⟩,
      fun _ _ hescrows => by cases hescrows⟩)
    · dsimp only
      rw [hfactory]
      exact hdep.ne_zero hdep.isEmpty_proxyFactory
    · dsimp only
      rw [hfactory]
      exact hdep.proxyFactory_ne_service
  | proxyBridge =>
    rw [htarget] at h
    exact (keeps_bridgeReceive d
      (fun slot _ => keeps_sstore (hother (by simp [htarget])) slot) _).of_ok h
  | stateFactory =>
    rw [htarget] at h
    exact (keeps_stateReceive d
      (fun slot _ => keeps_sstore (hother (by simp [htarget])) slot) _).of_ok h
  | proxy =>
    rw [htarget] at h
    by_cases heq : m.target = p
    · exact guards_proxyReceive hdep hcallGrow hsend hm heq (heq ▸ htarget) h
    · exact (proxy.acts (actsAs hdep hsend hm.origin (by rw [htarget]; rfl) fun _ => heq) _).of_ok h
  | foreign id =>
    rw [htarget] at h
    exact (keeps_runForeign (actsAs hdep hsend hm.origin (by rw [htarget]; rfl)
      (hother (by simp [htarget]))) _ _).of_ok h

end Messages

/-- Plain messages guard the proxy, however deep they nest. -/
theorem keeps_plain (env : Surroundings) (hdep : Deployed d code) (depth : Nat)
    (hm : Plain d code p direct m) :
    (guards d code p direct none).Keeps (Exec.call (handle d env depth) m) := by
  induction depth generalizing m with
  | zero => exact keeps_call (grows.keeps_handle d env 0 m) fun w w' h => by cases h
  | succ depth ih =>
    exact keeps_call (grows.keeps_handle d env (depth + 1) m) fun w w' h =>
      guards_dispatch hdep (fun m' hm' => ih hm') hm h

end EscrowControl

end CloakBridge.Service
