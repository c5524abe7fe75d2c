import CloakBridge.Models.Service.EscrowRuns

/-!
# The slots of a proxy and its entry in the escrow table

A proxy is in the escrow table exactly as long as its slots say so, if `Service` forwards
nothing, the admin of the proxy only points it to `ProxyBridge`, and logic contracts leave
the reserved slots alone. `Service` changes the slots first and the table afterwards, and
no foreign code runs in between.
-/

namespace CloakBridge.Service

open Exec Function Ledger CloakBridge.Frame OpenZeppelin

/-- The program writes to no reserved slot and does not destroy its account. -/
def Foreign.Spares : Foreign → Prop
  | .stop | .revert => True
  | .selfdestruct => False
  | .sload _ next => ∀ value, (next value).Spares
  | .sstore slot _ next => slot ∉ reservedSlots ∧ next.Spares
  | .call _ _ next => ∀ returned, (next returned).Spares

/-- The program reverts in the end. -/
def Foreign.Reverts : Foreign → Prop
  | .stop | .selfdestruct => False
  | .revert => True
  | .sload _ next => ∀ value, (next value).Reverts
  | .sstore _ _ next => next.Reverts
  | .call _ _ next => ∀ returned, (next returned).Reverts

/-- Logic contracts spare the proxy and its reserved slots and do not know
`upgradeAndChangeAdmin(address)`. -/
def Harmless (p : Address) (env : Surroundings) : Prop :=
  ∀ n logic m, m.target = p → (env n logic m).Spares ∧
    ∀ a, m.data = .upgradeAndChangeAdmin a → (env n logic m).Reverts

/-- The slots of the proxy agree with its entry in the table, and its implementation is a
contract. -/
structure Custody (d : Deployment) (p : Address) (l : Ledger) : Prop where
  held : Escrowed p l → (l.reserved p).admin = d.proxyFactory ∧
    (l.reserved p).implementation = d.stateFactory ∧ (l.reserved p).executor = d.service ∧
    (l.reserved p).rollback ≠ 0
  free : ¬ Escrowed p l → (l.reserved p).executor ≠ d.service
  live : (l.code (l.reserved p).implementation).isEmpty = false

namespace Custody

variable {d : Deployment} {p : Address} {l : Ledger}

/-- The list of destroyed accounts does not matter. -/
theorem clear (h : Custody d p l) : Custody d p { l with destroyed := [] } :=
  ⟨h.held, h.free, h.live⟩

/-- A transaction that destroys neither the proxy nor the contract behind it keeps the custody. -/
theorem settle (h : Custody d p l) (hp : p ∉ l.destroyed)
    (hlogic : l.addressAt p implementationSlot ∉ l.destroyed) : Custody d p l.settle := by
  have hsame := settle_reserved hp
  refine ⟨?_, ?_, ?_⟩
  · rw [hsame]
    exact h.held
  · rw [hsame]
    exact h.free
  · rw [hsame]
    exact (congrArg Code.isEmpty (settle_code hlogic)).trans h.live

end Custody

/-- The logic contract that a proxy goes back to, and the proof of its code. -/
def Ledger.record (l : Ledger) (p : Address) : Address × Word :=
  ((l.reserved p).rollback, (l.reserved p).proof)

/-- The record of the proxy is the same, or empty, or was made with the current codes. -/
def Recorded (d : Deployment) (p : Address) (l l' : Ledger) : Prop :=
  l'.record p = l.record p ∨ (l'.reserved p).rollback = 0 ∨
    (l'.reserved p).proof = d.proofOf l.code (l'.reserved p).rollback d.stateFactory

/-- The logic contract that calldata for `Service` names for the proxy. -/
def Calldata.logicOf (p : Address) : Calldata → Option Address
  | .escrow proxy logic => if proxy = p then some logic else none
  | .upgradeProxy proxy logic => if proxy = p then some logic else none
  | _ => none

/-- The message gives `Service` a logic contract for the proxy. -/
def Entry.Names (d : Deployment) (p logic : Address) (e : Entry) : Prop :=
  e.message.target = d.service ∧ e.message.data.logicOf p = some logic

/-- The logic contract of an escrowed proxy is the one it had, or was named in a message. -/
def Traced (d : Deployment) (p : Address) (w w' : World) : Prop :=
  Escrowed p w'.ledger →
    Escrowed p w.ledger ∧ (w'.ledger.reserved p).rollback = (w.ledger.reserved p).rollback ∨
    ∃ e ∈ w'.log, e.before.code = w.ledger.code ∧ e.Names d p (w'.ledger.reserved p).rollback

variable {d : Deployment} {p : Address} {w w' : World}

private theorem Traced.of_free (h : ¬ Escrowed p w'.ledger) : Traced d p w w' :=
  fun he => absurd he h

private theorem Traced.trans {w₁ w₂ w₃ : World} (hgrow : grows.rel w₁ w₂) (hgrow' : grows.rel w₂ w₃)
    (h : Traced d p w₁ w₂) (h' : Traced d p w₂ w₃) : Traced d p w₁ w₃ := by
  intro he
  rcases h' he with ⟨he₂, hsame⟩ | ⟨e, hmem, hcode, hnames⟩
  · rw [hsame]
    rcases h he₂ with hkept | ⟨e, hmem, hnames⟩
    · exact .inl hkept
    · exact .inr ⟨e, hgrow'.1.subset hmem, hnames⟩
  · exact .inr ⟨e, hmem, hcode.trans hgrow.2, hnames⟩

/-- The logic contracts that run in an action are harmless for the proxy. -/
def Action.Harmless (p : Address) : Action → Prop
  | .transact t => Service.Harmless p t.env
  | .create _ _ _ => True

/-- What may happen on the chain: calls to `Service` that do not make it forward calldata, calls to
the proxy by others than its admin, and the admin pointing it to `ProxyBridge`. The contract behind
the proxy is not destroyed. -/
structure Permitted (d : Deployment) (p : Address) (l : Ledger) (a : Action) : Prop where
  harmless : a.Harmless p
  ordinary : a.All d (Ordinary d p) l
  leaves : a.Leaves d p implementationSlot l

/-- The record of the proxy was last changed in a ledger with the given codes. -/
def LastRecorded (d : Deployment) (p : Address) (l₀ : Ledger) (codes : Address → Code)
    (l : Ledger) : Prop :=
  ∃ l₁ l₂ a, Reaches (step d) (Permitted d p) l₀ l₁ ∧ l₁.code = codes ∧ Permitted d p l₁ a ∧
    step d l₁ a = some l₂ ∧ l₂.record p ≠ l₁.record p ∧
    Reaches (step d) (fun s a => Permitted d p s a ∧
      ∀ s', step d s a = some s' → s'.record p = s.record p) l₂ l

/-- The slots of an escrowed proxy. -/
structure InEscrow (d : Deployment) (p : Address) (l₀ l : Ledger) : Prop where
  admin : (l.reserved p).admin = d.proxyFactory
  implementation : (l.reserved p).implementation = d.stateFactory
  executor : (l.reserved p).executor = d.service
  rollback : (l.reserved p).rollback ≠ 0
  proof : ∃ codes, LastRecorded d p l₀ codes l ∧ (l.reserved p).proof =
    StateFactory.escrowProof (d.extcodehash (codes (l.reserved p).rollback)) d.stateFactory

namespace EscrowCustody

/-- Code in which all messages are ordinary keeps the custody of the proxy. -/
structure Keeping (d : Deployment) (code : Address → Code) (p : Address) (w w' : World) : Prop where
  grow : grows.rel w w'
  spared : w.ledger.code = code → (∀ e ∈ w'.log, Ordinary d p e) → Custody d p w.ledger →
    p ∈ w'.ledger.destroyed → p ∈ w.ledger.destroyed
  outcome : w.ledger.code = code → (∀ e ∈ w'.log, Ordinary d p e) → Custody d p w.ledger →
    Custody d p w'.ledger ∧ Recorded d p w.ledger w'.ledger ∧ Traced d p w w'

variable {a logic : Address} {m : Message} {send : Message → Exec Unit} {c : Context} {f : Foreign}
  {env : Surroundings} {data : Calldata} {l : Ledger} {t : Transaction}

private theorem Keeping.of_same {code : Address → Code} (hgrow : grows.rel w w')
    (hmaster : (w'.ledger.escrows p).master = (w.ledger.escrows p).master)
    (hreserved : w'.ledger.reserved p = w.ledger.reserved p)
    (hspared : p ∈ w'.ledger.destroyed → p ∈ w.ledger.destroyed) : Keeping d code p w w' := by
  refine ⟨hgrow, fun _ _ _ => hspared, fun _ _ h => ⟨⟨?_, ?_, ?_⟩, .inl ?_, ?_⟩⟩
  · rw [Escrowed, hmaster, hreserved]
    exact h.held
  · rw [Escrowed, hmaster, hreserved]
    exact h.free
  · rw [hreserved, hgrow.2]
    exact h.live
  · rw [record, hreserved, record]
  · intro he
    rw [Escrowed, hmaster] at he
    exact .inl ⟨he, by rw [hreserved]⟩

private theorem Recorded.trans {l₁ l₂ l₃ : Ledger} (hcode : l₂.code = l₁.code)
    (h : Recorded d p l₁ l₂)
    (h' : Recorded d p l₂ l₃) : Recorded d p l₁ l₃ := by
  rcases h' with hsame | hzero | hnew
  · have hfields : (l₃.reserved p).rollback = (l₂.reserved p).rollback ∧
        (l₃.reserved p).proof = (l₂.reserved p).proof := Prod.mk.inj hsame
    rw [Recorded, hsame, hfields.1, hfields.2]
    exact h
  · exact .inr (.inl hzero)
  · rw [hcode] at hnew
    exact .inr (.inr hnew)

/-- Code that keeps the custody of the proxy. -/
def keeping (d : Deployment) (code : Address → Code) (p : Address) : Frame World where
  rel := Keeping d code p
  refl w := .of_same (grows.refl w) rfl rfl id
  trans {w₁ w₂ w₃} h h' := by
    have hsub : (∀ e ∈ w₃.log, Ordinary d p e) → ∀ e ∈ w₂.log, Ordinary d p e :=
      fun hordinary e he => hordinary e (h'.grow.1.subset he)
    refine ⟨grows.trans h.grow h'.grow, fun hcode hordinary hcustody hmem =>
      h.spared hcode (hsub hordinary) hcustody (h'.spared (h.grow.2.trans hcode) hordinary
        (h.outcome hcode (hsub hordinary) hcustody).1 hmem), fun hcode hordinary hcustody => ?_⟩
    obtain ⟨hcustody₂, hrecord₂, htraced₂⟩ := h.outcome hcode (hsub hordinary) hcustody
    obtain ⟨hcustody₃, hrecord₃, htraced₃⟩ := h'.outcome (h.grow.2.trans hcode) hordinary hcustody₂
    exact ⟨hcustody₃, Recorded.trans h.grow.2 hrecord₂ hrecord₃,
      Traced.trans h.grow h'.grow htraced₂ htraced₃⟩

variable {d : Deployment} {code : Address → Code} {p : Address}

private theorem keeps_sstore {slot : Word} (h : a = p → slot ∉ reservedSlots) (value : Word) :
    (keeping d code p).Keeps (Exec.sstore a slot value) := by
  refine keeps_modify fun w => .of_same (grows.keeps_sstore a slot value w) rfl ?_ id
  apply SameReserved.reserved_eq
  intro slot' hslot'
  dsimp only
  by_cases ha : p = a
  · subst ha
    have hne : slot' ≠ slot := fun heq => h rfl (heq ▸ hslot')
    rw [update_self, update_of_ne hne]
  · rw [update_of_ne ha]

private theorem keeps_selfdestruct (h : a ≠ p) : (keeping d code p).Keeps (Exec.selfdestruct a) :=
  keeps_modify fun w => .of_same (grows.keeps_selfdestruct a w) rfl rfl fun hmem =>
    (List.mem_cons.mp hmem).resolve_left h.symm

private theorem keeps_setEscrow (h : a ≠ p) (e : Escrow) :
    (keeping d code p).Keeps (setEscrow a e) := by
  refine keeps_modify fun w => .of_same (grows.keeps_setEscrow a e w) ?_ rfl id
  dsimp only
  rw [update_of_ne h.symm]

private theorem keeps_setFactoryOwner (owner : Address) :
    (keeping d code p).Keeps (setFactoryOwner owner) :=
  keeps_modify fun w => .of_same (grows.keeps_setFactoryOwner owner w) rfl rfl id

private theorem keeps_call {callee : Message → Exec Unit} (hgrow : grows.Keeps (callee m))
    (h : ∀ w w' : World, ⟨m, w.ledger⟩ ∈ w.log → Ordinary d p ⟨m, w.ledger⟩ →
      callee m w = .ok () w' → Keeping d code p w w') :
    (keeping d code p).Keeps (Exec.call callee m) := by
  intro w
  have hgrow' := grows.keeps_call hgrow w
  cases hrun : Exec.call callee m w with
  | ok u w' =>
    rw [stateAfter, hrun] at hgrow' ⊢
    have hcallee := call_eq_ok.mp hrun
    have hkeep : (∀ e ∈ w'.log, Ordinary d p e) →
        Keeping d code p { w with log := ⟨m, w.ledger⟩ :: w.log } w' := fun hordinary =>
      h _ w' (List.mem_cons_self ..)
        (hordinary _ ((hgrow.of_ok hcallee).1.subset (List.mem_cons_self ..))) hcallee
    exact ⟨hgrow', fun hcode hordinary => (hkeep hordinary).spared hcode hordinary,
      fun hcode hordinary hcustody => (hkeep hordinary).outcome hcode hordinary hcustody⟩
  | error r w' =>
    rw [stateAfter, hrun] at hgrow' ⊢
    have hledger := ledger_of_call_error hrun
    refine .of_same hgrow' ?_ ?_ ?_
    all_goals rw [hledger]
    exact id

/-- Programs that spare the proxy keep what writing to the other slots keeps. -/
theorem keeps_run_of_spares {F : Frame World}
    (hstore : ∀ slot value, slot ∉ reservedSlots → F.Keeps (Exec.sstore c.self slot value))
    (hsend : ∀ target data, F.Keeps (send ⟨c.origin, c.self, target, data⟩)) (h : f.Spares) :
    F.Keeps (f.run send c) := by
  induction f with
  | stop => exact keeps_pure ()
  | revert => exact keeps_throw _
  | selfdestruct => exact h.elim
  | sload slot next ih => exact keeps_bind (keeps_sload _ _) fun value => ih value (h value)
  | sstore slot value next ih => exact keeps_bind (hstore slot value h.1) fun _ => ih h.2
  | call target data next ih =>
    exact keeps_bind (keeps_attempt (hsend target data)) fun returned =>
      ih returned (h returned)

private theorem run_ne_ok_of_reverts (h : f.Reverts) (w w' : World) :
    f.run send c w ≠ .ok () w' := by
  intro hrun
  induction f generalizing w with
  | stop | selfdestruct => exact h
  | revert => cases hrun
  | sload slot next ih =>
    obtain ⟨value, w₁, -, hnext⟩ := bind_eq_ok.mp hrun
    exact ih value (h value) w₁ hnext
  | sstore slot value next ih =>
    obtain ⟨_, w₁, -, hnext⟩ := bind_eq_ok.mp hrun
    exact ih h w₁ hnext
  | call target data next ih =>
    obtain ⟨returned, w₁, -, hnext⟩ := bind_eq_ok.mp hrun
    exact ih returned (h returned) w₁ hnext

private theorem code_of_delegate_ok (henv : Harmless p env) {origin sender : Address}
    (hlive : (w.ledger.code logic).isEmpty = false)
    (h : delegate d env send ⟨origin, sender, p⟩ logic (.upgradeAndChangeAdmin a) w = .ok () w') :
    w.ledger.code logic = .proxyBridge := by
  have hread : Exec.code logic w = .ok (w.ledger.code logic) w := rfl
  have hforeign : runForeign env send ⟨origin, sender, p⟩ logic (.upgradeAndChangeAdmin a) w ≠
      .ok () w' := by
    intro hrun
    exact run_ne_ok_of_reverts ((henv _ _ ⟨origin, sender, p, _⟩ rfl).2 a rfl) w w' hrun
  rw [delegate, bind_of_ok hread] at h
  cases hcode : w.ledger.code logic with
  | proxyBridge => rfl
  | absent | plain =>
    rw [hcode] at hlive
    cases hlive
  | stateFactory =>
    rw [hcode] at h
    cases h
  | service | proxyFactory | proxy | foreign id =>
    rw [hcode] at h
    exact absurd h hforeign

/-- Messages that do not come from the middle of what `Service` does with the proxy. -/
structure Plain (d : Deployment) (p : Address) (m : Message) : Prop where
  sender : m.sender ≠ 0
  toProxy : m.target = p → m.sender ≠ d.service ∧
    (m.sender = d.proxyFactory → ∃ a, m.data = .upgradeAndChangeAdmin a)

section Proxy

variable {env : Surroundings} {send : Message → Exec Unit} {c : Context} {w w' : World}

/-- What is left of the escrow table and the codes by code that only writes reserved slots. -/
theorem escrowed_iff_of_writes {slots : List Word} (h : (writesSlots a slots).rel w w') :
    Escrowed p w'.ledger ↔ Escrowed p w.ledger := by
  rw [Escrowed, Escrowed, h.2.2.1]

/-- Somebody other than `Service` finds `StateFactory` behind the proxy. -/
theorem keeping_stateReceive (hdep : Deployed d code) (hsender : c.sender ≠ d.service)
    (hself : c.self = p)
    (himpl : w.ledger.code (w.ledger.reserved p).implementation = .stateFactory)
    (h : StateFactory.receive d c data w = .ok () w') : Keeping d code p w w' := by
  subst hself
  have hwrites := (keeps_stateReceive d (mayWrite_writesSlots c reservedSlots) data).of_ok h
  have hgrow : grows.rel w w' :=
    (keeps_stateReceive d (fun _ _ => grows.keeps_sstore _ _) data).of_ok h
  refine ⟨hgrow, fun _ _ _ hmem => hwrites.2.2.2.1 ▸ hmem, fun hcode _ hcustody => ?_⟩
  rw [hcode] at himpl
  have hstate := (hdep.stateFactory _).mp himpl
  have hesc := escrowed_iff_of_writes (p := c.self) hwrites
  have hexecutor : Escrowed c.self w.ledger → (w.ledger.reserved c.self).executor ≠ 0 ∧
      (w.ledger.reserved c.self).executor ≠ c.sender := by
    intro he
    rw [(hcustody.held he).2.2.1]
    exact ⟨hdep.ne_zero hdep.isEmpty_service, hsender.symm⟩
  cases data with
  | updateState proof keys vals =>
    obtain ⟨-, rfl⟩ := pure_eq_ok.mp h
    exact ⟨hcustody, .inl rfl, fun he => .inl ⟨he, rfl⟩⟩
  | initialise logic =>
    obtain ⟨hzero, hlogic, hreserved⟩ := initialise_ok h
    have hfree : ¬ Escrowed c.self w.ledger := fun he => (hexecutor he).1 hzero
    refine ⟨⟨fun he => absurd (hesc.mp he) hfree, fun _ => ?_, ?_⟩, .inr (.inr ?_),
      .of_free (fun he => hfree (hesc.mp he))⟩
    · rw [hreserved]
      exact hsender
    · rw [hreserved, hgrow.2]
      exact hcustody.live
    · rw [hreserved]
      dsimp only
      rw [hstate]
  | upgrade logic =>
    obtain ⟨hmine, hlogic, hreserved⟩ := stateUpgrade_ok h
    have hfree : ¬ Escrowed c.self w.ledger := fun he => (hexecutor he).2 hmine
    refine ⟨⟨fun he => absurd (hesc.mp he) hfree, fun _ => ?_, ?_⟩, .inr (.inr ?_),
      .of_free (fun he => hfree (hesc.mp he))⟩
    · rw [hreserved]
      exact hcustody.free hfree
    · rw [hreserved, hgrow.2]
      exact hcustody.live
    · rw [hreserved]
      dsimp only
      rw [hstate]
  | cancel master =>
    obtain ⟨hmine, hlogic, -, hreserved⟩ := stateCancel_ok h
    have hfree : ¬ Escrowed c.self w.ledger := fun he => (hexecutor he).2 hmine
    refine ⟨⟨fun he => absurd (hesc.mp he) hfree, fun _ => ?_, ?_⟩, .inr (.inl ?_),
      .of_free (fun he => hfree (hesc.mp he))⟩
    · rw [hreserved]
      exact (hdep.ne_zero hdep.isEmpty_service).symm
    · rw [hreserved, hgrow.2]
      exact hlogic
    · rw [hreserved]
  | _ => cases h

private theorem keeping_bridgeReceive (hself : c.self = p)
    (hadmin : c.sender ≠ (w.ledger.reserved p).admin)
    (h : ProxyBridge.receive d c data w = .ok () w') : Keeping d code p w w' := by
  subst hself
  have hwrites := (keeps_bridgeReceive d (mayWrite_writesSlots c reservedSlots) data).of_ok h
  have hgrow : grows.rel w w' :=
    (keeps_bridgeReceive d (fun _ _ => grows.keeps_sstore _ _) data).of_ok h
  refine ⟨hgrow, fun _ _ _ hmem => hwrites.2.2.2.1 ▸ hmem, fun hcode _ hcustody => ?_⟩
  have hesc := escrowed_iff_of_writes (p := c.self) hwrites
  cases data with
  | upgradeAndChangeAdmin newImplementation =>
    obtain ⟨hsender, -, hlive, hreserved⟩ := bridge_ok h
    have hfree : ¬ Escrowed c.self w.ledger := by
      intro he
      rw [(hcustody.held he).1] at hadmin
      exact hadmin hsender.symm
    refine ⟨⟨fun he => absurd (hesc.mp he) hfree, fun _ => ?_, ?_⟩, .inl ?_,
      .of_free (fun he => hfree (hesc.mp he))⟩
    · rw [hreserved]
      exact hcustody.free hfree
    · rw [hreserved, hgrow.2]
      exact hlive
    · rw [record, hreserved, record]
  | _ => cases h

private theorem keeping_upgradeTo (hself : c.self = p)
    (hadmin : (w.ledger.reserved p).admin ≠ d.proxyFactory)
    {newImplementation : Address} (hlive : (w.ledger.code newImplementation).isEmpty = false)
    (h : setAddressSlot c.self implementationSlot newImplementation w = .ok () w') :
    Keeping d code p w w' := by
  subst hself
  have hw' := setAddressSlot_ok h
  refine ⟨?_, fun _ _ _ hmem => ?_, fun _ _ hcustody => ?_⟩
  · rw [hw']
    exact grows.keeps_sstore _ _ _ w
  · rw [hw'] at hmem
    exact hmem
  · have hfree : ¬ Escrowed c.self w.ledger := fun he => hadmin (hcustody.held he).1
    rw [hw']
    refine ⟨⟨fun he => absurd he hfree, fun _ => ?_, ?_⟩, .inl ?_, .of_free hfree⟩
    · rw [World.reserved_setImplementation]
      exact hcustody.free hfree
    · rw [World.reserved_setImplementation]
      exact hlive
    · rw [record, World.reserved_setImplementation, record]

variable (hdep : Deployed d code) (henv : Harmless p env) (hproxy : code p = .proxy)
  (hsend : ∀ m, Plain d p m → (keeping d code p).Keeps (send m))

include hdep hsend

private theorem keeps_send (hself : (code c.self).isMortal = true) (target : Address)
    (data : Calldata) :
    (keeping d code p).Keeps (send ⟨c.origin, c.self, target, data⟩) :=
  hsend _ ⟨hdep.ne_zero (Code.isEmpty_of_isMortal hself), fun _ => ⟨hdep.ne_service hself, fun h =>
    absurd h (hdep.ne_proxyFactory hself)⟩⟩

include henv hproxy

/-- Logic contracts that are not part of the service. -/
theorem keeps_runForeignIn (hself : c.self = p) (logic : Address) (data : Calldata) :
    (keeping d code p).Keeps (runForeign env send c logic data) := by
  subst hself
  apply keeps_bind keeps_get
  intro v
  exact keeps_run_of_spares (fun slot value hslot => keeps_sstore (fun _ => hslot) value)
    (keeps_send hdep hsend (Code.isMortal_of_proxy hproxy))
    (henv _ _ ⟨c.origin, c.sender, c.self, data⟩ rfl).1

/-- Everybody but the admin and `Service` is delegated. -/
theorem keeping_delegate (hcode : w.ledger.code = code) (hself : c.self = p)
    (hsender : c.sender ≠ d.service) (hadmin : c.sender ≠ (w.ledger.reserved p).admin)
    (h : delegate d env send c (w.ledger.reserved p).implementation data w = .ok () w') :
    Keeping d code p w w' := by
  have hread : Exec.code (w.ledger.reserved p).implementation w =
      .ok (w.ledger.code (w.ledger.reserved p).implementation) w := rfl
  rw [delegate, bind_of_ok hread] at h
  cases himpl : w.ledger.code (w.ledger.reserved p).implementation with
  | absent | plain =>
    rw [himpl] at h
    obtain ⟨-, rfl⟩ := pure_eq_ok.mp h
    exact (keeping d code p).refl w'
  | proxyBridge =>
    rw [himpl] at h
    exact keeping_bridgeReceive hself hadmin h
  | stateFactory =>
    rw [himpl] at h
    exact keeping_stateReceive hdep hsender hself himpl h
  | service | proxyFactory | proxy | foreign id =>
    rw [himpl] at h
    exact (keeps_runForeignIn hdep henv hproxy hsend hself _ data).of_ok h

/-- A plain message to the proxy. -/
theorem keeping_proxyReceive (hm : Plain d p m) (htarget : m.target = p)
    (hcode : w.ledger.code = code) (hordinary : Ordinary d p ⟨m, w.ledger⟩)
    (h : TransparentUpgradeableProxy.receive d env send ⟨m.origin, m.sender, m.target⟩ m.data w =
      .ok () w') : Keeping d code p w w' := by
  obtain ⟨hservice, hfactory⟩ := hm.toProxy htarget
  by_cases hadmin : m.sender = w.ledger.addressAt m.target adminSlot
  · have hsender : m.sender ≠ d.proxyFactory := by
      intro heq
      obtain ⟨a, ha⟩ := hfactory heq
      rw [ha, proxy.refuses hadmin] at h
      cases h
    have hdata := hordinary.2 htarget (htarget ▸ hadmin) hsender
    cases hm' : m.data with
    | upgradeTo newImplementation =>
      rw [hm'] at h
      obtain ⟨hlive, hset⟩ := proxy.upgrades hadmin h
      subst htarget
      exact keeping_upgradeTo rfl (fun heq => hsender (hadmin.trans heq)) hlive hset
    | _ =>
      rw [hm'] at hdata
      cases hdata
  · rw [proxy.delegates hadmin] at h
    subst htarget
    exact keeping_delegate hdep henv hproxy hsend hcode rfl hservice hadmin h

end Proxy

section Service

variable {env : Surroundings} {depth : Nat} {c : Context} {w w' : World}

private theorem callContract_held (hdep : Deployed d w.ledger.code)
    (hproxy : w.ledger.code p = .proxy)
    (hself : c.self = d.service) (hcustody : Custody d p w.ledger) (hesc : Escrowed p w.ledger)
    (h : c.callContract (Exec.call (handle d env depth)) p data w = .ok () w') :
    ∃ v : World, v.ledger = w.ledger ∧
      StateFactory.receive d ⟨c.origin, d.service, p⟩ data v = .ok () w' := by
  obtain ⟨hadmin, himpl, -⟩ := hcustody.held hesc
  obtain ⟨-, n, v, hv, hrun⟩ := callContract_ok h
  have hproxy' : v.ledger.code p = .proxy := by
    rw [hv]
    exact hproxy
  have hadmin' : d.service ≠ (v.ledger.reserved p).admin := by
    rw [hv, hadmin]
    exact hdep.proxyFactory_ne_service.symm
  have hstate : v.ledger.code (v.ledger.reserved p).implementation = .stateFactory := by
    rw [hv, himpl]
    exact (hdep.stateFactory _).mpr rfl
  rw [hself, dispatch_of_proxy hproxy',
    proxyReceive_of_stateFactory (c := ⟨c.origin, d.service, p⟩) hadmin' hstate] at hrun
  exact ⟨v, hv, hrun⟩

variable (hself : c.self = d.service) (hsender : c.sender ≠ 0)

include hself hsender

private theorem upgrade_ok (hdep : Deployed d w.ledger.code) (hproxy : w.ledger.code p = .proxy)
    (hcustody : Custody d p w.ledger)
    (h : upgrade (Exec.call (handle d env depth)) c p logic w = .ok () w') :
    Escrowed p w.ledger ∧ logic ≠ 0 ∧ w'.ledger.escrows = w.ledger.escrows ∧
      w'.ledger.reserved p = { w.ledger.reserved p with
        rollback := logic
        proof := d.proofOf w.ledger.code logic d.stateFactory } ∧
      w'.ledger.destroyed = w.ledger.destroyed := by
  simp only [upgrade, onlyEscrow, bind_assoc, escrow_bind, require_bind] at h
  obtain ⟨hmaster, h⟩ := h
  have hesc : Escrowed p w.ledger := by
    rw [Escrowed, hmaster]
    exact hsender
  obtain ⟨v, hv, hrun⟩ := callContract_held hdep hproxy hself hcustody hesc h
  obtain ⟨-, hlogic, hreserved⟩ := stateUpgrade_ok hrun
  obtain ⟨-, -, hescrows, hdestroyed, -⟩ := (keeps_stateReceive d
    (mayWrite_writesSlots ⟨c.origin, d.service, p⟩ reservedSlots) (.upgrade logic)).of_ok hrun
  dsimp only at hreserved
  rw [hv] at hreserved hescrows hdestroyed
  refine ⟨hesc, hlogic, hescrows, ?_, hdestroyed⟩
  dsimp only
  rw [hreserved, (hcustody.held hesc).2.1]

/-- The master takes the proxy back. -/
theorem cancel_ok (hdep : Deployed d w.ledger.code) (hproxy : w.ledger.code p = .proxy)
    (hcustody : Custody d p w.ledger)
    (h : cancel (Exec.call (handle d env depth)) c p w = .ok () w') :
    (w.ledger.escrows p).master = c.sender ∧
      (w.ledger.code (w.ledger.reserved p).rollback).isEmpty = false ∧ ¬ Escrowed p w'.ledger ∧
      w'.ledger.reserved p = ⟨c.sender, (w.ledger.reserved p).rollback, 0, 0, 0⟩ ∧
      w'.ledger.destroyed = w.ledger.destroyed := by
  simp only [cancel, onlyEscrow, onlyNotEnhanced, bind_assoc, escrow_bind, require_bind] at h
  obtain ⟨hmaster, -, h⟩ := h
  have hesc : Escrowed p w.ledger := by
    rw [Escrowed, hmaster]
    exact hsender
  obtain ⟨_, w₁, hcall, hdelete⟩ := bind_eq_ok.mp h
  obtain ⟨v, hv, hrun⟩ := callContract_held hdep hproxy hself hcustody hesc hcall
  obtain ⟨-, hlive, -, hreserved⟩ := stateCancel_ok hrun
  obtain ⟨-, -, -, hdestroyed, -⟩ := (keeps_stateReceive d
    (mayWrite_writesSlots ⟨c.origin, d.service, p⟩ reservedSlots) (.cancel c.sender)).of_ok hrun
  dsimp only at hlive hreserved
  rw [hv] at hlive hreserved hdestroyed
  obtain ⟨-, hfinal⟩ := modifyGet_eq_ok.mp hdelete
  refine ⟨hmaster, hlive, ?_, ?_, ?_⟩
  · intro he
    apply he
    rw [hfinal]
    change (update w₁.ledger.escrows p ⟨0, false⟩ p).master = 0
    rw [update_self]
  · rw [hfinal]
    exact hreserved
  · rw [hfinal]
    exact hdestroyed

variable (hdep : Deployed d code) (henv : Harmless p env) (hproxy : code p = .proxy)

include hdep henv hproxy

/-- What `Service` does with the proxy itself. -/
theorem keeping_receive_proxy (hgrow : grows.rel w w')
    (hlogged : ⟨⟨c.origin, c.sender, c.self, data⟩, w.ledger⟩ ∈ w.log)
    (hdata : (∃ logic, data = .escrow p logic) ∨ (∃ logic, data = .upgradeProxy p logic) ∨
      data = .cancel p) (h : receive d (Exec.call (handle d env depth)) c data w = .ok () w') :
    Keeping d code p w w' := by
  suffices w.ledger.code = code → Custody d p w.ledger → w'.ledger.destroyed = w.ledger.destroyed ∧
      Custody d p w'.ledger ∧ Recorded d p w.ledger w'.ledger ∧ Traced d p w w' from ⟨hgrow, fun
      hcode _ hcustody hmem => (this hcode hcustody).1 ▸ hmem, fun hcode _ hcustody => (this hcode
      hcustody).2⟩
  intro hcode hcustody
  have hdep' : Deployed d w.ledger.code := by
    rw [hcode]
    exact hdep
  have hproxy' : w.ledger.code p = .proxy := by
    rw [hcode]
    exact hproxy
  have hlive : (w.ledger.code d.stateFactory).isEmpty = false := by
    rw [(hdep'.stateFactory _).mpr rfl]
    rfl
  rcases hdata with ⟨logic, rfl⟩ | ⟨logic, rfl⟩ | rfl
  · have hbridge : ∀ n w₁ w₂, w₁.ledger = w.ledger → delegate d env (Exec.call (handle d env n))
        ⟨c.origin, d.proxyFactory, p⟩ (w.ledger.reserved p).implementation (.upgradeAndChangeAdmin
        d.stateFactory) w₁ = .ok () w₂ → w.ledger.code (w.ledger.reserved p).implementation =
        .proxyBridge := by
      intro n w₁ w₂ hw₁ hdelegate
      rw [← hw₁] at hdelegate ⊢
      refine code_of_delegate_ok henv ?_ hdelegate
      rw [hw₁]
      exact hcustody.live
    have hstarted := escrow_ok hdep' hself hproxy' hbridge h
    have hesc : Escrowed p w'.ledger := by
      rw [Escrowed, hstarted.escrows, update_self]
      exact hsender
    refine ⟨hstarted.destroyed, ⟨fun _ => ?_, fun hfree => absurd hesc hfree, ?_⟩,
      .inr (.inr ?_), fun _ => .inr ⟨_, hgrow.1.subset hlogged, rfl, hself, ?_⟩⟩
    · rw [hstarted.reserved]
      exact ⟨rfl, rfl, rfl, hstarted.implementation_ne⟩
    · rw [hstarted.reserved, hstarted.code]
      exact hlive
    · rw [hstarted.reserved]
    · rw [hstarted.reserved]
      exact if_pos rfl
  · obtain ⟨hesc, hlogic, hescrows, hreserved, hdestroyed⟩ :=
      upgrade_ok hself hsender hdep' hproxy' hcustody h
    obtain ⟨hadmin, himpl, hexecutor, -⟩ := hcustody.held hesc
    refine ⟨hdestroyed, ⟨fun _ => ?_, fun hfree => absurd ?_ hfree, ?_⟩, .inr (.inr ?_),
      fun _ => .inr ⟨_, hgrow.1.subset hlogged, rfl, hself, ?_⟩⟩
    · rw [hreserved]
      exact ⟨hadmin, himpl, hexecutor, hlogic⟩
    · rw [Escrowed, hescrows]
      exact hesc
    · rw [hreserved, hgrow.2]
      exact hcustody.live
    · rw [hreserved]
    · rw [hreserved]
      exact if_pos rfl
  · obtain ⟨-, hlogic, hfree, hreserved, hdestroyed⟩ :=
      cancel_ok hself hsender hdep' hproxy' hcustody h
    refine ⟨hdestroyed, ⟨fun hesc => absurd hesc hfree, fun _ => ?_, ?_⟩, .inr (.inl ?_),
      .of_free hfree⟩
    · rw [hreserved]
      exact (hdep.ne_zero hdep.isEmpty_service).symm
    · rw [hreserved, hgrow.2]
      exact hlogic
    · rw [hreserved]

end Service

section Messages

variable {env : Surroundings} {depth : Nat} {w w' : World} (hdep : Deployed d code)
  (henv : Harmless p env) (hproxy : code p = .proxy)
  (hsend : ∀ m, Plain d p m → (keeping d code p).Keeps (Exec.call (handle d env depth) m))
  {x : Address}

private theorem keeps_privacyEnhancement : (keeping d code p).Keeps (privacyEnhancement c x) := by
  apply keeps_bind keeps_onlyEscrow
  intro _
  apply keeps_bind keeps_onlyNotEnhanced
  intro _ w
  have hread : Exec.escrow x w = .ok (w.ledger.escrows x) w := rfl
  rw [stateAfter_bind_of_ok hread]
  refine .of_same (grows.keeps_setEscrow _ _ w) ?_ rfl id
  change (update w.ledger.escrows x _ p).master = _
  by_cases heq : p = x
  · subst heq
    rw [update_self]
  · rw [update_of_ne heq]

include hdep hsend

private theorem keeps_sendService (hself : c.self = d.service) (hx : x ≠ p) (data : Calldata) :
    (keeping d code p).Keeps (Exec.call (handle d env depth) ⟨c.origin, c.self, x, data⟩) := by
  refine hsend _ ⟨?_, fun htarget => absurd htarget hx⟩
  rw [hself]
  exact hdep.ne_zero hdep.isEmpty_service

include henv hproxy

/-- `Service` handles a message that does not make it forward anything. -/
theorem keeping_receive (hself : c.self = d.service) (hsender : c.sender ≠ 0)
    (hlogged : ⟨⟨c.origin, c.sender, c.self, data⟩, w.ledger⟩ ∈ w.log)
    (hdata : data.updates = false)
    (h : receive d (Exec.call (handle d env depth)) c data w = .ok () w') :
    Keeping d code p w w' := by
  have hgrow : grows.rel w w' := (grows.keeps_receive d
    (fun m => grows.keeps_call (grows.keeps_handle d env depth m)) c data).of_ok h
  have hfactory : d.proxyFactory ≠ p := (hdep.ne_proxyFactory (Code.isMortal_of_proxy hproxy)).symm
  have hother : ∀ x, x ≠ p → ∀ data, (keeping d code p).Keeps
      (Exec.call (handle d env depth) ⟨c.origin, c.self, x, data⟩) := fun x hx data =>
    keeps_sendService hdep hsend hself hx data
  cases data with
  | escrow proxy logic =>
    by_cases hp : proxy = p
    · subst hp
      exact keeping_receive_proxy hself hsender hdep henv hproxy hgrow hlogged (.inl ⟨logic, rfl⟩) h
    · exact (keeps_escrowProxy (hother proxy hp) (hother _ hfactory _)
        (keeps_setEscrow hp _)).of_ok h
  | privacyEnhancement proxy =>
    exact keeps_privacyEnhancement.of_ok h
  | upgradeProxy proxy logic =>
    by_cases hp : proxy = p
    · subst hp
      exact keeping_receive_proxy hself hsender hdep henv hproxy hgrow hlogged
        (.inr (.inl ⟨logic, rfl⟩)) h
    · exact (keeps_upgrade (hother proxy hp)).of_ok h
  | cancel proxy =>
    by_cases hp : proxy = p
    · subst hp
      exact keeping_receive_proxy hself hsender hdep henv hproxy hgrow hlogged (.inr (.inr rfl)) h
    · exact (keeps_cancel (hother proxy hp) (keeps_setEscrow hp _)).of_ok h
  | updateProxy _ _ | updateProxies _ _ | updateStateAndCancel _ _ => cases hdata
  | _ => cases h

/-- Whatever code a plain message reaches, the custody is kept. -/
theorem keeping_dispatch (hm : Plain d p m) (hlogged : ⟨m, w.ledger⟩ ∈ w.log)
    (hordinary : Ordinary d p ⟨m, w.ledger⟩)
    (h : dispatch d env (Exec.call (handle d env depth)) m w = .ok () w') :
    Keeping d code p w w' := by
  have hgrow : grows.rel w w' := (grows.keeps_dispatch d env
    (fun m' => grows.keeps_call (grows.keeps_handle d env depth m')) m).of_ok h
  suffices w.ledger.code = code → Keeping d code p w w' from
    ⟨hgrow, fun hcode => (this hcode).spared hcode, fun hcode => (this hcode).outcome hcode⟩
  intro hcode
  have hread : Exec.code m.target w = .ok (code m.target) w := by
    rw [← hcode]
    rfl
  have hother : code m.target ≠ .proxy → m.target ≠ p := by
    intro hne heq
    rw [heq] at hne
    exact hne hproxy
  have hstore : m.target ≠ p → ∀ slot value, (keeping d code p).Keeps
      (Exec.sstore m.target slot value) := fun hne slot value =>
    keeps_sstore (fun heq => absurd heq hne) value
  have hacts : (code m.target).isMortal = true → m.target ≠ p → ActsAs (keeping d code p)
      (Exec.call (handle d env depth)) ⟨m.origin, m.sender, m.target⟩ := fun hmortal hne =>
    ⟨hstore hne, keeps_selfdestruct hne, keeps_send hdep hsend hmortal⟩
  rw [dispatch, bind_of_ok hread] at h
  cases htarget : code m.target with
  | absent | plain =>
    rw [htarget] at h
    exact ((keeps_pure () : (keeping d code p).Keeps (pure () : Exec Unit))).of_ok h
  | service =>
    rw [htarget] at h
    have hself := (hdep.service _).mp htarget
    exact keeping_receive hdep henv hproxy hsend hself hm.sender hlogged (hordinary.1 hself) h
  | proxyFactory =>
    rw [htarget] at h
    have hfactory := (hdep.proxyFactory _).mp htarget
    refine (keeps_factoryReceive keeps_setFactoryOwner (fun target implementation => ?_) _).of_ok h
    refine hsend _ ⟨?_, fun _ => ⟨?_, fun _ => ⟨_, rfl⟩⟩⟩
    · dsimp only
      rw [hfactory]
      exact hdep.ne_zero hdep.isEmpty_proxyFactory
    · dsimp only
      rw [hfactory]
      exact hdep.proxyFactory_ne_service
  | proxyBridge =>
    rw [htarget] at h
    exact (keeps_bridgeReceive d (fun slot _ => hstore (hother (by simp [htarget])) slot) _).of_ok h
  | stateFactory =>
    rw [htarget] at h
    exact (keeps_stateReceive d (fun slot _ => hstore (hother (by simp [htarget])) slot) _).of_ok h
  | proxy =>
    rw [htarget] at h
    by_cases heq : m.target = p
    · exact keeping_proxyReceive hdep henv hproxy hsend hm heq hcode hordinary h
    · exact (proxy.acts (hacts (by rw [htarget]; rfl) heq) _).of_ok h
  | foreign id =>
    rw [htarget] at h
    exact (keeps_runForeign (hacts (by rw [htarget]; rfl) (hother (by simp [htarget]))) _ _).of_ok h

end Messages

/-- Plain messages keep the custody of the proxy, however deep they nest. -/
theorem keeps_plain (hdep : Deployed d code) (henv : Harmless p env) (hproxy : code p = .proxy)
    (depth : Nat) (hm : Plain d p m) :
    (keeping d code p).Keeps (Exec.call (handle d env depth) m) := by
  induction depth generalizing m with
  | zero => exact keeps_call (grows.keeps_handle d env 0 m) fun w w' _ _ h => by cases h
  | succ depth ih =>
    exact keeps_call (grows.keeps_handle d env (depth + 1) m) fun w w' hlogged hordinary h =>
      keeping_dispatch hdep henv hproxy (fun m' hm' => ih hm') hm hlogged hordinary h

/-- A permitted transaction keeps the custody of the proxy. -/
theorem keeping_execute (hdep : Deployed d l.code) (hproxy : l.code p = .proxy)
    (henv : Harmless p t.env) (hguard : t.origin ≠ 0 ∧ (l.code t.origin).isEmpty) :
    Keeping d l.code p ⟨{ l with destroyed := [] }, []⟩ (t.execute d l) := by
  have hne : ∀ a, (l.code a).isEmpty = false → t.origin ≠ a := by
    intro a ha heq
    rw [← heq, hguard.2] at ha
    cases ha
  have hplain : Plain d p ⟨t.origin, t.origin, t.target, t.data⟩ :=
    ⟨hguard.1, fun _ => ⟨hne _ hdep.isEmpty_service, fun heq =>
      absurd heq (hne _ hdep.isEmpty_proxyFactory)⟩⟩
  exact keeps_plain hdep henv hproxy t.depth hplain _

/-- A permitted transaction does not destroy the proxy. -/
theorem not_mem_destroyed_execute (hdep : Deployed d l.code) (hproxy : l.code p = .proxy)
    (hcustody : Custody d p l) (hok : Permitted d p l (.transact t))
    (hguard : t.origin ≠ 0 ∧ (l.code t.origin).isEmpty) :
    p ∉ (t.execute d l).ledger.destroyed := fun hmem =>
  absurd ((keeping_execute hdep hproxy hok.harmless hguard).spared rfl hok.ordinary hcustody.clear
    hmem) List.not_mem_nil

/-- What holds of a ledger in every run, and what a step does to the record of the proxy. -/
theorem custody_step {l' : Ledger} {a : Action} (hdep : Deployed d l.code)
    (hproxy : l.code p = .proxy) (hcustody : Custody d p l) (hok : Permitted d p l a)
    (hstep : step d l a = some l') :
    Deployed d l'.code ∧ l'.code p = .proxy ∧ Custody d p l' ∧ Recorded d p l l' := by
  cases a with
  | transact t =>
    simp only [step] at hstep
    split at hstep
    next hguard =>
      cases hstep
      have hkeep := keeping_execute hdep hproxy hok.harmless hguard
      have hcode : (t.execute d l).ledger.code = l.code := hkeep.grow.2
      obtain ⟨hcustody', hrecord, -⟩ := hkeep.outcome rfl hok.ordinary hcustody.clear
      have hspared := not_mem_destroyed_execute hdep hproxy hcustody hok hguard
      have hsame := settle_reserved hspared
      refine ⟨(hcode ▸ hdep : Deployed d (t.execute d l).ledger.code).settle, ?_,
        hcustody'.settle hspared hok.leaves, ?_⟩
      · rw [settle_code hspared, hcode]
        exact hproxy
      · rw [Recorded, record, hsame]
        exact hrecord
    next => cases hstep
  | create account code storage =>
    simp only [step] at hstep
    split at hstep
    next hguard =>
      cases hstep
      have hne : ∀ a, (l.code a).isEmpty = false → a ≠ account := by
        rintro a ha rfl
        rw [hguard.2.1] at ha
        cases ha
      have hp : p ≠ account := hne p (by rw [hproxy]; rfl)
      have hsame := (EscrowControl.sameReserved_create l code storage hp).reserved_eq
      refine ⟨EscrowControl.deployed_create hdep hguard.1 hguard.2.1 hguard.2.2, ?_,
        ⟨?_, ?_, ?_⟩, .inl ?_⟩
      · dsimp only
        rw [update_of_ne hp]
        exact hproxy
      · rw [hsame]
        exact hcustody.held
      · rw [hsame]
        exact hcustody.free
      · rw [hsame]
        dsimp only
        rw [update_of_ne (hne _ hcustody.live)]
        exact hcustody.live
      · rw [record, hsame, record]
    next => cases hstep

/-- What holds in every state of a run. -/
theorem custody_of_reaches {l₀ : Ledger} (hdep : Deployed d l₀.code) (hproxy : l₀.code p = .proxy)
    (hcustody : Custody d p l₀) (hzero : (l₀.reserved p).rollback = 0)
    (hl : Reaches (step d) (Permitted d p) l₀ l) :
    Deployed d l.code ∧ l.code p = .proxy ∧ Custody d p l ∧
      ((l.reserved p).rollback ≠ 0 → ∃ codes, LastRecorded d p l₀ codes l ∧
        (l.reserved p).proof = d.proofOf codes (l.reserved p).rollback d.stateFactory) := by
  induction hl with
  | refl => exact ⟨hdep, hproxy, hcustody, fun h => absurd hzero h⟩
  | tail hs hok hstep ih =>
    rename_i s s' a
    obtain ⟨hdep', hproxy', hcustody', hrecorded⟩ := ih
    obtain ⟨hdep'', hproxy'', hcustody'', hrecord⟩ := custody_step hdep' hproxy' hcustody' hok hstep
    refine ⟨hdep'', hproxy'', hcustody'', fun hne => ?_⟩
    by_cases hsame : s'.record p = s.record p
    · have hfields : (s'.reserved p).rollback = (s.reserved p).rollback ∧
          (s'.reserved p).proof = (s.reserved p).proof := Prod.mk.inj hsame
      rw [hfields.1] at hne ⊢
      rw [hfields.2]
      obtain ⟨codes, ⟨l₁, l₂, b, hl₁, hcodes, hb, hset, hnew, hrest⟩, hproof⟩ := hrecorded hne
      refine ⟨codes, ⟨l₁, l₂, b, hl₁, hcodes, hb, hset, hnew, hrest.tail ⟨hok, ?_⟩ hstep⟩, hproof⟩
      intro s'' hs''
      rw [hstep] at hs''
      cases hs''
      exact hsame
    · rcases hrecord with hrecord | hrecord | hrecord
      · exact absurd hrecord hsame
      · exact absurd hrecord hne
      · exact ⟨s.code, ⟨s, s', a, hs, rfl, hok, hstep, hsame, .refl⟩, hrecord⟩

/-- A proxy in escrow is not escrowed again. -/
theorem escrow_ne_ok {depth : Nat} (hdep : Deployed d w.ledger.code)
    (hproxy : w.ledger.code p = .proxy) (hcustody : Custody d p w.ledger)
    (hesc : Escrowed p w.ledger) (hself : c.self = d.service) (logic : Address) :
    escrow d (Exec.call (handle d env depth)) c p logic w ≠ .ok () w' := by
  intro h
  obtain ⟨hadmin, himpl, -⟩ := hcustody.held hesc
  refine (escrow_ok hdep hself hproxy (fun n w₁ w₂ hw₁ hdelegate => ?_) h).notHeld hadmin
  have hread : Exec.code d.stateFactory w₁ = .ok .stateFactory w₁ := by
    rw [← (hdep.stateFactory _).mpr rfl, ← hw₁]
    rfl
  rw [himpl, delegate, bind_of_ok hread] at hdelegate
  cases hdelegate

end EscrowCustody

open EscrowCustody in
/-- In every run, a proxy is in the escrow table exactly when its slots say so. While it is, nobody
escrows it again, and a cancel gives it back to its master with the latest logic contract. -/
theorem escrowed_iff_inEscrow (d : Deployment) (l₀ : Ledger) (hdep : Deployed d l₀.code)
    (p : Address) (hproxy : l₀.code p = .proxy)
    (hlogic : (l₀.code (l₀.reserved p).implementation).isEmpty = false)
    (hrollback : (l₀.reserved p).rollback = 0) (hexecutor : (l₀.reserved p).executor = 0)
    (hfree : ¬ Escrowed p l₀) (l : Ledger) (hl : Reaches (step d) (Permitted d p) l₀ l) :
    (Escrowed p l ↔ InEscrow d p l₀ l) ∧
    (Escrowed p l → ∀ env depth origin sender logic w w', w.ledger = l →
      Exec.call (handle d env depth) ⟨origin, sender, d.service, .escrow p logic⟩ w ≠ .ok () w') ∧
    (∀ env depth origin sender w w', sender ≠ 0 → w.ledger = l →
      Exec.call (handle d env depth) ⟨origin, sender, d.service, .cancel p⟩ w = .ok () w' →
        w'.ledger.reserved p = ⟨(l.escrows p).master, (l.reserved p).rollback, 0, 0, 0⟩) := by
  have hstart : Custody d p l₀ := by
    refine ⟨fun hesc => absurd hesc hfree, fun _ => ?_, hlogic⟩
    rw [hexecutor]
    exact (hdep.ne_zero hdep.isEmpty_service).symm
  obtain ⟨hdep', hproxy', hcustody, hrecorded⟩ := custody_of_reaches hdep hproxy hstart hrollback hl
  have hservice : l.code d.service = .service := (hdep'.service _).mpr rfl
  refine ⟨⟨fun hesc => ?_, fun hin => ?_⟩, ?_, ?_⟩
  · obtain ⟨hadmin, himpl, hexec, hne⟩ := hcustody.held hesc
    exact ⟨hadmin, himpl, hexec, hne, hrecorded hne⟩
  · by_contra hnot
    exact hcustody.free hnot hin.executor
  · intro hesc env depth origin sender logic w w' hw hcall
    subst hw
    have hhandle := call_eq_ok.mp hcall
    cases depth with
    | zero => cases hhandle
    | succ n =>
      rw [handle, dispatch_of_service (by exact hservice)] at hhandle
      exact escrow_ne_ok (by exact hdep') (by exact hproxy') (by exact hcustody) (by exact hesc) rfl
        logic hhandle
  · intro env depth origin sender w w' hsender hw hcall
    subst hw
    have hhandle := call_eq_ok.mp hcall
    cases depth with
    | zero => cases hhandle
    | succ n =>
      rw [handle, dispatch_of_service (by exact hservice)] at hhandle
      obtain ⟨hmaster, -, -, hreserved, -⟩ := cancel_ok rfl hsender (by exact hdep')
        (by exact hproxy') (by exact hcustody) hhandle
      dsimp only at hmaster hreserved
      rw [hreserved, hmaster]

/-- The sample proxy is in escrow by its slots. -/
theorem inEscrow_after_escrow :
    ∃ l, Reaches (step sampleDeployment) (Permitted sampleDeployment 0x200) sampleLedger l ∧
      Escrowed 0x200 l ∧ InEscrow sampleDeployment 0x200 sampleLedger l := by
  obtain ⟨l, hl, hfacts⟩ := Option.map_eq_some_iff.mp sample_escrow
  simp only [Prod.mk.injEq] at hfacts
  obtain ⟨⟨-, hescrow, -⟩, -⟩ := hfacts
  obtain ⟨hall, hstep⟩ := performAll_singleton.mp hl
  have hpermitted : Permitted sampleDeployment 0x200 sampleLedger
      (sampleCall 10 (.escrow 0x200 0x300)) :=
    ⟨fun _ _ _ _ => ⟨trivial, fun _ _ => trivial⟩, hall.2.1, hall.2.2⟩
  have hreach := Reaches.refl.tail hpermitted hstep
  have hesc : Escrowed 0x200 l := by
    rw [Escrowed, hescrow]
    decide
  have hiff := (escrowed_iff_inEscrow sampleDeployment sampleLedger deployed_sample 0x200 rfl
    (by decide) (by decide) (by decide) (fun hesc => hesc rfl) l hreach).1
  exact ⟨l, hreach, hesc, hiff.mp hesc⟩

end CloakBridge.Service
