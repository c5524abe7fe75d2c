import CloakBridge.Models.Service.BatchUpdates
import CloakBridge.Models.Service.EscrowCustody

/-!
# To whom an escrowed proxy goes back, and whether it can

`Service.escrow` records its caller as the master, while `ProxyBridge` compares the admin
of the proxy with the origin of the transaction. `Service.cancel` needs code at the logic
contract that `escrow` or the last `upgrade` named, and those accept an address without an
account.
-/

namespace CloakBridge.Service

open Exec EscrowCustody

variable {d : Deployment} {p : Address}

/-! ### The master of an escrow -/

variable {logic origin sender : Address} {w w' : World} {l l' : Ledger} {a : Action}

private theorem escrows_of_escrow_ok {send : Message → Exec Unit} {c : Context}
    (h : escrow d send c p logic w = .ok () w') : w'.ledger.escrows p = ⟨c.sender, false⟩ := by
  simp only [escrow, onlyNotEscrow, bind_assoc, escrow_bind, require_bind] at h
  obtain ⟨-, -, h⟩ := h
  obtain ⟨_, w₁, -, h⟩ := bind_eq_ok.mp h
  obtain ⟨_, w₂, -, hset⟩ := bind_eq_ok.mp h
  rw [(modifyGet_eq_ok.mp hset).2]
  exact Function.update_self ..

private theorem receive_of_call_ok {env : Surroundings} {depth : Nat} {data : Calldata}
    (hservice : w.ledger.code d.service = .service)
    (h : Exec.call (handle d env depth) ⟨origin, sender, d.service, data⟩ w = .ok () w') :
    ∃ n w₁, w₁.ledger = w.ledger ∧
      receive d (Exec.call (handle d env n)) ⟨origin, sender, d.service⟩ data w₁ = .ok () w' := by
  have hhandle := call_eq_ok.mp h
  cases depth with
  | zero => cases hhandle
  | succ n =>
    rw [handle, dispatch_of_service (by exact hservice)] at hhandle
    exact ⟨n, { w with log := _ :: w.log }, rfl, hhandle⟩

/-- Behind `ProxyBridge`, a successful `escrow` puts the proxy into custody. -/
theorem custody_of_started (hdep : Deployed d l.code) (hsender : sender ≠ 0)
    (h : Started d p logic origin sender l l') : Custody d p l' := by
  have hesc : Escrowed p l' := by
    rw [Escrowed, h.escrows, Function.update_self]
    exact hsender
  refine ⟨fun _ => ?_, fun hfree => absurd hesc hfree, ?_⟩
  · rw [h.reserved]
    exact ⟨rfl, rfl, rfl, h.implementation_ne⟩
  · rw [h.reserved, h.code, (hdep.stateFactory _).mpr rfl]
    rfl

/-- Custody lasts in every permitted run. -/
theorem custody_of_permitted (hdep : Deployed d l.code) (hproxy : l.code p = .proxy)
    (hcustody : Custody d p l) (hl : Reaches (step d) (Permitted d p) l l') :
    Deployed d l'.code ∧ l'.code p = .proxy ∧ Custody d p l' := by
  induction hl with
  | refl => exact ⟨hdep, hproxy, hcustody⟩
  | tail hs hok hstep ih =>
    obtain ⟨hdep', hproxy', hcustody'⟩ := ih
    obtain ⟨hdep'', hproxy'', hcustody'', -⟩ := custody_step hdep' hproxy' hcustody' hok hstep
    exact ⟨hdep'', hproxy'', hcustody''⟩

/-- The master of an escrow is who the admin slot named before exactly if that is who called
`Service`. Behind `ProxyBridge` that is the origin of the transaction, and exactly then a later
cancel gives the proxy back to it. -/
theorem escrow_master_iff (d : Deployment) (l : Ledger) (hdep : Deployed d l.code) (p : Address)
    (hproxy : l.code p = .proxy) (env : Surroundings) (depth : Nat) (origin sender logic : Address)
    (hsender : sender ≠ 0) (w w' : World) (hw : w.ledger = l)
    (hcall : Exec.call (handle d env depth) ⟨origin, sender, d.service, .escrow p logic⟩ w =
      .ok () w') :
    ((w'.ledger.escrows p).master = (l.reserved p).admin ↔ sender = (l.reserved p).admin) ∧
    (l.code (l.reserved p).implementation = .proxyBridge → (l.reserved p).admin = origin ∧
      ∀ l₁, Reaches (step d) (Permitted d p) w'.ledger l₁ →
        (l₁.escrows p).master = (w'.ledger.escrows p).master →
        ∀ env' depth' origin' sender' w₁ w₂, sender' ≠ 0 → w₁.ledger = l₁ →
          Exec.call (handle d env' depth') ⟨origin', sender', d.service, .cancel p⟩ w₁ = .ok () w₂ →
          ((w₂.ledger.reserved p).admin = (l.reserved p).admin ↔
            sender = (l.reserved p).admin)) := by
  subst hw
  obtain ⟨n, v, hv, hescrow⟩ := receive_of_call_ok ((hdep.service _).mpr rfl) hcall
  have hmaster : (w'.ledger.escrows p).master = sender :=
    congrArg Escrow.master (escrows_of_escrow_ok hescrow)
  rw [hmaster]
  refine ⟨Iff.rfl, fun hbridge => ?_⟩
  have hstarted : Started d p logic origin sender v.ledger w'.ledger :=
    escrow_ok (by rw [hv]; exact hdep) rfl (by rw [hv]; exact hproxy)
      (fun _ _ _ _ _ => by rw [hv]; exact hbridge) hescrow
  rw [hv] at hstarted
  refine ⟨hstarted.admin, ?_⟩
  intro l₁ hl₁ hsame env' depth' origin' sender' w₁ w₂ hsender' hw₁ hcancel
  subst hw₁
  have hdep' : Deployed d w'.ledger.code := by
    rw [hstarted.code]
    exact hdep
  have hproxy' : w'.ledger.code p = .proxy := by
    rw [hstarted.code]
    exact hproxy
  obtain ⟨hdep₁, hproxy₁, hcustody₁⟩ := custody_of_permitted hdep' hproxy'
    (custody_of_started hdep hsender hstarted) hl₁
  obtain ⟨m, u, hu, hrun⟩ := receive_of_call_ok ((hdep₁.service _).mpr rfl) hcancel
  obtain ⟨hcaller, -, -, hreserved, -⟩ := cancel_ok rfl hsender' (by rw [hu]; exact hdep₁)
    (by rw [hu]; exact hproxy₁) (by rw [hu]; exact hcustody₁) hrun
  dsimp only at hcaller hreserved
  rw [hu, hsame] at hcaller
  rw [hreserved, ← hcaller]

/-! ### The way back -/

/-- The message names only logic contracts that have code. -/
def LiveLogic (d : Deployment) (p : Address) (e : Entry) : Prop :=
  e.message.target = d.service →
    ∀ logic ∈ e.message.data.logicOf p, (e.before.code logic).isEmpty = false

private theorem liveLogic_iff {e : Entry} : (e.message.target = d.service →
    (e.message.data.logicOf p).all (fun logic => !(e.before.code logic).isEmpty) = true) ↔
      LiveLogic d p e := by
  rw [LiveLogic]
  cases e.message.data.logicOf p <;> simp

instance (d : Deployment) (p : Address) (e : Entry) : Decidable (LiveLogic d p e) :=
  decidable_of_iff _ liveLogic_iff

/-- What may happen on the chain so that there is always a way back: only logic contracts with code
are named, and the one that is named is not destroyed. -/
structure Releasable (d : Deployment) (p : Address) (l : Ledger) (a : Action) : Prop where
  permitted : Permitted d p l a
  live : a.All d (LiveLogic d p) l
  leaves : a.Leaves d p rollbackSlot l

/-- The logic contract of an escrowed proxy has code. -/
structure HasWayBack (d : Deployment) (p : Address) (l : Ledger) : Prop where
  deployed : Deployed d l.code
  proxy : l.code p = .proxy
  custody : Custody d p l
  live : Escrowed p l → (l.code (l.reserved p).rollback).isEmpty = false

private theorem live_step (h : HasWayBack d p l) (hok : Releasable d p l a)
    (hstep : step d l a = some l')
    (hesc : Escrowed p l') : (l'.code (l'.reserved p).rollback).isEmpty = false := by
  cases a with
  | transact t =>
    simp only [step] at hstep
    split at hstep
    next hguard =>
      cases hstep
      have hkeep := keeping_execute h.deployed h.proxy hok.permitted.harmless hguard
      have hcode : (t.execute d l).ledger.code = l.code := hkeep.grow.2
      have hleaves :
          ((t.execute d l).ledger.reserved p).rollback ∉ (t.execute d l).ledger.destroyed :=
        hok.leaves
      rw [Ledger.settle_reserved (not_mem_destroyed_execute h.deployed h.proxy h.custody
        hok.permitted hguard), Ledger.settle_code hleaves, hcode]
      rcases (hkeep.outcome rfl hok.permitted.ordinary h.custody.clear).2.2 hesc with
        ⟨hbefore, hsame⟩ | ⟨e, hmem, hcodes, htarget, hnames⟩
      · rw [hsame]
        exact h.live hbefore
      · have hlive := hok.live e hmem htarget _ hnames
        rw [hcodes] at hlive
        exact hlive
    next => cases hstep
  | create account code storage =>
    simp only [step] at hstep
    split at hstep
    next hguard =>
      cases hstep
      have hne : ∀ a, (l.code a).isEmpty = false → a ≠ account := by
        rintro a ha rfl
        rw [hguard.2.1] at ha
        cases ha
      have hp : p ≠ account := hne p (by rw [h.proxy]; rfl)
      have hlive := h.live hesc
      rw [(EscrowControl.sameReserved_create l code storage hp).reserved_eq]
      dsimp only
      rw [Function.update_of_ne (hne _ hlive)]
      exact hlive
    next => cases hstep

private theorem HasWayBack.step (h : HasWayBack d p l) (hok : Releasable d p l a)
    (hstep : step d l a = some l') : HasWayBack d p l' := by
  obtain ⟨hdep, hproxy, hcustody, -⟩ :=
    custody_step h.deployed h.proxy h.custody hok.permitted hstep
  exact ⟨hdep, hproxy, hcustody, live_step h hok hstep⟩

/-- The master can take back a proxy that is not enhanced. -/
theorem HasWayBack.exists_cancel (h : HasWayBack d p l) (hesc : Escrowed p l)
    (henhanced : (l.escrows p).enhanced = false) (env : Surroundings) (depth : Nat)
    (origin : Address) (w : World) (hw : w.ledger = l) :
    ∃ w', Exec.call (handle d env (depth + 2)) ⟨origin, (l.escrows p).master, d.service, .cancel p⟩
      w = .ok () w' := by
  subst hw
  obtain ⟨hadmin, himpl, hexecutor, -⟩ := h.custody.held hesc
  have hin : InService d p w.ledger := ⟨h.proxy, hesc, hadmin, himpl, hexecutor⟩
  have hservice : w.ledger.code d.service = .service := (h.deployed.service _).mpr rfl
  let v : World := { w with
    log := ⟨⟨origin, (w.ledger.escrows p).master, d.service, .cancel p⟩, w.ledger⟩ :: w.log }
  obtain ⟨w₁, hcancel⟩ := (@exists_callCancel_iff d env (depth + 1)
    ⟨origin, (w.ledger.escrows p).master, d.service⟩ p v h.deployed rfl hin
    (Nat.succ_pos depth)).mpr (h.live hesc)
  have hreceive : ∃ w', cancel (Exec.call (handle d env (depth + 1)))
      ⟨origin, (w.ledger.escrows p).master, d.service⟩ p v = .ok () w' := by
    simp only [cancel, onlyEscrow, onlyNotEnhanced, bind_assoc, escrow_bind, require_bind]
    exact ⟨_, rfl, henhanced, bind_of_ok hcancel⟩
  obtain ⟨w', hw'⟩ := hreceive
  refine ⟨w', call_eq_ok.mpr ?_⟩
  rw [handle, dispatch_of_service (by exact hservice)]
  exact hw'

/-- In every run in which only logic contracts with code are named and none of them is destroyed
while it is needed, the rollback slot of an escrowed proxy holds a contract, and its master can take
it back unless it is enhanced. -/
theorem released_of_reaches (d : Deployment) (l₀ : Ledger) (hdep : Deployed d l₀.code) (p : Address)
    (hproxy : l₀.code p = .proxy)
    (hlogic : (l₀.code (l₀.reserved p).implementation).isEmpty = false)
    (hexecutor : (l₀.reserved p).executor = 0) (hfree : ¬ Escrowed p l₀) (l : Ledger)
    (hl : Reaches (step d) (Releasable d p) l₀ l) (hesc : Escrowed p l) :
    (l.code (l.reserved p).rollback).isEmpty = false ∧
    ((l.escrows p).enhanced = false → ∀ env depth origin w, w.ledger = l →
      ∃ w', Exec.call (handle d env (depth + 2))
        ⟨origin, (l.escrows p).master, d.service, .cancel p⟩ w = .ok () w') := by
  have hstart : HasWayBack d p l₀ := by
    refine ⟨hdep, hproxy, ⟨fun he => absurd he hfree, fun _ => ?_, hlogic⟩,
      fun he => absurd he hfree⟩
    rw [hexecutor]
    exact (hdep.ne_zero hdep.isEmpty_service).symm
  have hback := hl.invariant hstart fun _ _ _ h hok hstep => h.step hok hstep
  exact ⟨hback.live hesc, fun henhanced => hback.exists_cancel hesc henhanced⟩

/-! ### Concrete runs -/

/-- The ledger of the samples, with no account at `0x400`. -/
def barrenLedger : Ledger :=
  { sampleLedger with code := Function.update sampleLedger.code 0x400 .absent }

/-- The admin calls a contract, which escrows the proxy. -/
def escrowThroughContract : Action :=
  .transact ⟨10, 0x300, .other [], 5, fun _ _ m =>
    if m.target = 0x200 then .revert else .call 0x100 (.escrow 0x200 0x300) fun _ => .stop⟩

/-- Somebody calls the logic contract, which destroys itself. -/
def destroyLogic : Action :=
  .transact ⟨11, 0x300, .other [], 5, fun _ _ _ => .selfdestruct⟩

/-- What the master gets for `cancel`. -/
def cancelReturned (l : Ledger) : Option Unit :=
  returned (Exec.call (handle sampleDeployment (fun _ _ _ => .revert) 4)
    ⟨10, 10, 0x100, .cancel 0x200⟩) ⟨l, []⟩

set_option maxRecDepth 100000 in
set_option synthInstance.maxSize 1000 in
/-- A contract escrows the proxy for its owner. The owner escrows it with a logic contract that does
not exist, and fails to cancel; so it does with one that destroys itself after the escrow. -/
theorem sample_release : (performAll (step sampleDeployment) (fun l a => a.All sampleDeployment
        (fun e => Ordinary sampleDeployment 0x200 e ∧ LiveLogic sampleDeployment 0x200 e) l ∧
      a.Leaves sampleDeployment 0x200 implementationSlot l ∧
      a.Leaves sampleDeployment 0x200 rollbackSlot l)
      sampleLedger [escrowThroughContract]).map (fun l => l.escrows 0x200) = some ⟨0x300, false⟩ ∧
    (step sampleDeployment barrenLedger (sampleCall 10 (.escrow 0x200 0x400))).map (fun l =>
      (l.escrows 0x200, cancelReturned l)) = some (⟨10, false⟩, none) ∧
    (performAll (step sampleDeployment)
      (fun l a => a.All sampleDeployment (LiveLogic sampleDeployment 0x200) l) sampleLedger
      [sampleCall 10 (.escrow 0x200 0x300), destroyLogic]).map (fun l =>
        (l.escrows 0x200, cancelReturned l)) = some (⟨10, false⟩, none) := by
  decide +kernel

/-- The contract is the master of the proxy, and not its owner. -/
theorem master_ne_admin_of_escrowThroughContract :
    ∃ l, step sampleDeployment sampleLedger escrowThroughContract = some l ∧
      sampleLedger.code 0x200 = .proxy ∧ Escrowed 0x200 l ∧
      (l.escrows 0x200).master ≠ (sampleLedger.reserved 0x200).admin := by
  obtain ⟨l, hl, hescrow⟩ := Option.map_eq_some_iff.mp sample_release.1
  obtain ⟨-, hstep⟩ := performAll_singleton.mp hl
  refine ⟨l, hstep, rfl, ?_, ?_⟩
  · rw [Escrowed, hescrow]
    decide
  · rw [hescrow]
    decide

/-- The owner becomes the master when it calls `Service` itself. -/
theorem escrow_master_iff_direct :
    ∃ w', Exec.call (handle sampleDeployment (fun _ _ _ => .revert) 4)
        ⟨10, 10, 0x100, .escrow 0x200 0x300⟩ ⟨sampleLedger, []⟩ = .ok () w' ∧
      (w'.ledger.escrows 0x200).master = (sampleLedger.reserved 0x200).admin := by
  obtain ⟨l, hl, hfacts⟩ := Option.map_eq_some_iff.mp sample_escrow
  simp only [Prod.mk.injEq] at hfacts
  obtain ⟨⟨-, hescrow, -⟩, -⟩ := hfacts
  obtain ⟨-, hstep⟩ := performAll_singleton.mp hl
  have hclear : ({ sampleLedger with destroyed := [] } : Ledger) = sampleLedger := rfl
  have hsettled : (Transaction.execute sampleDeployment ⟨10, 0x100, .escrow 0x200 0x300, 4,
      fun _ _ _ => .revert⟩ sampleLedger).ledger.settle = l := Option.some.inj hstep
  rw [Transaction.execute, hclear] at hsettled
  have hescrows := congrArg Ledger.escrows hsettled
  rw [Ledger.settle_escrows] at hescrows
  dsimp only at hescrows
  cases hcall : Exec.call (handle sampleDeployment (fun _ _ _ => .revert) 4)
      ⟨10, 10, 0x100, .escrow 0x200 0x300⟩ ⟨sampleLedger, []⟩ with
  | ok u w' =>
    exact ⟨w', rfl, (escrow_master_iff sampleDeployment sampleLedger deployed_sample 0x200 rfl
      (fun _ _ _ => .revert) 4 10 10 0x300 (by decide) ⟨sampleLedger, []⟩ w' rfl hcall).1.mpr
        (by decide)⟩
  | error r w' =>
    rw [stateAfter, hcall, ledger_of_call_error hcall] at hescrows
    rw [← hescrows] at hescrow
    cases hescrow

/-- Whoever escrowed the proxy with a logic contract that exists can take it back. -/
theorem released_after_escrow :
    ∃ l, Reaches (step sampleDeployment) (Releasable sampleDeployment 0x200) sampleLedger l ∧
      l.escrows 0x200 = ⟨0x300, false⟩ ∧
      ∃ w', Exec.call (handle sampleDeployment (fun _ _ _ => .stop) 2)
        ⟨10, 0x300, 0x100, .cancel 0x200⟩ ⟨l, []⟩ = .ok () w' := by
  obtain ⟨l, hl, hescrow⟩ := Option.map_eq_some_iff.mp sample_release.1
  obtain ⟨hall, hstep⟩ := performAll_singleton.mp hl
  have hok : Releasable sampleDeployment 0x200 sampleLedger escrowThroughContract := by
    obtain ⟨hall, himplementation, hrollback⟩ := hall
    refine ⟨⟨?_, hall.imp fun _ he => he.1, himplementation⟩, hall.imp fun _ he => he.2, hrollback⟩
    intro n logic m htarget
    dsimp only
    rw [if_pos htarget]
    exact ⟨trivial, fun _ _ => trivial⟩
  have hreach := Reaches.refl.tail hok hstep
  have hesc : Escrowed 0x200 l := by
    rw [Escrowed, hescrow]
    decide
  have hrelease := (released_of_reaches sampleDeployment sampleLedger deployed_sample 0x200 rfl
    (by decide) (by decide) (fun hesc => hesc rfl) l hreach hesc).2 (by rw [hescrow])
    (fun _ _ _ => .stop) 0 10 ⟨l, []⟩ rfl
  rw [hescrow] at hrelease
  exact ⟨l, hreach, hescrow, hrelease⟩

private theorem not_exists_cancel (h : cancelReturned l = none) :
    ¬∃ w', Exec.call (handle sampleDeployment (fun _ _ _ => .revert) 4)
      ⟨10, 10, 0x100, .cancel 0x200⟩ ⟨l, []⟩ = .ok () w' := by
  rintro ⟨w', hcancel⟩
  rw [cancelReturned, returned, hcancel] at h
  cases h

/-- With a logic contract that does not exist, or that is gone, the proxy stays in escrow. -/
theorem not_released_of_absentLogic :
    (∃ l, Reachable (step sampleDeployment) barrenLedger l ∧ l.escrows 0x200 = ⟨10, false⟩ ∧
      ¬∃ w', Exec.call (handle sampleDeployment (fun _ _ _ => .revert) 4)
        ⟨10, 10, 0x100, .cancel 0x200⟩ ⟨l, []⟩ = .ok () w') ∧ ∃ l, Reaches (step sampleDeployment)
        (fun l a => a.All sampleDeployment (LiveLogic sampleDeployment 0x200) l) sampleLedger l ∧
      l.escrows 0x200 = ⟨10, false⟩ ∧
      ¬∃ w', Exec.call (handle sampleDeployment (fun _ _ _ => .revert) 4)
        ⟨10, 10, 0x100, .cancel 0x200⟩ ⟨l, []⟩ = .ok () w' := by
  constructor
  · obtain ⟨l, hl, hfacts⟩ := Option.map_eq_some_iff.mp sample_release.2.1
    obtain ⟨hescrow, hnone⟩ := Prod.mk.inj hfacts
    exact ⟨l, Reaches.refl.tail trivial hl, hescrow, not_exists_cancel hnone⟩
  · obtain ⟨l, hl, hfacts⟩ := Option.map_eq_some_iff.mp sample_release.2.2
    obtain ⟨hescrow, hnone⟩ := Prod.mk.inj hfacts
    exact ⟨l, reaches_of_performAll .refl hl, hescrow, not_exists_cancel hnone⟩

end CloakBridge.Service
