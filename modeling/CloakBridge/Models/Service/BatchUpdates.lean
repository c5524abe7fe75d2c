import CloakBridge.Models.Service.StateUpdates

/-!
# Batches of updates

The batch functions run over their arrays with a counter of eight bits, whose last
increment is checked too: 256 elements or more revert. Up to 255 the loop does what the
single calls do in order. The cancelling loop also hands every proxy back to its master;
that needs a contract in the proxy's rollback slot, and calldata that is not itself a
`cancel`.
-/

namespace CloakBridge.Service

open Exec List

/-- The calls for the elements of a batch, one after the other. -/
def inOrder (f : Address → Calldata → Exec Unit) : List (Address × Calldata) → Exec Unit
  | [] => pure ()
  | (proxy, data) :: rest => do
    f proxy data
    inOrder f rest

section Loop

variable {f : Address → Calldata → Exec Unit} {w w' : World} {items : List (Address × Calldata)}

private theorem inOrder_cons_eq_ok {x : Address × Calldata} : inOrder f (x :: items) w = .ok () w' ↔
      ∃ w₁, f x.1 x.2 w = .ok () w₁ ∧ inOrder f items w₁ = .ok () w' := by
  rw [inOrder, bind_eq_ok]
  constructor
  · rintro ⟨⟨⟩, w₁, hfirst, hrest⟩
    exact ⟨w₁, hfirst, hrest⟩
  · rintro ⟨w₁, hfirst, hrest⟩
    exact ⟨(), w₁, hfirst, hrest⟩

/-- The counted loop returns exactly if its body does for all elements, in order, and the counter
does not pass 255. -/
theorem forEach_eq_ok {i : Nat} (hi : i ≤ 255) : forEach f i items w = .ok () w' ↔
      inOrder f items w = .ok () w' ∧ i + items.length ≤ 255 := by
  induction items generalizing i w with
  | nil =>
    rw [forEach, inOrder]
    exact ⟨fun h => ⟨h, hi⟩, fun h => h.1⟩
  | cons x items ih =>
    rw [forEach, inOrder_cons_eq_ok, bind_eq_ok, length_cons]
    constructor
    · rintro ⟨⟨⟩, w₁, hfirst, hrest⟩
      by_cases hlast : i = 255
      · rw [if_pos hlast] at hrest
        cases hrest
      · rw [if_neg hlast] at hrest
        obtain ⟨hrest, hlength⟩ := (ih (by omega)).mp hrest
        exact ⟨⟨w₁, hfirst, hrest⟩, by omega⟩
    · rintro ⟨⟨w₁, hfirst, hrest⟩, hlength⟩
      refine ⟨(), w₁, hfirst, ?_⟩
      rw [if_neg (by omega)]
      exact (ih (by omega)).mpr ⟨hrest, by omega⟩

end Loop

variable {send : Message → Exec Unit} {c : Context} {proxies : List Address} {data : List Calldata}
  {w w' : World} {d : Deployment} {p : Address} {l l' : Ledger}

/-- `updateState(address[],bytes[])` does what the single updates do, up to 255 of them. -/
theorem updateStates_eq_ok (hlength : proxies.length = data.length) :
    updateStates send c proxies data w = .ok () w' ↔
      inOrder (updateState send c) (proxies.zip data) w = .ok () w' ∧ proxies.length ≤ 255 := by
  have hzip : (proxies.zip data).length = proxies.length := by simp [hlength]
  rw [updateStates, require_bind, forEach_eq_ok (Nat.zero_le _), Nat.zero_add, hzip]
  exact and_iff_right hlength

/-- `updateStateAndCancel` does what its body does for all elements, up to 255 of them. -/
theorem updateStateAndCancel_eq_ok (hlength : proxies.length = data.length) :
    updateStateAndCancel send c proxies data w = .ok () w' ↔
      inOrder (updateStateThenCancel send c) (proxies.zip data) w = .ok () w' ∧
        proxies.length ≤ 255 := by
  have hzip : (proxies.zip data).length = proxies.length := by simp [hlength]
  rw [updateStateAndCancel, require_bind, forEach_eq_ok (Nat.zero_le _), Nat.zero_add, hzip]
  exact and_iff_right hlength

/-- A proxy that is in escrow and that the service has in its hands. -/
structure InService (d : Deployment) (p : Address) (l : Ledger) : Prop where
  proxy : l.code p = .proxy
  escrowed : Escrowed p l
  held : Held d p l

private theorem InService.isEmpty_eq_false (h : InService d p l) : (l.code p).isEmpty = false := by
  rw [h.proxy]
  rfl

/-- What the service knows of a proxy is the same. -/
structure SameProxy (p : Address) (l l' : Ledger) : Prop where
  code : l'.code = l.code
  storage : l'.storage p = l.storage p
  escrow : l'.escrows p = l.escrows p

namespace SameProxy

variable {p : Address} {l l' l'' : Ledger}

private theorem trans (h : SameProxy p l l') (h' : SameProxy p l' l'') : SameProxy p l l'' :=
  ⟨h'.code.trans h.code, h'.storage.trans h.storage, h'.escrow.trans h.escrow⟩

private theorem addressAt_eq (h : SameProxy p l l') (slot : Word) :
    l'.addressAt p slot = l.addressAt p slot := by
  rw [Ledger.addressAt, h.storage, Ledger.addressAt]

private theorem reserved_eq (h : SameProxy p l l') : l'.reserved p = l.reserved p := by
  simp only [Ledger.reserved, h.addressAt_eq, h.storage]

private theorem inService (h : SameProxy p l l') (hp : InService d p l) : InService d p l' := by
  constructor
  · rw [h.code]
    exact hp.proxy
  · rw [Escrowed, h.escrow]
    exact hp.escrowed
  · constructor
    · rw [h.addressAt_eq]
      exact hp.held.admin
    · rw [h.addressAt_eq]
      exact hp.held.implementation
    · rw [h.addressAt_eq]
      exact hp.held.executor

end SameProxy

/-- The logic contract that a proxy goes back to if it is cancelled after the calldata was
forwarded. -/
def Ledger.returnsTo (l : Ledger) : Address × Calldata → Address
  | (_, .upgrade logic) => logic
  | (p, _) => (l.reserved p).rollback

/-- `StateFactory` accepts the calldata from the executor of the proxy. What `cancel` needs is not
included. -/
def Ledger.Accepts (d : Deployment) (l : Ledger) : Address × Calldata → Prop
  | (_, .updateState _ _ _) => True
  | (p, .upgrade logic) => (l.reserved p).rollback ≠ logic ∧ logic ≠ 0 ∧
      d.extcodehash (l.code logic) ≠ accountHash ∧
      d.proofOf l.code logic (l.reserved p).implementation ≠ 0
  | _ => False

private theorem SameProxy.returnsTo_eq (h : SameProxy p l l') (data : Calldata) :
    l'.returnsTo (p, data) = l.returnsTo (p, data) := by
  cases data <;> simp only [Ledger.returnsTo, h.reserved_eq]

private theorem SameProxy.accepts_iff (h : SameProxy p l l') (data : Calldata) :
    l'.Accepts d (p, data) ↔ l.Accepts d (p, data) := by
  cases data <;> simp only [Ledger.Accepts, h.reserved_eq, h.code]

section Proxy

variable {d : Deployment} {env : Surroundings} {depth : Nat} {c : Context} {p : Address}
  {data : Calldata} {w w' : World}

private theorem call_held_eq_ok (hdep : Deployed d w.ledger.code) (hp : InService d p w.ledger)
    (origin : Address) : Exec.call (handle d env depth) ⟨origin, d.service, p, data⟩ w = .ok () w' ↔
      0 < depth ∧ StateFactory.receive d ⟨origin, d.service, p⟩ data
        { w with log := ⟨⟨origin, d.service, p, data⟩, w.ledger⟩ :: w.log } = .ok () w' := by
  have hadmin : d.service ≠ (w.ledger.reserved p).admin := by
    intro heq
    exact hdep.proxyFactory_ne_service (hp.held.admin.symm.trans heq.symm)
  have hstate : w.ledger.code (w.ledger.reserved p).implementation = .stateFactory :=
    (hdep.stateFactory _).mpr hp.held.implementation
  rw [call_eq_ok]
  cases depth with
  | zero =>
    constructor
    · intro h
      cases h
    · rintro ⟨hpos, -⟩
      exact absurd hpos (Nat.lt_irrefl 0)
  | succ n =>
    rw [handle, dispatch_of_proxy (by exact hp.proxy),
      proxyReceive_of_stateFactory (c := ⟨origin, d.service, p⟩) (by exact hadmin)
        (by exact hstate)]
    exact (and_iff_right (Nat.succ_pos n)).symm

/-- The calldata that the executor gets through, except for `cancel`. -/
theorem exists_stateReceive_iff (hexecutor : (w.ledger.reserved c.self).executor = c.sender)
    (hsender : c.sender ≠ 0) (hdata : data.isCancel = false) :
    (∃ w', StateFactory.receive d c data w = .ok () w') ↔ w.ledger.Accepts d (c.self, data) := by
  cases data with
  | updateState proof keys vals => exact ⟨fun _ => trivial, fun _ => ⟨w, rfl⟩⟩
  | initialise logic =>
    refine ⟨?_, False.elim⟩
    rintro ⟨w', h⟩
    rw [(initialise_ok h).1] at hexecutor
    exact hsender hexecutor.symm
  | upgrade logic =>
    have hmine : w.ledger.addressAt c.self executorSlot = c.sender := hexecutor
    simp only [StateFactory.receive, StateFactory.upgrade, State.onlyExecutor, State.setRollBack,
      StateFactory.updateProof, StateFactory.generateEscrowProof, State.setProofHash, bind_assoc,
      getAddressSlot_bind, require_bind, setAddressSlot_bind, code_bind, pure_bind, hmine, true_and,
      World.addressAt_setAddress, if_neg (show implementationSlot ≠ rollbackSlot by decide)]
    constructor
    · rintro ⟨w', hne, hlogic, hhash, hproof, -⟩
      exact ⟨hne, hlogic, hhash, hproof⟩
    · rintro ⟨hne, hlogic, hhash, hproof⟩
      exact ⟨_, hne, hlogic, hhash, hproof, rfl⟩
  | cancel master => cases hdata
  | _ =>
    refine ⟨?_, False.elim⟩
    rintro ⟨w', h⟩
    cases h

private theorem stateReceive_ok (hexecutor : (w.ledger.reserved c.self).executor = c.sender)
    (hsender : c.sender ≠ 0) (hdata : data.isCancel = false)
    (h : StateFactory.receive d c data w = .ok () w') :
    ∃ proof, w'.ledger.reserved c.self = { w.ledger.reserved c.self with
      rollback := w.ledger.returnsTo (c.self, data)
      proof := proof } := by
  cases data with
  | updateState proof keys vals =>
    obtain ⟨-, rfl⟩ := pure_eq_ok.mp h
    exact ⟨_, rfl⟩
  | initialise logic =>
    rw [(initialise_ok h).1] at hexecutor
    exact absurd hexecutor.symm hsender
  | upgrade logic => exact ⟨_, (stateUpgrade_ok h).2.2⟩
  | cancel master => cases hdata
  | _ => cases h

/-- The executor can cancel exactly if there is a contract to go back to. -/
theorem exists_stateCancel_iff (hdep : Deployed d w.ledger.code)
    (hexecutor : (w.ledger.reserved c.self).executor = c.sender) {master : Address}
    (hmaster : master ≠ 0) : (∃ w', StateFactory.cancel c master w = .ok () w') ↔
      (w.ledger.code (w.ledger.reserved c.self).rollback).isEmpty = false := by
  have hmine : w.ledger.addressAt c.self executorSlot = c.sender := hexecutor
  constructor
  · rintro ⟨w', h⟩
    exact (stateCancel_ok h).2.1
  · intro hlogic
    have hne : w.ledger.addressAt c.self rollbackSlot ≠ 0 := hdep.ne_zero hlogic
    have hcode : (!(w.ledger.code (w.ledger.addressAt c.self rollbackSlot)).isEmpty) = true := by
      rw [Bool.not_eq_true']
      exact hlogic
    simp only [StateFactory.cancel, State.onlyExecutor, EIP1967.setImplementation,
      EIP1967.changeAdmin, State.clearConfigure, bind_assoc, getAddressSlot_bind, require_bind,
      code_bind, setAddressSlot_bind, sstore_bind, hmine, true_and]
    exact ⟨_, hne, hcode, hmaster, rfl⟩

/-- Everything the service knows, other than about one proxy, is the same. -/
structure Spares (p : Address) (l l' : Ledger) : Prop where
  code : l'.code = l.code
  others : ∀ q, q ≠ p → SameProxy q l l'

private theorem spares_of_writes (h : (writesSlots p reservedSlots).rel w w') :
    Spares p w.ledger w'.ledger := by
  obtain ⟨-, hcode, hescrows, -, hstorage⟩ := h
  refine ⟨hcode, fun q hq => ⟨hcode, ?_, by rw [hescrows]⟩⟩
  ext1 slot
  exact hstorage q slot fun heq => absurd heq hq

private theorem Spares.deployed (h : Spares p l l') (hdep : Deployed d l.code) :
    Deployed d l'.code := by
  rw [h.code]
  exact hdep

/-- A proxy was handed back to its master. -/
structure HandedBack (p : Address) (l l' : Ledger) : Prop where
  escrow : l'.escrows p = ⟨0, false⟩
  admin : (l'.reserved p).admin = (l.escrows p).master

private theorem updateStateThenCancel_eq_ok : updateStateThenCancel send c p data w = .ok () w' ↔
      ∃ w₁ w₂, updateState send c p data w = .ok () w₁ ∧
        c.callContract send p (.cancel (w₁.ledger.escrows p).master) w₁ = .ok () w₂ ∧
        w' = { w₂ with ledger := { w₂.ledger with
          escrows := Function.update w₂.ledger.escrows p ⟨0, false⟩ } } := by
  rw [updateStateThenCancel, bind_eq_ok]
  simp only [escrow_bind, bind_eq_ok]
  constructor
  · rintro ⟨⟨⟩, w₁, hupdate, ⟨⟩, w₂, hcancel, hdelete⟩
    exact ⟨w₁, w₂, hupdate, hcancel, (modifyGet_eq_ok.mp hdelete).2⟩
  · rintro ⟨w₁, w₂, hupdate, hcancel, rfl⟩
    exact ⟨(), w₁, hupdate, (), w₂, hcancel, rfl⟩

variable (hdep : Deployed d w.ledger.code) (hself : c.self = d.service)
  (hp : InService d p w.ledger)

include hself hp

private theorem updateState_eq_ok :
    updateState (Exec.call (handle d env depth)) c p data w = .ok () w' ↔
      Exec.call (handle d env depth) ⟨c.origin, d.service, p, data⟩ w = .ok () w' := by
  rw [updateState, escrow_bind, require_bind,
    OpenZeppelin.functionCall.calls hp.isEmpty_eq_false, hself]
  exact and_iff_right hp.escrowed

include hdep

/-- A single update gets through exactly if messages may nest and `StateFactory` accepts it. -/
theorem exists_updateState_iff (hdata : data.isCancel = false) :
    (∃ w', updateState (Exec.call (handle d env depth)) c p data w = .ok () w') ↔
      0 < depth ∧ w.ledger.Accepts d (p, data) := by
  simp only [updateState_eq_ok hself hp, call_held_eq_ok hdep hp, exists_and_left]
  refine and_congr_right fun _ => ?_
  exact exists_stateReceive_iff (c := ⟨c.origin, d.service, p⟩) (by exact hp.held.executor)
    (hdep.ne_zero hdep.isEmpty_service) hdata

private theorem updateState_ok (hdata : data.isCancel = false)
    (h : updateState (Exec.call (handle d env depth)) c p data w = .ok () w') :
    Spares p w.ledger w'.ledger ∧ InService d p w'.ledger ∧
      w'.ledger.escrows p = w.ledger.escrows p ∧
      (w'.ledger.reserved p).rollback = w.ledger.returnsTo (p, data) := by
  obtain ⟨-, hrun⟩ := (call_held_eq_ok hdep hp _).mp ((updateState_eq_ok hself hp).mp h)
  have hwrites := (keeps_stateReceive d
    (mayWrite_writesSlots ⟨c.origin, d.service, p⟩ reservedSlots) data).of_ok hrun
  obtain ⟨proof, hreserved⟩ := stateReceive_ok (c := ⟨c.origin, d.service, p⟩)
    (by exact hp.held.executor) (hdep.ne_zero hdep.isEmpty_service) hdata hrun
  dsimp only at hreserved
  have hescrow : w'.ledger.escrows p = w.ledger.escrows p := by rw [hwrites.2.2.1]
  have hspares := spares_of_writes hwrites
  refine ⟨hspares, ⟨?_, ?_, ?_⟩, hescrow, ?_⟩
  · rw [hwrites.2.1]
    exact hp.proxy
  · rw [Escrowed, hescrow]
    exact hp.escrowed
  · exact ⟨(congrArg Reserved.admin hreserved).trans hp.held.admin,
      (congrArg Reserved.implementation hreserved).trans hp.held.implementation,
      (congrArg Reserved.executor hreserved).trans hp.held.executor⟩
  · rw [hreserved]

/-- `Service` can cancel a proxy in its hands exactly if there is a contract to go back to. -/
theorem exists_callCancel_iff (hdepth : 0 < depth) :
    (∃ w', c.callContract (Exec.call (handle d env depth)) p
        (.cancel (w.ledger.escrows p).master) w = .ok () w') ↔
      (w.ledger.code (w.ledger.reserved p).rollback).isEmpty = false := by
  rw [callContract_of_code hp.isEmpty_eq_false, hself]
  simp only [call_held_eq_ok hdep hp, hdepth, true_and]
  exact exists_stateCancel_iff (c := ⟨c.origin, d.service, p⟩) (by exact hdep)
    (by exact hp.held.executor) hp.escrowed

private theorem callCancel_ok (h : c.callContract (Exec.call (handle d env depth)) p
      (.cancel (w.ledger.escrows p).master) w = .ok () w') : Spares p w.ledger w'.ledger ∧
      (w'.ledger.reserved p).admin = (w.ledger.escrows p).master := by
  rw [callContract_of_code hp.isEmpty_eq_false, hself] at h
  obtain ⟨-, hrun⟩ := (call_held_eq_ok hdep hp _).mp h
  have hwrites := (keeps_stateReceive d
    (mayWrite_writesSlots ⟨c.origin, d.service, p⟩ reservedSlots) _).of_ok hrun
  have hreserved := (stateCancel_ok hrun).2.2.2
  dsimp only at hreserved
  have hspares := spares_of_writes hwrites
  refine ⟨hspares, ?_⟩
  rw [hreserved]

/-- One round of the cancelling loop returns exactly if there is a contract to go back to. -/
theorem exists_updateStateThenCancel_iff (hdata : data.isCancel = false) (hdepth : 0 < depth)
    (haccepts : w.ledger.Accepts d (p, data)) :
    (∃ w', updateStateThenCancel (Exec.call (handle d env depth)) c p data w = .ok () w') ↔
      (w.ledger.code (w.ledger.returnsTo (p, data))).isEmpty = false := by
  obtain ⟨w₁, hupdate⟩ :=
    (@exists_updateState_iff d env depth c p data w hdep hself hp hdata).mpr ⟨hdepth, haccepts⟩
  obtain ⟨hspares, hp₁, -, hrollback⟩ := updateState_ok hdep hself hp hdata hupdate
  have hcancel := @exists_callCancel_iff d env depth c p w₁ (hspares.deployed hdep) hself hp₁ hdepth
  rw [hrollback, hspares.code] at hcancel
  rw [← hcancel]
  constructor
  · rintro ⟨w', h⟩
    obtain ⟨w₁', w₂, hupdate', hrun, -⟩ := updateStateThenCancel_eq_ok.mp h
    rw [hupdate] at hupdate'
    cases hupdate'
    exact ⟨w₂, hrun⟩
  · rintro ⟨w₂, hrun⟩
    exact ⟨_, updateStateThenCancel_eq_ok.mpr ⟨w₁, w₂, hupdate, hrun, rfl⟩⟩

/-- One round of the cancelling loop hands the proxy back, and leaves the others alone. -/
theorem updateStateThenCancel_ok (hdata : data.isCancel = false)
    (h : updateStateThenCancel (Exec.call (handle d env depth)) c p data w = .ok () w') :
    Spares p w.ledger w'.ledger ∧ HandedBack p w.ledger w'.ledger := by
  obtain ⟨w₁, w₂, hupdate, hcancel, rfl⟩ := updateStateThenCancel_eq_ok.mp h
  obtain ⟨hspares, hp₁, hescrow, -⟩ := updateState_ok hdep hself hp hdata hupdate
  obtain ⟨hspares', hadmin⟩ := callCancel_ok (hspares.deployed hdep) hself hp₁ hcancel
  refine ⟨⟨hspares'.code.trans hspares.code, fun q hq => ?_⟩, ⟨?_, ?_⟩⟩
  · obtain ⟨hcode, hstorage, hescrows⟩ := (hspares.others q hq).trans (hspares'.others q hq)
    refine ⟨hcode, hstorage, ?_⟩
    dsimp only
    rw [Function.update_of_ne hq]
    exact hescrows
  · dsimp only
    rw [Function.update_self]
  · rw [← hescrow, ← hadmin]
    rfl

end Proxy

section Batch

variable {d : Deployment} {env : Surroundings} {depth : Nat} {c : Context}
  {items : List (Address × Calldata)} {w w' : World}

/-- The elements of a batch are distinct proxies in the hands of the service. -/
structure Batch (d : Deployment) (l : Ledger) (items : List (Address × Calldata)) : Prop where
  distinct : (items.map Prod.fst).Nodup
  inService : ∀ x ∈ items, InService d x.1 l

private theorem Batch.tail {x : Address × Calldata} {l l' : Ledger} (h : Batch d l (x :: items))
    (hspares : Spares x.1 l l') : Batch d l' items ∧ ∀ y ∈ items, SameProxy y.1 l l' := by
  obtain ⟨hhead, hdistinct⟩ := nodup_cons.mp h.distinct
  have hsame : ∀ y ∈ items, SameProxy y.1 l l' := by
    intro y hy
    refine hspares.others y.1 ?_
    intro heq
    exact hhead (heq ▸ mem_map_of_mem hy)
  exact ⟨⟨hdistinct, fun y hy =>
    (hsame y hy).inService (h.inService y (mem_cons_of_mem x hy))⟩, hsame⟩

variable (hdep : Deployed d w.ledger.code) (hself : c.self = d.service)
  (hbatch : Batch d w.ledger items) (hplain : ∀ x ∈ items, x.2.isCancel = false)

include hdep hself hbatch hplain

/-- If the single updates get through, `StateFactory` accepts every one of them from the start. -/
theorem accepts_of_inOrder
    (h : inOrder (updateState (Exec.call (handle d env depth)) c) items w = .ok () w') :
    ∀ x ∈ items, 0 < depth ∧ w.ledger.Accepts d x := by
  induction items generalizing w with
  | nil => simp
  | cons x items ih =>
    obtain ⟨w₁, hfirst, hrest⟩ := inOrder_cons_eq_ok.mp h
    have hx := hbatch.inService x mem_cons_self
    rw [forall_mem_cons] at hplain
    obtain ⟨hspares, -⟩ := updateState_ok hdep hself hx hplain.1 hfirst
    obtain ⟨hbatch₁, hsame⟩ := hbatch.tail hspares
    intro y hy
    rcases mem_cons.mp hy with rfl | hy
    · exact (exists_updateState_iff hdep hself hx hplain.1).mp ⟨w₁, hfirst⟩
    · obtain ⟨hdepth, haccepts⟩ := ih (hspares.deployed hdep) hbatch₁ hplain.2 hrest y hy
      exact ⟨hdepth, ((hsame y hy).accepts_iff y.2).mp haccepts⟩

/-- The cancelling rounds get through exactly if every proxy has a contract to go back to. -/
theorem exists_inOrder_iff (haccepts : ∀ x ∈ items, 0 < depth ∧ w.ledger.Accepts d x) :
    (∃ w', inOrder (updateStateThenCancel (Exec.call (handle d env depth)) c) items w = .ok () w') ↔
      ∀ x ∈ items, (w.ledger.code (w.ledger.returnsTo x)).isEmpty = false := by
  induction items generalizing w with
  | nil => exact iff_of_true ⟨w, rfl⟩ (by simp)
  | cons x items ih =>
    have hx := hbatch.inService x mem_cons_self
    rw [forall_mem_cons] at hplain
    obtain ⟨hdepth, hfirst⟩ := haccepts x mem_cons_self
    have hround := @exists_updateStateThenCancel_iff d env depth c x.1 x.2 w hdep hself hx
      hplain.1 hdepth hfirst
    -- The later rounds see the proxies they are about as they were at the start.
    have hrest : ∀ w₁, updateStateThenCancel (Exec.call (handle d env depth)) c x.1 x.2 w = .ok ()
        w₁ → ((∃ w', inOrder (updateStateThenCancel (Exec.call (handle d env depth)) c) items w₁ =
        .ok () w') ↔ ∀ y ∈ items, (w.ledger.code (w.ledger.returnsTo y)).isEmpty = false) := by
      intro w₁ hrun
      obtain ⟨hspares, -⟩ := updateStateThenCancel_ok hdep hself hx hplain.1 hrun
      obtain ⟨hbatch₁, hsame⟩ := hbatch.tail hspares
      rw [ih (hspares.deployed hdep) hbatch₁ hplain.2 fun y hy => ?_]
      · refine forall₂_congr fun y hy => ?_
        rw [(hsame y hy).returnsTo_eq y.2, hspares.code]
      · obtain ⟨-, hlater⟩ := haccepts y (mem_cons_of_mem x hy)
        exact ⟨hdepth, ((hsame y hy).accepts_iff y.2).mpr hlater⟩
    rw [forall_mem_cons, ← hround]
    constructor
    · rintro ⟨w', h⟩
      obtain ⟨w₁, hrun, hlater⟩ := inOrder_cons_eq_ok.mp h
      exact ⟨⟨w₁, hrun⟩, (hrest w₁ hrun).mp ⟨w', hlater⟩⟩
    · rintro ⟨⟨w₁, hrun⟩, hlater⟩
      obtain ⟨w', hloop⟩ := (hrest w₁ hrun).mpr hlater
      exact ⟨w', inOrder_cons_eq_ok.mpr ⟨w₁, hrun, hloop⟩⟩

/-- The cancelling rounds hand every proxy of the batch back, and leave the others alone. -/
theorem inOrder_ok (h : inOrder (updateStateThenCancel (Exec.call (handle d env depth)) c) items w =
      .ok () w') : (∀ x ∈ items, HandedBack x.1 w.ledger w'.ledger) ∧
      ∀ q, q ∉ items.map Prod.fst → SameProxy q w.ledger w'.ledger := by
  induction items generalizing w with
  | nil =>
    obtain ⟨-, rfl⟩ := pure_eq_ok.mp h
    exact ⟨by simp, fun q _ => ⟨rfl, rfl, rfl⟩⟩
  | cons x items ih =>
    obtain ⟨w₁, hrun, hloop⟩ := inOrder_cons_eq_ok.mp h
    rw [forall_mem_cons] at hplain
    obtain ⟨hspares, hback⟩ := updateStateThenCancel_ok hdep hself
      (hbatch.inService x mem_cons_self) hplain.1 hrun
    obtain ⟨hbatch₁, hsame⟩ := hbatch.tail hspares
    obtain ⟨hbacks, hothers⟩ := ih (hspares.deployed hdep) hbatch₁ hplain.2 hloop
    constructor
    · intro y hy
      rcases mem_cons.mp hy with rfl | hy
      · have hlater := hothers y.1 (nodup_cons.mp hbatch.distinct).1
        exact ⟨hlater.escrow.trans hback.escrow, by rw [hlater.reserved_eq, hback.admin]⟩
      · obtain ⟨hescrow, hadmin⟩ := hbacks y hy
        exact ⟨hescrow, by rw [hadmin, (hsame y hy).escrow]⟩
    · intro q hq
      rw [map_cons, mem_cons, not_or] at hq
      exact (hspares.others q hq.1).trans (hothers q hq.2)

end Batch

/-- A batch does what its single updates do exactly up to 255 elements. A cancelling batch that does
not forward a `cancel` also hands its proxies back to their masters exactly if these have contracts
to go back to. -/
theorem batch_iff (d : Deployment) (env : Surroundings) (depth : Nat) (c : Context) (w : World)
    (hdep : Deployed d w.ledger.code) (hself : c.self = d.service) (proxies : List Address)
    (data : List Calldata) (hlength : proxies.length = data.length) :
    (∀ w', inOrder (updateState (Exec.call (handle d env depth)) c) (proxies.zip data) w =
        .ok () w' → (updateStates (Exec.call (handle d env depth)) c proxies data w = .ok () w' ↔
        proxies.length ≤ 255)) ∧ (Batch d w.ledger (proxies.zip data) →
      (∃ w', inOrder (updateState (Exec.call (handle d env depth)) c) (proxies.zip data) w =
        .ok () w') → (∀ x ∈ proxies.zip data, x.2.isCancel = false) →
      ((∃ w', updateStateAndCancel (Exec.call (handle d env depth)) c proxies data w = .ok () w' ∧
          ∀ p ∈ proxies, HandedBack p w.ledger w'.ledger) ↔
        proxies.length ≤ 255 ∧ ∀ x ∈ proxies.zip data,
          (w.ledger.code (w.ledger.returnsTo x)).isEmpty = false)) := by
  constructor
  · intro w' hsingles
    rw [updateStates_eq_ok hlength]
    exact and_iff_right hsingles
  · rintro hbatch ⟨w₀, hsingles⟩ hplain
    have haccepts := accepts_of_inOrder hdep hself hbatch hplain hsingles
    have hexists := @exists_inOrder_iff d env depth c _ w hdep hself hbatch hplain haccepts
    have hmap : (proxies.zip data).map Prod.fst = proxies := map_fst_zip (le_of_eq hlength)
    constructor
    · rintro ⟨w', h, -⟩
      obtain ⟨hloop, hsize⟩ := (updateStateAndCancel_eq_ok hlength).mp h
      exact ⟨hsize, hexists.mp ⟨w', hloop⟩⟩
    · rintro ⟨hsize, hlogic⟩
      obtain ⟨w', hloop⟩ := hexists.mpr hlogic
      refine ⟨w', (updateStateAndCancel_eq_ok hlength).mpr ⟨hloop, hsize⟩, ?_⟩
      intro p hp
      rw [← hmap] at hp
      obtain ⟨x, hx, rfl⟩ := mem_map.mp hp
      exact (inOrder_ok hdep hself hbatch hplain hloop).1 x hx

/-- Two proxies in escrow for different masters, with a logic contract in their rollback slots. -/
def batchLedger : Ledger where
  code := Function.update sampleLedger.code 0x201 .proxy
  storage _ slot :=
    if slot = adminSlot then 0x101
    else if slot = implementationSlot then 0x103
    else if slot = executorSlot then 0x100
    else if slot = rollbackSlot then 0x300
    else 0
  escrows a := if a = 0x200 then ⟨10, false⟩ else if a = 0x201 then ⟨11, false⟩ else ⟨0, false⟩
  factoryOwner := 0x100
  destroyed := []

private theorem deployed_batch : Deployed sampleDeployment batchLedger.code :=
  EscrowControl.deployed_create deployed_sample (by decide) rfl rfl

private theorem inService_batch : InService sampleDeployment 0x200 batchLedger ∧
    InService sampleDeployment 0x201 batchLedger := by
  refine ⟨⟨rfl, ?_, ⟨by decide, by decide, by decide⟩⟩,
    ⟨rfl, ?_, ⟨by decide, by decide, by decide⟩⟩⟩
  · rw [Escrowed]
    decide
  · rw [Escrowed]
    decide

set_option maxRecDepth 100000 in
/-- The first proxy gets another logic contract and the second an update, one by one. If somebody
forwards a `cancel` that names account `11`, and the logic contract accepts what comes then, the
first proxy goes to `11` instead of its master. -/
theorem sample_batch :
    returned (inOrder (updateState (Exec.call (handle sampleDeployment (fun _ _ _ => .revert) 1))
      ⟨12, 12, 0x100⟩) [(0x200, .upgrade 0x102), (0x201, .updateState 0 [] [])])
      ⟨batchLedger, []⟩ = some () ∧
    (match updateStateAndCancel (Exec.call (handle sampleDeployment (fun _ _ _ => .stop) 1))
        ⟨12, 12, 0x100⟩ [0x200] [.cancel 11] ⟨batchLedger, []⟩ with
      | .ok _ w' => some (w'.ledger.reserved 0x200).admin
      | .error _ _ => none) = some 11 := by
  decide +kernel

/-- Two updates of different proxies as one batch. -/
theorem batch_of_two :
    ∃ w₁ w₂, updateStates (Exec.call (handle sampleDeployment (fun _ _ _ => .revert) 1))
        ⟨12, 12, 0x100⟩ [0x200, 0x201] [.upgrade 0x102, .updateState 0 [] []]
        ⟨batchLedger, []⟩ = .ok () w₁ ∧
      updateStateAndCancel (Exec.call (handle sampleDeployment (fun _ _ _ => .revert) 1))
        ⟨12, 12, 0x100⟩ [0x200, 0x201] [.upgrade 0x102, .updateState 0 [] []]
        ⟨batchLedger, []⟩ = .ok () w₂ ∧
      (w₂.ledger.reserved 0x200).admin = 10 ∧ (w₂.ledger.reserved 0x201).admin = 11 := by
  obtain ⟨w₁, hsingle⟩ := exists_of_returned sample_batch.1
  have hbatch : Batch sampleDeployment batchLedger
      [(0x200, .upgrade 0x102), (0x201, .updateState 0 [] [])] := by
    refine ⟨by decide, ?_⟩
    rw [forall_mem_cons, forall_mem_singleton]
    exact inService_batch
  have hiff := batch_iff sampleDeployment (fun _ _ _ => .revert) 1 ⟨12, 12, 0x100⟩
    ⟨batchLedger, []⟩ deployed_batch rfl [0x200, 0x201] [.upgrade 0x102, .updateState 0 [] []] rfl
  obtain ⟨w₂, hcancel, hback⟩ :=
    (hiff.2 hbatch ⟨w₁, hsingle⟩ (by simp [Calldata.isCancel])).mpr ⟨by decide, by decide⟩
  rw [forall_mem_cons, forall_mem_singleton] at hback
  exact ⟨w₁, w₂, (hiff.1 w₁ hsingle).mpr (by decide), hcancel, hback.1.admin, hback.2.admin⟩

/-- A forwarded `cancel` takes the proxy to whomever it names. -/
theorem not_handedBack_of_forwardedCancel :
    ∃ w', updateStateAndCancel (Exec.call (handle sampleDeployment (fun _ _ _ => .stop) 1))
        ⟨12, 12, 0x100⟩ [0x200] [.cancel 11] ⟨batchLedger, []⟩ = .ok () w' ∧
      ¬HandedBack 0x200 batchLedger w'.ledger := by
  have hsample := sample_batch.2
  split at hsample
  next w' hrun =>
    refine ⟨w', hrun, fun hback => ?_⟩
    have hadmin := Option.some.inj hsample
    rw [hback.admin] at hadmin
    exact absurd hadmin (by decide)
  next => cases hsample

/-- Any number of state updates of one proxy get through one by one. -/
theorem exists_inOrder_replicate {env : Surroundings} {depth : Nat}
    (hdep : Deployed d w.ledger.code) (hself : c.self = d.service) (hp : InService d p w.ledger)
    (hdepth : 0 < depth) (proof : Word) (keys vals : List Word) (n : Nat) :
    ∃ w', inOrder (updateState (Exec.call (handle d env depth)) c)
      (List.replicate n (p, .updateState proof keys vals)) w = .ok () w' := by
  induction n generalizing w with
  | zero => exact ⟨w, rfl⟩
  | succ n ih =>
    obtain ⟨w₁, hupdate⟩ := (@exists_updateState_iff d env depth c p
      (.updateState proof keys vals) w hdep hself hp rfl).mpr ⟨hdepth, trivial⟩
    obtain ⟨hspares, hp₁, -⟩ := updateState_ok hdep hself hp rfl hupdate
    obtain ⟨w', hrest⟩ := ih (by rw [hspares.code]; exact hdep) hp₁
    exact ⟨w', inOrder_cons_eq_ok.mpr ⟨w₁, hupdate, hrest⟩⟩

/-- 256 updates get through one by one, but not as a batch. -/
theorem batch_of_256 :
    (∃ w', inOrder (updateState (Exec.call (handle sampleDeployment (fun _ _ _ => .revert) 1))
        ⟨10, 10, 0x100⟩) ((List.replicate 256 0x200).zip
          (List.replicate 256 (.updateState 0 [] []))) ⟨batchLedger, []⟩ = .ok () w') ∧
      ∀ w', updateStates (Exec.call (handle sampleDeployment (fun _ _ _ => .revert) 1))
        ⟨10, 10, 0x100⟩ (List.replicate 256 0x200) (List.replicate 256 (.updateState 0 [] []))
          ⟨batchLedger, []⟩ ≠ .ok () w' := by
  constructor
  · rw [zip_replicate']
    exact exists_inOrder_replicate deployed_batch rfl inService_batch.1 Nat.one_pos 0 [] [] 256
  · intro w' h
    have hlength := (length_replicate (a := (0x200 : Address)) (n := 256)).trans
      (length_replicate (a := Calldata.updateState 0 [] [])).symm
    have hsize := ((updateStates_eq_ok hlength).mp h).2
    rw [length_replicate] at hsize
    omega

end CloakBridge.Service
