import CloakBridge.Models.Evm.Supply

/-!
# When a transaction conserves the balances

A transaction brings money into being in three ways: a deployment gives the new account
the gas of the call, a creation gives the new account its endowment twice, and a payment
to oneself is a credit only. Since nothing destroys money, the sum of all balances is kept
exactly by the transactions that do none of this.
-/

namespace CloakBridge.Evm

open Tee Kv CloakBridge.Frame EVMC

/-- The operation brings money into being: it endows a new account, or pays the account that it is
performed by. -/
inductive Machine.Mints (pf : Platform) (m : Machine) : Prop
  | endowment {salted : Bool} {c : Context} {value : Word} {initCode : ByteString} {r : Regs}
    {newAddress : Address} {m' : Machine} (hop : m.opcode = some (.create salted))
    (hc : m.ctxts.head? = some c) (hstatic : c.inStaticMode = false)
    (hargs : createArguments c.toRegs = .ok (value, initCode) r)
    (hnew : createAddress pf c.account salted initCode
      { m with ctxts := m.ctxts.set 0 { c with toRegs := r } } = .ok newAddress m')
    (hvalue : value ≠ 0)
  | selfPayment {kind : CallKind} {c : Context} {args : CallArguments} {r : Regs}
    (hop : m.opcode = some (.call kind)) (hc : m.ctxts.head? = some c)
    (hargs : callArguments kind c.toRegs = .ok args r)
    (hnative : ¬(1 ≤ args.addr ∧ args.addr ≤ 8)) (hself : args.addr = c.account.address)
    (hpay : Payable m.world.tx.view c.account.address c.account.address args.value)
    (hvalue : args.value ≠ 0)

/-- The sum of all balances stays, unless something is marked for destruction, which ends a run. -/
def conserving : Frame Machine where
  rel m m' := m'.selfdestructList = [] →
    m.selfdestructList = [] ∧ supply m'.world.tx.view = supply m.world.tx.view
  refl _ h := ⟨h, rfl⟩
  trans h h' hnil := by
    obtain ⟨hmid, hlast⟩ := h' hnil
    obtain ⟨hfirst, hsame⟩ := h hmid
    exact ⟨hfirst, hlast.trans hsame⟩

variable {p : AccountProxy} {amount x : Word} {w : World} {pf : Platform} {origin : Address}
  {op : Opcode} {m m' m₁ : Machine} {α β : Type} {fuel : Nat}

private theorem interprets_conserving : Interprets conserving supplyStays where
  reads := supplyStays.lookups.reads
  lookups := supplyStays.lookups
  world _ _ hw hnil := ⟨hnil, hw⟩
  regs _ _ _ _ _ hnil := ⟨hnil, rfl⟩
  leave _ hnil := ⟨hnil, rfl⟩
  result _ _ hnil := ⟨hnil, rfl⟩
  enter _ _ _ _ _ _ hnil := ⟨hnil, rfl⟩

private theorem steps_destroyed :
    Steps (.observing fun m : Machine => m.selfdestructList) supplyStays where
  reads := supplyStays.lookups.reads
  world _ _ _ := rfl
  regs _ _ _ _ _ := rfl
  leave _ := rfl
  result _ _ := rfl

private theorem rel_destroy {recipient : AccountProxy} (m : Machine) :
    conserving.rel m (stateAfter (do
      inWorld (p.payTo recipient amount)
      addSelfdestruct p.address
      stop) m) := by
  rcases p.payTo_cases recipient amount m.world with ⟨-, w', hrun, -⟩ | ⟨-, e, w', hrun, hview⟩
  · have hpaid : inWorld (p.payTo recipient amount) m = .ok () { m with world := w' } :=
      inWorld_eq_ok.mpr ⟨w', hrun, rfl⟩
    rw [stateAfter_bind_of_ok hpaid]
    intro hnil
    have hmarked : addSelfdestruct p.address { m with world := w' } = .ok () { m with
        world := w', selfdestructList := m.selfdestructList ++ [p.address] } := rfl
    have hstop : (stateAfter stop { m with
        world := w', selfdestructList := m.selfdestructList ++ [p.address] }).selfdestructList =
          m.selfdestructList ++ [p.address] := keeps_stop steps_destroyed _
    rw [stateAfter_bind_of_ok hmarked, hstop] at hnil
    exact absurd hnil (by simp)
  · have hthrew :
        inWorld (p.payTo recipient amount) m = .error (.evm e) { m with world := w' } := by
      rw [inWorld, hrun]
    rw [stateAfter_bind_of_error hthrew]
    exact interprets_conserving.world m w'
      (supplyStays.of_balances (balancesStay.of_rows (congrFun hview _)))

private theorem payable_of_get {a x y : Address} {w' : World}
    (hget : EthereumState.get a w = .ok p w')
    (h : Payable w'.tx.view x y amount) : Payable w.tx.view x y amount := by
  have hstay : balanceOf w'.tx.view = balanceOf w.tx.view := (balancesStay.lookups.get a).of_ok hget
  rw [Payable, ← hstay]
  exact h

private theorem keeps_enterCreation_conserving (c : Context) (newAddress : Address)
    (initCode : ByteString) : conserving.Keeps (enterCreation c newAddress 0 initCode) := by
  have hS := interprets_conserving.toSteps
  have hcreate : supplyStays.Keeps (EthereumState.create newAddress 0 []) := fun w =>
    supplyStays.of_balances (balancesStay.keeps_createEmpty newAddress w)
  refine keeps_bind (keeps_inWorld hS hcreate) fun newAcc => ?_
  refine keeps_bind (keeps_inWorld hS fun w => ?_) fun _ => ?_
  · exact supplyStays.rel_payTo fun _ _ => rfl
  · exact keeps_pushContext fun m hnil => ⟨hnil, rfl⟩

/-- An operation that does not bring money into being keeps the sum. -/
theorem rel_exec_of_not_mints (hown : m.world.OwnProxies) (hop : m.opcode = some op)
    (hm : ¬m.Mints pf) : conserving.rel m (stateAfter (op.exec pf origin) m) := by
  have hS := interprets_conserving.toSteps
  have hL := supplyStays.lookups
  have hreading : op.Reading → conserving.rel m (stateAfter (op.exec pf origin) m) :=
    fun hreads => keeps_exec_of_reading interprets_conserving hreads m
  cases op with
  | sstore =>
    exact rel_sstore hS fun c key value _ w =>
      supplyStays.of_balances (balancesStay.keeps_sstore pf c.account key value w)
  | log topics => exact keeps_log hS (fun entry m hnil => ⟨hnil, rfl⟩) topics m
  | return_ =>
    exact rel_return_ hS fun _ account output _ _ w =>
      supplyStays.of_balances (balancesStay.keeps_setCode account output w)
  | selfdestruct =>
    exact rel_selfdestruct_of_end hS (fun _ _ _ _ _ => hL.get _) fun _ _ _ _ _ _ _ _ _ _ _ m' _ =>
      rel_destroy m'
  | create salted =>
    refine rel_create hS fun c value initCode r newAddress m' hc hstatic hargs hnew => ?_
    have hzero : value = 0 := by
      by_contra hvalue
      exact hm (.endowment hop hc hstatic hargs hnew hvalue)
    rw [hzero]
    exact keeps_enterCreation_conserving c newAddress initCode
  | call kind =>
    refine rel_call hS (fun _ _ _ _ _ => hL.get _)
      (fun c args r callee w hc hargs hnative hget => ?_)
      fun c args r callee w input m' _ _ _ _ => ?_
    · have haddress := EthereumState.address_of_get hown hget
      refine supplyStays.rel_payTo fun hself hpay => ?_
      rw [← hself] at hpay
      by_contra hvalue
      exact hm (.selfPayment hop hc hargs hnative (haddress.symm.trans hself.symm)
        (payable_of_get hget hpay) hvalue)
    · exact keeps_enterCall hS
        (fun m _ _ _ hhandler => interprets_conserving.enter m _ _ _ _ hhandler) m'
  | _ => exact hreading trivial

/-- The computation returned, or ended in an exception that the interpreter catches. -/
def Survives {α : Type} (x : Run α) (m m' : Machine) : Prop :=
  (∃ a, x m = .ok a m') ∨ ∃ type, x m = .error (.evm type) m'

private theorem Survives.stateAfter_eq {x : Run α} (h : Survives x m m') : stateAfter x m = m' := by
  rcases h with ⟨a, h⟩ | ⟨type, h⟩
  · rw [stateAfter, h]
  · rw [stateAfter, h]

private theorem Survives.of_bind {x : Run α} {f : α → Run β} {a : α} (h : Survives (x >>= f) m m')
    (hx : x m = .ok a m₁) : Survives (f a) m₁ m' := by
  rw [Survives, bind_of_ok hx] at h
  exact h

private theorem Survives.of_inWorld {x : Exec α} {f : α → Run β}
    (h : Survives (inWorld x >>= f) m m')
    (hx : ∀ type w, x m.world ≠ .error (.evm type) w) :
    ∃ a w, x m.world = .ok a w ∧ Survives (f a) { m with world := w } m' := by
  cases hrun : x m.world with
  | ok a w => exact ⟨a, w, rfl, h.of_bind (inWorld_eq_ok.mpr ⟨w, hrun, rfl⟩)⟩
  | error e w =>
    have herror : inWorld x m = .error e { m with world := w } := by
      rw [inWorld, hrun]
    rw [Survives, bind_of_error herror] at h
    rcases h with ⟨a, h⟩ | ⟨type, h⟩
    · cases h
    · cases h
      exact absurd hrun (hx type w)

/-- The computation throws none of the exceptions that the interpreter catches. -/
def Unexceptional {α : Type} (x : Exec α) : Prop := ∀ type w w', x w ≠ .error (.evm type) w'

section Unexceptional

private theorem unexceptional_bind {x : Exec α} {f : α → Exec β} (hx : Unexceptional x)
    (hf : ∀ a, Unexceptional (f a)) : Unexceptional (x >>= f) := by
  intro type w w' h
  rcases bind_eq_error.mp h with hthrow | ⟨a, w₁, -, hthrow⟩
  · exact hx type w w' hthrow
  · exact hf a type w₁ w' hthrow

private theorem unexceptional_pure (a : α) : Unexceptional (pure a) := fun _ _ _ h => nomatch h

private theorem unexceptional_get (t : TableName) (k : t.Key) : Unexceptional (Exec.get t k) :=
  fun _ _ _ h => nomatch h

private theorem unexceptional_put (t : TableName) (k : t.Key) (v : t.Val) :
    Unexceptional (Exec.put t k v) := fun _ _ _ h => nomatch h

private theorem unexceptional_throwIf (c : Prop) [Decidable c] {e : Error}
    (he : ∀ type, e ≠ .evm type) :
    Unexceptional (Exec.throwIf c e) := by
  intro type w w' h
  by_cases hc : c
  · rw [Exec.throwIf_of_pos hc] at h
    cases h
    exact he type rfl
  · rw [Exec.throwIf, if_neg hc] at h
    cases h

private theorem unexceptional_addToCache (a : Address) :
    Unexceptional (EthereumState.addToCache a) := by
  refine unexceptional_bind (unexceptional_get _ _) fun level => ?_
  refine unexceptional_bind (unexceptional_get _ _) fun key => ?_
  refine unexceptional_bind (fun _ _ _ h => nomatch h) fun cached => ?_
  refine unexceptional_bind (unexceptional_throwIf _ fun _ => nofun) fun _ => ?_
  exact unexceptional_bind (fun _ _ _ h => nomatch h) fun _ => unexceptional_pure _

private theorem unexceptional_create (a : Address) (balance : Word) (code : ByteString) :
    Unexceptional (EthereumState.create a balance code) := by
  refine unexceptional_bind ?_ fun _ => unexceptional_addToCache a
  refine unexceptional_bind (unexceptional_get _ _) fun _ => ?_
  refine unexceptional_bind (unexceptional_throwIf _ fun _ => nofun) fun _ => ?_
  refine unexceptional_bind (unexceptional_put _ _ _) fun _ => ?_
  refine unexceptional_bind (unexceptional_get _ _) fun _ => ?_
  refine unexceptional_bind (unexceptional_throwIf _ fun _ => nofun) fun _ => ?_
  refine unexceptional_bind (unexceptional_put _ _ _) fun _ => ?_
  refine unexceptional_bind (unexceptional_get _ _) fun _ => ?_
  refine unexceptional_bind (unexceptional_throwIf _ fun _ => nofun) fun _ => ?_
  exact unexceptional_put _ _ _

private theorem unexceptional_lookup (a : Address) : Unexceptional (EthereumState.get a) := by
  refine unexceptional_bind (fun _ _ _ h => nomatch h) fun cached => ?_
  cases cached with
  | some p => exact unexceptional_pure p
  | none =>
    refine unexceptional_bind (unexceptional_get _ _) fun row => ?_
    split
    · exact unexceptional_create a 0 []
    · exact unexceptional_addToCache a

end Unexceptional

section Minting

variable {pf : Platform} {m m' : Machine} {c : Context} {r : Regs}

private theorem grows : InterpretsAll (onWorld supplyGrows) supplyGrows :=
  interpretsAll_onWorld supplyGrows.executes.toInteracts

private theorem toNat_pos (h : x ≠ 0) : 0 < x.toNat := by
  rw [Nat.pos_iff_ne_zero]
  intro hzero
  exact h (BitVec.eq_of_toNat_eq hzero)

/-- The new account has its endowment before it is paid. -/
theorem supply_lt_of_create {salted : Bool} {value : Word} {initCode : ByteString}
    {newAddress : Address} (hc : m.ctxts.head? = some c) (hstatic : c.inStaticMode = false)
    (hargs : createArguments c.toRegs = .ok (value, initCode) r)
    (hnew : createAddress pf c.account salted initCode
      { m with ctxts := m.ctxts.set 0 { c with toRegs := r } } = .ok newAddress m₁)
    (hvalue : value ≠ 0) (h : Survives (create pf salted) m m') :
    supply m.world.tx.view < supply m'.world.tx.view := by
  have hread : atContext 0 createArguments m = .ok (value, initCode)
      { m with ctxts := m.ctxts.set 0 { c with toRegs := r } } :=
    atContext_eq_ok.mpr ⟨c, r, List.head?_eq_getElem? ▸ hc, hargs, rfl⟩
  have henter : Survives (enterCreation c newAddress value initCode) m₁ m' := by
    have h₁ := h.of_bind (refuseStatic_eq_ok (u := ()).mpr ⟨⟨c, hc, hstatic⟩, rfl⟩)
    have h₂ := (h₁.of_bind (current_eq_ok.mpr ⟨hc, rfl⟩)).of_bind hread
    exact h₂.of_bind hnew
  obtain ⟨newAcc, w, hcreate, hrest⟩ := henter.of_inWorld fun type w' =>
    unexceptional_create newAddress value [] type _ w'
  have hkept := (keeps_createAddress grows.toSteps pf c.account salted initCode).of_ok hnew
  have hstart : supply m.world.tx.view ≤ supply m₁.world.tx.view := hkept
  have hend : supply w.tx.view ≤ supply m'.world.tx.view := by
    have hkeeps : (onWorld supplyGrows).Keeps (do
        inWorld (c.account.payTo newAcc value)
        pushContext (creationContext c newAcc initCode)) := by
      refine keeps_bind (keeps_inWorld grows.toSteps (supplyGrows.keeps_payTo _ _ _)) ?_
      exact fun _ => keeps_pushContext fun m => grows.enterAny m _
    have hafter := hkeeps { m₁ with world := w }
    rw [hrest.stateAfter_eq] at hafter
    exact hafter
  have hadd := supply_of_create hcreate
  have hpos := toNat_pos hvalue
  omega

private theorem keeps_afterPayment (kind : CallKind) (c : Context) (callee : AccountProxy)
    (args : CallArguments) : (onWorld supplyGrows).Keeps (do
      let hasCode ← inWorld callee.hasCode
      if hasCode then do
        atContext 0 (prepareMemAccess args.offOut args.sizeOut)
        let input ← atContext 0 (copyFromMem args.offIn args.sizeIn)
        enterCall kind c callee input args
      else atContext 0 (push 1)) := by
  have hS := grows.toSteps
  refine keeps_bind (keeps_inWorld hS (callee.keeps_hasCode hS.reads)) fun hasCode => ?_
  refine keeps_ite (fun _ => ?_) fun _ => keeps_atContext hS _ _
  refine keeps_bind (keeps_atContext hS _ _) fun _ => ?_
  refine keeps_bind (keeps_atContext hS _ _) fun input => ?_
  exact keeps_enterCall hS fun m c' _ _ _ => grows.enterAny m c'

/-- The payment to oneself is made, and adds its amount. -/
theorem supply_lt_of_call {kind : CallKind} {args : CallArguments} (hown : m.world.OwnProxies)
    (hc : m.ctxts.head? = some c) (hargs : callArguments kind c.toRegs = .ok args r)
    (hnative : ¬(1 ≤ args.addr ∧ args.addr ≤ 8)) (hself : args.addr = c.account.address)
    (hpay : Payable m.world.tx.view c.account.address c.account.address args.value)
    (hvalue : args.value ≠ 0) (h : Survives (call kind) m m') :
    supply m.world.tx.view < supply m'.world.tx.view := by
  have hread : atContext 0 (callArguments kind) m = .ok args
      { m with ctxts := m.ctxts.set 0 { c with toRegs := r } } :=
    atContext_eq_ok.mpr ⟨c, r, List.head?_eq_getElem? ▸ hc, hargs, rfl⟩
  have h₁ := (h.of_bind (current_eq_ok.mpr ⟨hc, rfl⟩)).of_bind hread
  rw [if_neg hnative] at h₁
  obtain ⟨callee, w, hget, h₂⟩ :=
    h₁.of_inWorld fun type w' => unexceptional_lookup args.addr type _ w'
  have haddress : callee.address = c.account.address :=
    (EthereumState.address_of_get hown hget).trans hself
  have hbalances : balanceOf w.tx.view = balanceOf m.world.tx.view :=
    (balancesStay.lookups.get args.addr).of_ok hget
  have hpayable : Payable w.tx.view c.account.address c.account.address args.value := by
    rw [Payable, hbalances]
    exact hpay
  rcases c.account.payTo_cases callee args.value w with ⟨-, w', hrun, hview⟩ | ⟨hnot, -⟩
  · have hend : supply w'.tx.view ≤ supply m'.world.tx.view := by
      have h₃ := h₂.of_bind (inWorld_eq_ok.mpr ⟨w', hrun, rfl⟩)
      have hafter := keeps_afterPayment kind c callee args
        { m with world := w', ctxts := m.ctxts.set 0 { c with toRegs := r } }
      rw [h₃.stateAfter_eq] at hafter
      exact hafter
    rw [haddress] at hview
    have hadd := supply_paid_self hpayable
    rw [← hview, supply_congr hbalances] at hadd
    have hpos := toNat_pos hvalue
    omega
  · rw [haddress] at hnot
    exact absurd hpayable hnot

/-- The operation of a round survives it. -/
theorem survives_of_next (hop : m.opcode = some op) (h : next pf origin m () = some m') :
    ∃ m₁, Survives (op.exec pf origin) m m₁ ∧
      supply m₁.world.tx.view ≤ supply m'.world.tx.view := by
  obtain ⟨⟨⟩, m₂, htry, hstep⟩ := bind_eq_ok.mp (cycle_of_next h)
  have hlast : m'.world = m₂.world := by
    obtain ⟨-, rfl⟩ := modifyGet_eq_ok.mp hstep
    rfl
  have hdispatch : dispatch pf origin m = op.exec pf origin m := by
    rw [dispatch, bind_of_ok (show (get : Run Machine) m = .ok m m from rfl)]
    simp only [hop]
  rw [hlast]
  cases hexec : op.exec pf origin m with
  | ok u m₁ =>
    rw [tryDispatch, tryCatch_of_ok (hdispatch.trans hexec)] at htry
    cases htry
    exact ⟨m₂, Or.inl ⟨_, hexec⟩, le_rfl⟩
  | error e m₁ =>
    rw [tryDispatch, tryCatch_of_error (hdispatch.trans hexec)] at htry
    cases e with
    | evm type =>
      exact ⟨m₁, Or.inr ⟨type, hexec⟩, (keeps_handleException grows.toSteps type).of_ok htry⟩
    | _ => cases htry

/-- Where the operation brings money into being, the sum of all balances becomes larger. -/
theorem supply_lt_of_mints (hown : m.world.OwnProxies) (hmints : m.Mints pf)
    (h : next pf origin m () = some m') : supply m.world.tx.view < supply m'.world.tx.view := by
  cases hmints with
  | endowment hop hc hstatic hargs hnew hvalue =>
    obtain ⟨m₁, hsurvives, hle⟩ := survives_of_next hop h
    exact (supply_lt_of_create hc hstatic hargs hnew hvalue hsurvives).trans_le hle
  | selfPayment hop hc hargs hnative hself hpay hvalue =>
    obtain ⟨m₁, hsurvives, hle⟩ := survives_of_next hop h
    exact (supply_lt_of_call hown hc hargs hnative hself hpay hvalue hsurvives).trans_le hle

end Minting

section Loop

variable {pf : Platform} {origin : Address} {m₀ m mEnd : Machine}

private theorem loop_of_next (h : next pf origin m () = some m') (fuel : Nat) :
    loop pf origin (fuel + 1) m = loop pf origin fuel m' := by
  have hcycle := cycle_of_next h
  rw [loop, bind_of_ok (show (get : Run Machine) m = .ok m m from rfl)]
  unfold next at h
  cases hctxts : m.ctxts with
  | nil =>
    rw [hctxts] at h
    cases h
  | cons c rest =>
    simp only [hctxts] at h
    split at h
    next hpc =>
      dsimp only
      rw [if_pos hpc, bind_of_ok hcycle]
    next => cases h

/-- A loop that ends also ends from every machine on its way. -/
theorem exists_loop_of_reachable (hreach : Reachable (next pf origin) m₀ m)
    (hloop : loop pf origin fuel m₀ = .ok () mEnd) :
    ∃ fuel', loop pf origin fuel' m = .ok () mEnd := by
  induction hreach with
  | refl => exact ⟨fuel, hloop⟩
  | tail _ _ hstep ih =>
    obtain ⟨fuel', hrest⟩ := ih
    cases fuel' with
    | zero => cases hrest
    | succ fuel' =>
      rw [loop_of_next hstep] at hrest
      exact ⟨fuel', hrest⟩

private theorem exists_next_of_loop (hop : m.opcode = some op)
    (hloop : loop pf origin fuel m = .ok () mEnd) :
    ∃ m' fuel', next pf origin m () = some m' ∧ loop pf origin fuel' m' = .ok () mEnd := by
  cases fuel with
  | zero => cases hloop
  | succ fuel =>
    rw [loop, bind_of_ok (show (get : Run Machine) m = .ok m m from rfl)] at hloop
    cases hctxts : m.ctxts with
    | nil =>
      rw [Machine.opcode, hctxts] at hop
      cases hop
    | cons c rest =>
      have hpc : c.pc < c.code.length := by
        rw [Machine.opcode, hctxts, List.head?_cons, Option.bind_some] at hop
        obtain ⟨byte, hbyte, -⟩ := Option.bind_eq_some_iff.mp hop
        exact (List.getElem?_eq_some_iff.mp hbyte).1
      simp only [hctxts, if_pos hpc] at hloop
      obtain ⟨⟨⟩, m', hcycle, hrest⟩ := bind_eq_ok.mp hloop
      refine ⟨m', fuel, ?_, hrest⟩
      simp only [next, hctxts, if_pos hpc, hcycle]

private theorem ownProxies_of_reachable (hown : m₀.world.OwnProxies)
    (hreach : Reachable (next pf origin) m₀ m) : m.world.OwnProxies := by
  have hall := interpretsAll_onWorld ownProxies.executes.toInteracts
  exact hreach.invariant (I := fun m => m.world.OwnProxies) hown fun m₁ _ m₂ hm₁ _ hnext =>
    rel_next hall.toSteps hnext (fun op _ => keeps_exec hall op m₁) hm₁

private theorem supply_le_of_reachable (hreach : Reachable (next pf origin) m₀ m) :
    supply m₀.world.tx.view ≤ supply m.world.tx.view := by
  refine hreach.invariant (I := fun m => supply m₀.world.tx.view ≤ supply m.world.tx.view) le_rfl
    fun m₁ _ m₂ hle _ hnext => ?_
  have hstep : supply m₁.world.tx.view ≤ supply m₂.world.tx.view :=
    rel_next grows.toSteps hnext fun op _ => keeps_exec grows op m₁
  exact hle.trans hstep

/-- A loop that ends has kept the sum of all balances exactly if no operation on its way brought
money into being. -/
theorem supply_eq_iff_of_loop (hown : m₀.world.OwnProxies) (hend : mEnd.selfdestructList = [])
    (hloop : loop pf origin fuel m₀ = .ok () mEnd) :
    supply mEnd.world.tx.view = supply m₀.world.tx.view ↔
      ∀ m, Reachable (next pf origin) m₀ m → ¬m.Mints pf := by
  constructor
  · intro hsame m hreach hmints
    obtain ⟨op, hop⟩ : ∃ op, m.opcode = some op := by
      cases hmints with
      | endowment hop => exact ⟨_, hop⟩
      | selfPayment hop => exact ⟨_, hop⟩
    obtain ⟨fuel₁, hrest⟩ := exists_loop_of_reachable hreach hloop
    obtain ⟨m', fuel₂, hnext, hlast⟩ := exists_next_of_loop hop hrest
    have hbefore := supply_le_of_reachable hreach
    have hmore := supply_lt_of_mints (ownProxies_of_reachable hown hreach) hmints hnext
    have hafter : supply m'.world.tx.view ≤ supply mEnd.world.tx.view :=
      (keeps_loop grows fuel₂).of_ok hlast
    omega
  · intro hquiet
    have hrel : conserving.rel m₀ (stateAfter (loop pf origin fuel) m₀) :=
      rel_loop interprets_conserving.toSteps fuel fun m hreach op hop =>
        rel_exec_of_not_mints (ownProxies_of_reachable hown hreach) hop (hquiet m hreach)
    rw [stateAfter, hloop] at hrel
    exact (hrel hend).2

end Loop

/-- The value that the innermost context observes was taken from its caller and given to its
account, compared with the balances in `c`. -/
def Machine.ValueMoved (c : Contents) (m : Machine) : Prop :=
  ∀ context, m.ctxts.head? = some context → ∀ a,
    (balanceOf m.world.tx.view a).toNat +
        (if a = context.caller then context.callValue.toNat else 0) =
      (balanceOf c a).toNat + if a = context.account.address then context.callValue.toNat else 0

/-- The transaction has no value, or calls its own sender; a deployment has no gas; and no operation
brings money into being. -/
structure Frugal (pf : Platform) (call : MessageCall) (w : World) : Prop where
  gas : call.to_ = none → call.gas = 0
  value : call.value = 0 ∨ call.to_ = some call.from_
  steps : ∀ m₀, EVMC.Enters call w m₀ → ∀ m, Reachable (next pf call.from_) m₀ m → ¬m.Mints pf

section Transactions

variable {pf : Platform} {fuel : Nat} {call : MessageCall} {w w' : World} {to_ : Address}
  {m₀ : Machine}

/-- The callee of a call has the balance it had; the account of a deployment is new and has the gas
of the call. -/
theorem balances_of_callee (hcache : w.cache = fun _ => none)
    (h : EVMC.callee call w = .ok to_ w') :
    call.to_ = some to_ ∧ w' = w ∨
      call.to_ = none ∧ to_ ≠ call.from_ ∧ balanceOf w.tx.view to_ = 0 ∧
        balanceOf w'.tx.view = Function.update (balanceOf w.tx.view) to_ call.gas ∧
          supply w'.tx.view = supply w.tx.view + call.gas.toNat := by
  unfold EVMC.callee at h
  cases hto : call.to_ with
  | some a =>
    rw [hto] at h
    obtain ⟨rfl, rfl⟩ := pure_eq_ok.mp h
    exact Or.inl ⟨rfl, rfl⟩
  | none =>
    rw [hto] at h
    obtain ⟨sender, w₁, hget, hfound⟩ := bind_eq_ok.mp h
    obtain ⟨nonce, w₂, hnonce, hread⟩ := bind_eq_ok.mp hfound
    obtain ⟨new, w₃, hcreate, hmade⟩ := bind_eq_ok.mp hread
    obtain ⟨rfl, rfl⟩ := pure_eq_ok.mp hmade
    have hbalances : balanceOf w₂.tx.view = balanceOf w.tx.view := by
      have hlooked : balanceOf w₁.tx.view = balanceOf w.tx.view :=
        (balancesStay.lookups.get call.from_).of_ok hget
      rw [(view_of_getNonce hnonce).2, hlooked]
    obtain ⟨hnone, hnew⟩ := balanceOf_of_create hcreate
    have hknown := balance_of_get (congrFun hcache _) hget
    rw [← (view_of_getNonce hnonce).2] at hknown
    refine Or.inr ⟨rfl, ?_, ?_, ?_, ?_⟩
    · intro heq
      rw [heq] at hnone
      rw [hnone] at hknown
      cases hknown
    · rw [← hbalances, balanceOf, hnone, Option.getD_none]
    · rw [hnew, balanceOf_setRow, hbalances]
    · rw [supply_of_create hcreate, supply_congr hbalances]

private theorem EVMC.balances_of_enter (hw : w.OwnProxies) (h : EVMC.enter call to_ w = .ok m w') :
    m.world.OwnProxies ∧ balanceOf m.world.tx.view = balanceOf w.tx.view ∧
      ∃ c, m.ctxts.head? = some c ∧ c.caller = call.from_ ∧ c.callValue = call.value ∧
        c.account.address = to_ := by
  obtain ⟨account, w₁, w₂, code, hget, hhas, hcode, rfl⟩ := enter_eq_ok.mp h
  have hlooked : ∀ {G : Frame World}, G.Lookups → G.rel w w' := fun {G} hG =>
    G.trans (G.trans ((hG.get to_).of_ok hget) ((account.keeps_hasCode hG.reads).of_ok hhas))
      ((account.keeps_getCode hG.reads).of_ok hcode)
  exact ⟨hlooked ownProxies.executes.toLookups hw, hlooked balancesStay.lookups, _, rfl, rfl, rfl,
    EthereumState.address_of_get hw hget⟩

private theorem eq_zero_of_toNat (h : x.toNat = 0) : x = 0 := BitVec.eq_of_toNat_eq h

/-- What the callee observes was moved exactly if there is nothing to move. -/
theorem valueMoved_iff (hcache : w.cache = fun _ => none) (hw : w.OwnProxies)
    (h : EVMC.Enters call w m₀) : m₀.ValueMoved w.tx.view ↔
      (call.to_ = none → call.gas = 0) ∧ (call.value = 0 ∨ call.to_ = some call.from_) := by
  obtain ⟨to_, w₁, w₂, hcallee, henter⟩ := h
  have hw₁ := (keeps_callee ownProxies.executes call).of_ok hcallee hw
  obtain ⟨-, hbalances, c, hc, hcaller, hvalue, haddress⟩ := balances_of_enter hw₁ henter
  have hmoved : m₀.ValueMoved w.tx.view ↔ ∀ a, (balanceOf w₁.tx.view a).toNat +
      (if a = call.from_ then call.value.toNat else 0) =
        (balanceOf w.tx.view a).toNat + if a = to_ then call.value.toNat else 0 := by
    rw [Machine.ValueMoved, hc, hbalances]
    simp only [Option.some.injEq, forall_eq', hcaller, hvalue, haddress]
  rw [hmoved]
  rcases balances_of_callee hcache hcallee with ⟨hto, rfl⟩ | ⟨hto, hne, hzero, hnew, -⟩
  · rw [hto]
    constructor
    · intro hall
      refine ⟨fun hnone => absurd hnone (Option.some_ne_none to_), ?_⟩
      by_cases hself : call.from_ = to_
      · exact Or.inr (congrArg some hself.symm)
      · have hsender := hall call.from_
        rw [if_pos rfl, if_neg hself] at hsender
        exact Or.inl (eq_zero_of_toNat (by omega))
    · rintro ⟨-, hzero | hself⟩ a
      · simp [hzero]
      · rw [Option.some.inj hself]
  · constructor
    · intro hall
      have hsender := hall call.from_
      rw [if_pos rfl, if_neg hne.symm, hnew, Function.update_of_ne hne.symm] at hsender
      have hcallee := hall to_
      rw [if_neg hne, if_pos rfl, hnew, Function.update_self, hzero] at hcallee
      have hvalue₀ : call.value = 0 := eq_zero_of_toNat (by omega)
      rw [hvalue₀] at hcallee
      exact ⟨fun _ => eq_zero_of_toNat (by simpa using hcallee), Or.inl hvalue₀⟩
    · rintro ⟨hgas, hzeroValue | hself⟩ a
      · have hsame : balanceOf w₁.tx.view = balanceOf w.tx.view := by
          rw [hnew, hgas hto, Function.update_eq_self_iff, hzero]
        simp [hsame, hzeroValue]
      · rw [hto] at hself
        cases hself

private theorem supply_of_enters (hcache : w.cache = fun _ => none) (hw : w.OwnProxies)
    (h : EVMC.Enters call w m₀) (hgas : call.to_ = none → call.gas = 0) :
    supply m₀.world.tx.view = supply w.tx.view := by
  obtain ⟨to_, w₁, w₂, hcallee, henter⟩ := h
  have hw₁ := (keeps_callee ownProxies.executes call).of_ok hcallee hw
  obtain ⟨-, hbalances, -⟩ := balances_of_enter hw₁ henter
  rw [supply_congr hbalances]
  rcases balances_of_callee hcache hcallee with ⟨-, rfl⟩ | ⟨hto, -, -, -, hsupply⟩
  · rfl
  · rw [hsupply, hgas hto, BitVec.ofNat_eq_ofNat, BitVec.toNat_zero, Nat.add_zero]

/-- A transaction that was executed has kept the sum of all balances, and has moved the value that
the callee observes, exactly if it is frugal. -/
theorem conserves_iff (pf : Platform) (fuel : Nat) (call : MessageCall) (tx : Tx) (tick : Nat)
    (w' : World) (h : EVMC.ReturnsIn pf fuel call (World.fresh tx tick) w') :
    (supply w'.tx.view = supply tx.view ∧
        ∀ m₀, EVMC.Enters call (World.fresh tx tick) m₀ → m₀.ValueMoved tx.view) ↔
      Frugal pf call (World.fresh tx tick) := by
  obtain ⟨result, logs, address, hexit, hrun⟩ := h.runInEvm
  obtain ⟨to_, w₁, ran, w₂, w₃, hcallee, hran, hdeploy, hcount⟩ := parts_of_runInEvm hexit hrun
  obtain ⟨m₀, w₀, m, henter, hloop, hnil, rfl, -⟩ := parts_of_runCallee hran
  have hown := World.ownProxies_fresh tx tick
  have henters : EVMC.Enters call (World.fresh tx tick) m₀ := ⟨to_, w₁, w₀, hcallee, henter⟩
  have hmoved := valueMoved_iff rfl hown henters
  have hsupply : supply w'.tx.view = supply m.world.tx.view := by
    have hdeployed : balanceOf w₃.tx.view = balanceOf m.world.tx.view := by
      refine Frame.Keeps.of_ok (F := balancesStay) ?_ hdeploy
      exact keeps_ite (fun _ => balancesStay.keeps_setCode _ _) fun _ => keeps_pure _
    have hcounted : balanceOf w'.tx.view = balanceOf w₃.tx.view := by
      refine Frame.Keeps.of_ok (F := balancesStay) ?_ hcount
      exact keeps_countTransaction (balancesStay.puts (by decide)) balancesStay.lookups call
    exact supply_congr (hcounted.trans hdeployed)
  have hm₀ : m₀.world.OwnProxies := by
    have hw₁ := (keeps_callee ownProxies.executes call).of_ok hcallee hown
    exact (balances_of_enter hw₁ henter).1
  have hloop_iff := supply_eq_iff_of_loop hm₀ hnil hloop
  rw [hsupply]
  constructor
  · rintro ⟨hsame, hvalue⟩
    obtain ⟨hgas, hnothing⟩ := hmoved.mp (hvalue m₀ henters)
    refine ⟨hgas, hnothing, fun m₁ henters₁ => ?_⟩
    rw [henters.unique henters₁]
    refine hloop_iff.mp (hsame.trans ?_)
    exact (supply_of_enters rfl hown henters hgas).symm
  · rintro ⟨hgas, hnothing, hsteps⟩
    refine ⟨?_, fun m₁ henters₁ => ?_⟩
    · rw [hloop_iff.mpr (hsteps m₀ henters)]
      exact supply_of_enters rfl hown henters hgas
    · rw [henters.unique henters₁]
      exact hmoved.mpr ⟨hgas, hnothing⟩

end Transactions

/-- The machine is not about to create an account, or to pay the account that it is at. -/
def Machine.spends (m : Machine) : Bool :=
  match m.ctxts.head?, m.opcode with
  | some _, some (.create _) => false
  | some c, some (.call kind) =>
    match callArguments kind c.toRegs with
    | .ok args _ => args.addr != c.account.address
    | .error _ _ => true
  | _, _ => true

private theorem not_mints_of_spends (h : m.spends = true) : ¬m.Mints pf := by
  intro hmints
  cases hmints with
  | endowment hop hc => simp [Machine.spends, hop, hc] at h
  | selfPayment hop hc hargs _ hself => simp [Machine.spends, hop, hc, hargs, hself] at h

/-- The balances of some accounts when a call was executed. -/
def balancesAfter (fuel : Nat) (call : MessageCall) (accounts : List Address) (w : World) :
    Option (List Word) :=
  match EVMC.run .mute fuel call w with
  | .ok _ w' => some (accounts.map (balanceOf w'.tx.view))
  | .error _ _ => none

private theorem exists_of_balancesAfter {call : MessageCall} {accounts : List Address}
    {balances : List Word} (h : balancesAfter fuel call accounts w = some balances) :
    ∃ w', EVMC.ReturnsIn .mute fuel call w w' ∧ accounts.map (balanceOf w'.tx.view) = balances := by
  unfold balancesAfter at h
  split at h
  next result w' hrun => exact ⟨w', Or.inl ⟨result, hrun⟩, Option.some.inj h⟩
  next => cases h

/-- A contract with the balance `9` that pays `4` to one with the balance `1`, which stops. -/
def paidStore : Store
  | .balances => .ofRows 1 [(0x10, 9), (0x11, 1)]
  | .codes => .ofRows 1 [(0x10, [0x60, 0, 0x60, 0, 0x60, 0, 0x60, 0, 0x60, 4, 0x60, 0x11, 0x60, 0,
      0xf1, 0x00]), (0x11, [0x00])]
  | _ => .ofRows 0 []

/-- The call of account `7` to the paying contract. -/
def paidCall : MessageCall := { from_ := 7, to_ := some 0x10, gas := 0, value := 0, data := [] }

set_option maxRecDepth 20000 in
private theorem spends_paidCall :
    ∃ m₀, EVMC.Enters paidCall (World.fresh (Tables.start paidStore) 0) m₀ ∧
    Along (next .mute paidCall.from_) (fun m => m.spends = true) 11 m₀ :=
  ⟨_, ⟨_, _, _, rfl, rfl⟩, by decide +kernel⟩

/-- A payment between contracts moves the balances and conserves their sum. -/
theorem conserves_paidCall :
    ∃ w', EVMC.ReturnsIn .mute 11 paidCall (World.fresh (Tables.start paidStore) 0) w' ∧
      [0x10, 0x11].map (balanceOf w'.tx.view) = [5, 5] ∧
        supply w'.tx.view = supply paidStore.content := by
  obtain ⟨w', hreturns, hbalances⟩ := exists_of_balancesAfter (by decide +kernel :
    balancesAfter 11 paidCall [0x10, 0x11] (World.fresh (Tables.start paidStore) 0) = some [5, 5])
  refine ⟨w', hreturns, hbalances, ((conserves_iff _ _ _ _ _ _ hreturns).mpr
    ⟨nofun, Or.inl rfl, fun m₀ henters m hreach => ?_⟩).1⟩
  obtain ⟨m₁, hm₁, halong⟩ := spends_paidCall
  rw [hm₁.unique henters] at hreach
  exact not_mints_of_spends (halong.of_reachable hreach)

/-- A deployment by account `7`, with gas. -/
def fundedDeployment : MessageCall :=
  { from_ := 7, to_ := none, gas := 5, value := 0, data := Abicoder.toHexString [0x00] }

set_option maxRecDepth 100000 in
private theorem balance_of_fundedDeployment :
    balancesAfter 2 fundedDeployment [0x95d6168a2da3c0e52e60c80b6de31bada89fa9ca]
      (World.fresh (Tables.start (balancesStore [])) 0) = some [5] := by
  simp only [balancesAfter, EVMC.run, EVMC.runInEvm, EVMC.callee, generateAddress_eq_digest]
  decide +kernel

/-- The gas of a deployment becomes the balance of the new account. -/
theorem deployment_not_conserving : ∃ w', EVMC.ReturnsIn .mute 2 fundedDeployment
        (World.fresh (Tables.start (balancesStore [])) 0) w' ∧
      supply w'.tx.view ≠ supply (balancesStore []).content := by
  obtain ⟨w', hreturns, hbalance⟩ := exists_of_balancesAfter balance_of_fundedDeployment
  refine ⟨w', hreturns, ?_⟩
  have hbefore : supply (balancesStore []).content = 0 := supply_eq_zero fun _ => rfl
  have hafter := balanceOf_le_supply w'.tx.view 0x95d6168a2da3c0e52e60c80b6de31bada89fa9ca
  rw [List.map_singleton] at hbalance
  rw [(List.cons.inj hbalance).1] at hafter
  have hfive : (5 : Word).toNat = 5 := rfl
  omega

end CloakBridge.Evm
