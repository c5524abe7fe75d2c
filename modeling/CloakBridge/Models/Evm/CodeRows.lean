import CloakBridge.Models.Evm.Requests

/-!
# Executions keep the codes there are

An execution writes codes in two places only. A creation adds one for an account that
has none, and the return from it replaces what the creation added; a deployment does
the same around the whole run. So what an execution may overwrite are the codes of
accounts that it created itself, and every row it found is there when it ends.
-/

namespace CloakBridge.Tee

open Kv

/-- All codes of `f` are in the table. -/
def World.Retains (f : Address → Option ByteString) (w : World) : Prop :=
  ∀ a code, f a = some code → w.tx.view .codes a = some code

/-- The codes of `f` stay in the table. -/
def retaining (f : Address → Option ByteString) : Frame World := .preserving (World.Retains f)

namespace retaining

variable {f : Address → Option ByteString} {w w' : World} {p : AccountProxy}

private theorem of_rowsStay (h : (rowsStay .codes).rel w w') : (retaining f).rel w w' :=
  fun hw a code hcode => h a code (hw a code hcode)

private theorem lookups : (retaining f).Lookups :=
  (rowsStay.lookups (by decide)).mono fun _ _ => of_rowsStay

private theorem puts {t : TableName} (h : TableName.codes ≠ t) : (retaining f).Puts t :=
  fun k v w => of_rowsStay (rowsStay.puts h k v w)

private theorem keeps_create (a : Address) (balance : Word) (code : ByteString) :
    (retaining f).Keeps (EthereumState.create a balance code) := fun w =>
  of_rowsStay (EthereumState.keeps_create rowsStay.reads rowsStay.caches.own
    (rowsStay.fills .balances balance a) (rowsStay.fills .codes code a)
    (rowsStay.fills .nonces _ a) w)

private theorem keeps_payTo (p other : AccountProxy) (amount : Word) :
    (retaining f).Keeps (p.payTo other amount) :=
  AccountProxy.keeps_payTo lookups.reads (puts (t := .balances) (by decide) p.address)
    (puts (t := .balances) (by decide) other.address) amount

private theorem keeps_sstore (pf : Platform) (p : AccountProxy) (key value : Word) :
    (retaining f).Keeps (p.sstore pf key value) :=
  p.keeps_sstore lookups.reads (puts (t := .storage) (by decide) _)
    (fun k w => of_rowsStay (rowsStay.removes (by decide) k w)) (puts (by decide)) pf value

private theorem keeps_setCode (hp : f p.address = none) (code : ByteString) :
    (retaining f).Keeps (p.setCode code) := by
  intro w hw a old hold
  have ha : a ≠ p.address := by
    rintro rfl
    rw [hp] at hold
    cases hold
  change (w.tx.put .codes p.address code).view .codes a = some old
  rw [Tables.view_put, Tables.setRow_apply_of_ne w.tx.view .codes ha]
  exact hw a old hold

private theorem eq_none_of_create (hw : w.Retains f) {a : Address} {balance : Word}
    {code : ByteString}
    (h : EthereumState.create a balance code w = .ok p w') : f a = none := by
  obtain ⟨-, hnone, -⟩ := EthereumState.view_of_create h
  cases hf : f a with
  | none => rfl
  | some old =>
    rw [hw a old hf] at hnone
    cases hnone

end retaining

end CloakBridge.Tee

namespace CloakBridge.Evm

open Tee Kv EVMC

/-- All codes of `f` are in the table, and none of them is about to be returned. -/
structure Machine.Retains (f : Address → Option ByteString) (m : Machine) : Prop where
  world : m.world.Retains f
  created : ∀ c ∈ m.ctxts, ∀ account, c.handler = .create account → f account.address = none

/-- The codes of `f` stay in the table. -/
def preservingCodes (f : Address → Option ByteString) : Frame Machine :=
  .preserving (Machine.Retains f)

section Executions

variable {f : Address → Option ByteString} {m : Machine} {to_ : Address}

private theorem Machine.Retains.enter (h : m.Retains f) {c : Context}
    (hc : ∀ account, c.handler = .create account → f account.address = none) :
    ({ m with ctxts := c :: m.ctxts } : Machine).Retains f := by
  refine ⟨h.world, fun d hd => ?_⟩
  rcases List.mem_cons.mp hd with rfl | hd
  · exact hc
  · exact h.created d hd

private theorem interprets_preservingCodes : Interprets (preservingCodes f) (retaining f) where
  reads := retaining.lookups.reads
  lookups := retaining.lookups
  world _ _ hw h := ⟨hw h.world, h.created⟩
  regs m i c r hc h := by
    refine ⟨h.world, fun d hd => ?_⟩
    rcases List.mem_or_eq_of_mem_set hd with hd | rfl
    · exact h.created d hd
    · exact h.created c (List.mem_of_getElem? hc)
  leave _ h := ⟨h.world, fun c hc => h.created c (List.mem_of_mem_tail hc)⟩
  result _ _ h := ⟨h.world, h.created⟩
  enter m c _ _ _ hhandler h := h.enter fun account hcreate => by
    rw [hhandler] at hcreate
    cases hcreate

private theorem keeps_enterCreation_preservingCodes (c : Context) (newAddress : Address)
    (contractValue : Word) (initCode : ByteString) :
    (preservingCodes f).Keeps (enterCreation c newAddress contractValue initCode) := by
  intro m hm
  have hS := (interprets_preservingCodes (f := f)).toSteps
  refine Frame.rel_bind (keeps_inWorld hS (retaining.keeps_create _ _ _) m)
    (fun newAcc m₁ hcreate => ?_) hm
  obtain ⟨w, hw, rfl⟩ := inWorld_eq_ok.mp hcreate
  refine Frame.keeps_bind (keeps_inWorld hS (retaining.keeps_payTo _ _ _)) (fun _ => ?_) _
  refine keeps_pushContext fun m' hm' => hm'.enter fun account haccount => ?_
  cases haccount
  rw [EthereumState.address_of_create hw]
  exact retaining.eq_none_of_create hm.world hw

/-- Every operation keeps the codes of `f`. -/
theorem keeps_exec_preservingCodes (pf : Platform) (origin : Address) (op : Opcode) :
    (preservingCodes f).Keeps (op.exec pf origin) := by
  intro m hm
  have hI := interprets_preservingCodes (f := f)
  have hS := hI.toSteps
  have hreading : op.Reading → (stateAfter (op.exec pf origin) m).Retains f := fun hop =>
    keeps_exec_of_reading hI hop m hm
  cases op with
  | sstore => exact rel_sstore hS (fun c key value _ => retaining.keeps_sstore pf _ _ _) hm
  | log topics => exact keeps_log hS (fun entry m h => ⟨h.world, h.created⟩) topics m hm
  | return_ =>
    refine rel_return_ hS (fun c account output hc hcreate => ?_) hm
    exact retaining.keeps_setCode (hm.created c (List.mem_of_mem_head? hc) account hcreate) output
  | selfdestruct =>
    exact rel_selfdestruct hS (fun m l h => ⟨h.world, h.created⟩) (fun _ _ _ _ _ =>
      retaining.lookups.get _) (fun _ _ _ _ _ _ w' _ _ _ _ => retaining.keeps_payTo _ _ _ w') hm
  | create salted =>
    exact rel_create hS (fun _ _ _ _ _ _ _ _ _ _ => keeps_enterCreation_preservingCodes _ _ _ _) hm
  | call kind =>
    exact rel_call_of_pays hI (fun c args _ callee w _ _ _ => retaining.keeps_payTo _ _ _ w) hm
  | _ => exact hreading trivial

variable {pf : Platform} {fuel : Nat} {call : MessageCall} {w w' : World}

private theorem EVMC.retains_of_callee (hw : w.Retains f) (h : EVMC.callee call w = .ok to_ w') :
    w'.Retains f ∧ (call.to_ = none → f to_ = none) := by
  unfold EVMC.callee at h
  cases hto : call.to_ with
  | some a =>
    rw [hto] at h
    rw [(pure_eq_ok.mp h).2]
    exact ⟨hw, nofun⟩
  | none =>
    rw [hto] at h
    obtain ⟨sender, w₁, hget, hfound⟩ := bind_eq_ok.mp h
    obtain ⟨nonce, w₂, hnonce, hcounted⟩ := bind_eq_ok.mp hfound
    obtain ⟨new, w₃, hcreate, hmade⟩ := bind_eq_ok.mp hcounted
    obtain ⟨rfl, rfl⟩ := pure_eq_ok.mp hmade
    have hw₂ : w₂.Retains f := by
      refine (sender.keeps_getNonce retaining.lookups.reads).of_ok hnonce ?_
      exact (retaining.lookups.get _).of_ok hget hw
    exact ⟨(retaining.keeps_create _ _ _).of_ok hcreate hw₂, fun _ =>
      retaining.eq_none_of_create hw₂ hcreate⟩

private theorem EVMC.retains_of_enter (hw : w.Retains f) (h : EVMC.enter call to_ w = .ok m w') :
    m.Retains f := by
  obtain ⟨account, w₁, w₂, code, hget, hhas, hcode, rfl⟩ := enter_eq_ok.mp h
  refine ⟨?_, fun c hc => ?_⟩
  · refine (account.keeps_getCode retaining.lookups.reads).of_ok hcode ?_
    refine (account.keeps_hasCode retaining.lookups.reads).of_ok hhas ?_
    exact (retaining.lookups.get to_).of_ok hget hw
  · rw [List.mem_singleton.mp hc]
    exact nofun

/-- Running a callee keeps the codes, and runs in the account of that address. -/
theorem EVMC.retains_of_runCallee {ran : ExecResult × List LogEntry × AccountProxy}
    (hown : w.OwnProxies) (hw : w.Retains f) (h : EVMC.runCallee pf fuel call to_ w = .ok ran w') :
    w'.Retains f ∧ ran.2.2.address = to_ := by
  obtain ⟨m₀, w₀, m, henter, hloop, -, rfl, c, hc, haccount⟩ := parts_of_runCallee h
  constructor
  · have hend : (stateAfter (loop pf call.from_ fuel) m₀).Retains f := rel_loop
      interprets_preservingCodes.toSteps fuel (fun m' _ op _ => keeps_exec_preservingCodes pf
      call.from_ op m') (retains_of_enter hw henter)
    rw [stateAfter, hloop] at hend
    exact hend.world
  · obtain ⟨account, w₁, w₂, code, hget, hhas, hcode, rfl⟩ := enter_eq_ok.mp henter
    rw [List.mem_singleton.mp hc] at haccount
    rw [← haccount]
    exact EthereumState.address_of_get hown hget

/-- A message call that is not rethrown leaves every code it found. -/
theorem EVMC.rowsStay_of_returnsIn (hown : w.OwnProxies)
    (h : EVMC.ReturnsIn pf fuel call w w') : (rowsStay .codes).rel w w' := by
  obtain ⟨result, logs, address, hexit, hrun⟩ := h.runInEvm
  obtain ⟨to_, w₁, ran, w₂, w₃, hcallee, hran, hdeploy, hcount⟩ := parts_of_runInEvm hexit hrun
  have hw : w.Retains (w.tx.view .codes) := fun _ _ hcode => hcode
  obtain ⟨hw₁, hnew⟩ := retains_of_callee hw hcallee
  have hown₁ : w₁.OwnProxies := (keeps_callee ownProxies.executes call).of_ok hcallee hown
  obtain ⟨hw₂, haddress⟩ := retains_of_runCallee hown₁ hw₁ hran
  have hkeeps : (retaining (w.tx.view .codes)).Keeps (EVMC.deploy call ran.1.output ran.2.2) := by
    refine Frame.keeps_ite (fun hto => retaining.keeps_setCode ?_ _) fun _ => Frame.keeps_pure _
    rw [haddress]
    exact hnew hto
  exact (keeps_countTransaction (retaining.puts (by decide)) retaining.lookups call).of_ok
    hcount (hkeeps.of_ok hdeploy hw₂)

end Executions

end CloakBridge.Evm
