import CloakBridge.Models.Evm.InnerCalls
import CloakBridge.Models.Evm.NonceCounts
import Mathlib.Data.Set.Defs

/-!
# The accounts that an execution gets at

Rows of accounts and slots are made by looking an account up, by creating it, by paying it
and by storing to it. If the accounts that an execution does this to all belong to some
set of addresses, no row is ever made outside of it.
-/

namespace CloakBridge.Tee

open Kv Tables

/-- The account that a row belongs to. -/
def TableName.owner : (t : TableName) → t.Key → Option Address
  | .balances, a | .codes, a | .nonces, a => some a
  | .storage, k => some k.1
  | _, _ => none

/-- The accounts that have rows all belong to `A`. -/
def KeysIn (A : Set Address) (c : Contents) : Prop :=
  ∀ t k a, (c t k).isSome → t.owner k = some a → a ∈ A

variable {t : TableName}

namespace KeysIn

variable {A : Set Address} {c : Contents}

private theorem setRow (h : KeysIn A c) {k : t.Key} {v : Option t.Val}
    (hk : ∀ a, v.isSome → t.owner k = some a → a ∈ A) : KeysIn A (c.setRow t k v) := by
  intro t' k' a hsome howner
  by_cases ht : t' = t
  · subst ht
    by_cases hkey : k' = k
    · subst hkey
      rw [setRow_self, Function.update_self] at hsome
      exact hk a hsome howner
    · rw [setRow_apply_of_ne c t' hkey] at hsome
      exact h t' k' a hsome howner
  · rw [setRow_of_ne c ht] at hsome
    exact h t' k' a hsome howner

/-- An account with a row belongs to `A`. -/
theorem mem_of_existed (h : KeysIn A c) {a : Address} (ha : Evm.Existed c a) : a ∈ A := by
  rcases ha with hsome | hsome | hsome
  · exact h .balances a a hsome rfl
  · exact h .codes a a hsome rfl
  · exact h .nonces a a hsome rfl

end KeysIn

/-- The accounts that have rows or were handed out all belong to `A`. -/
structure World.In (A : Set Address) (w : World) : Prop where
  ownProxies : w.OwnProxies
  keysIn : KeysIn A w.tx.view

/-- Over rows of `A` a transaction begins in `A`. -/
theorem World.in_start {A : Set Address} {s : Store} (h : KeysIn A s.content) :
    (World.start s).In A :=
  ⟨World.ownProxies_start s, h⟩

/-- No account outside of `A` gets a row. -/
def staysIn (A : Set Address) : Frame World := .preserving (World.In A)

namespace staysIn

variable {A : Set Address}

theorem reads : (staysIn A).Reads where
  get t k w h := ⟨h.ownProxies, by
    change KeysIn A (w.tx.noteRead t k).view
    rw [view_noteRead]
    exact h.keysIn⟩
  ask _ _ h := ⟨h.ownProxies, h.keysIn⟩

private theorem caches : (staysIn A).CachesOwn := fun a level key w h =>
  ⟨Tee.ownProxies.caches a level key w h.ownProxies, h.keysIn⟩

private theorem keeps_put {k : t.Key} (hk : ∀ a, t.owner k = some a → a ∈ A) (v : t.Val) :
    (staysIn A).Keeps (Exec.put t k v) := by
  refine fun w h => ⟨h.ownProxies, ?_⟩
  change KeysIn A (w.tx.put t k v).view
  rw [view_put]
  exact h.keysIn.setRow fun a _ => hk a

/-- Tables without owners may be written. -/
theorem puts (ht : ∀ k, t.owner k = none) : (staysIn A).Puts t := by
  intro k v
  refine keeps_put (fun a ha => ?_) v
  rw [ht k] at ha
  cases ha

private theorem removes (t : TableName) : (staysIn A).Removes t := by
  refine fun k w h => ⟨h.ownProxies, ?_⟩
  change KeysIn A (w.tx.remove t k).view
  rw [view_remove]
  exact h.keysIn.setRow nofun

variable {a : Address} (ha : a ∈ A)

include ha

private theorem keeps_create (balance : Word) (code : ByteString) :
    (staysIn A).Keeps (EthereumState.create a balance code) :=
  EthereumState.keeps_create reads caches
    (fun w _ => keeps_put (t := .balances) (fun _ h => Option.some.inj h ▸ ha) balance w)
    (fun w _ => keeps_put (t := .codes) (fun _ h => Option.some.inj h ▸ ha) code w)
    (fun w _ => keeps_put (t := .nonces) (fun _ h => Option.some.inj h ▸ ha) _ w)

/-- Looking up an account of `A` stays in `A`. -/
theorem keeps_get : (staysIn A).Keeps (EthereumState.get a) :=
  EthereumState.keeps_get reads caches
    (fun w _ => keeps_put (t := .balances) (fun _ h => Option.some.inj h ▸ ha) 0 w)
    (fun w _ => keeps_put (t := .codes) (fun _ h => Option.some.inj h ▸ ha) [] w)
    (fun w _ => keeps_put (t := .nonces) (fun _ h => Option.some.inj h ▸ ha) 0 w)

omit ha

private theorem keeps_load (pf : Platform) (p : AccountProxy) (key : Word) :
    (staysIn A).Keeps (p.load pf key) :=
  p.keeps_load reads (puts fun _ => rfl) pf key

variable {p other : AccountProxy} (hp : p.address ∈ A) (hother : other.address ∈ A)

include hp

private theorem keeps_setBalance (b : Word) : (staysIn A).Keeps (p.setBalance b) :=
  keeps_put (t := .balances) (fun _ h => Option.some.inj h ▸ hp) b

/-- Setting the code of an account of `A` stays in `A`. -/
theorem keeps_setCode (code : ByteString) : (staysIn A).Keeps (p.setCode code) :=
  keeps_put (t := .codes) (fun _ h => Option.some.inj h ▸ hp) code

private theorem keeps_incrementNonce : (staysIn A).Keeps p.incrementNonce :=
  Frame.keeps_bind (p.keeps_getNonce reads) fun nonce =>
    keeps_put (t := .nonces) (fun _ h => Option.some.inj h ▸ hp) (nonce + 1)

private theorem keeps_sstore (pf : Platform) (key value : Word) :
    (staysIn A).Keeps (p.sstore pf key value) :=
  p.keeps_sstore reads (keeps_put (t := .storage) fun _ h => Option.some.inj h ▸ hp)
    (removes _) (puts fun _ => rfl) pf value

include hother

private theorem keeps_payTo (amount : Word) : (staysIn A).Keeps (p.payTo other amount) :=
  AccountProxy.keeps_payTo reads (keeps_setBalance hp) (keeps_setBalance hother) amount

end staysIn

end CloakBridge.Tee

namespace CloakBridge.Evm

open Tee Kv EthereumState EVMC

/-- The accounts that a context runs in or is to create belong to `A`. -/
structure Context.In (A : Set Address) (c : Context) : Prop where
  account : c.account.address ∈ A
  created : ∀ account, c.handler = .create account → account.address ∈ A

/-- All accounts of a machine belong to `A`. -/
structure Machine.In (A : Set Address) (m : Machine) : Prop where
  world : m.world.In A
  ctxts : ∀ c ∈ m.ctxts, c.In A

/-- No account outside of `A` gets a row or a context. -/
def confined (A : Set Address) : Frame Machine := .preserving (Machine.In A)

variable {m : Machine}

section Confined

variable {A : Set Address} {c : Context} {pf : Platform} {origin : Address}

private theorem steps_confined : Steps (confined A) (staysIn A) where
  reads := staysIn.reads
  world _ _ hw h := ⟨hw h.world, h.ctxts⟩
  regs m i c r hc h := by
    refine ⟨h.world, fun d hd => ?_⟩
    rcases List.mem_or_eq_of_mem_set hd with hd | rfl
    · exact h.ctxts d hd
    · have hcontext := h.ctxts c (List.mem_of_getElem? hc)
      exact ⟨hcontext.account, hcontext.created⟩
  leave _ h := ⟨h.world, fun c hc => h.ctxts c (List.mem_of_mem_tail hc)⟩
  result _ _ h := ⟨h.world, h.ctxts⟩

private theorem Machine.In.head (h : m.In A) (hc : m.ctxts.head? = some c) : c.In A :=
  h.ctxts c (List.mem_of_mem_head? hc)

private theorem confined_enter (hc : c.In A) (m : Machine) :
    (confined A).rel m { m with ctxts := c :: m.ctxts } := by
  refine fun h => ⟨h.world, fun d hd => ?_⟩
  rcases List.mem_cons.mp hd with rfl | hd
  · exact hc
  · exact h.ctxts d hd

/-- The account that the operation is about to look up or to make. -/
def Opcode.Names (pf : Platform) (m : Machine) (a : Address) : Opcode → Prop
  | .extcodesize | .extcodecopy | .extcodehash | .balance | .selfdestruct =>
    ∃ c r, m.ctxts.head? = some c ∧ popAddr c.toRegs = .ok a r
  | .call kind => ∃ c args r, m.ctxts.head? = some c ∧ callArguments kind c.toRegs = .ok args r ∧
    args.addr = a
  | .create salted => m.Creates pf salted a
  | _ => False

/-- The account that the machine is about to look up or to make. -/
def Machine.Names (pf : Platform) (m : Machine) (a : Address) : Prop :=
  ∃ op, m.opcode = some op ∧ op.Names pf m a

private theorem keeps_enterCreation_of_mem (hc : c.account.address ∈ A) {newAddress : Address}
    (hnew : newAddress ∈ A) (contractValue : Word) (initCode : ByteString) :
    (confined A).Keeps (enterCreation c newAddress contractValue initCode) := by
  intro m
  refine Frame.rel_bind (keeps_inWorld steps_confined (staysIn.keeps_create hnew _ _) m)
    fun newAcc m₁ hcreate => ?_
  obtain ⟨w, hw, rfl⟩ := inWorld_eq_ok.mp hcreate
  have haddress : newAcc.address ∈ A := by
    rw [address_of_create hw]
    exact hnew
  refine Frame.keeps_bind (keeps_inWorld steps_confined (staysIn.keeps_payTo hc haddress _))
    (fun _ => ?_) _
  refine keeps_pushContext (confined_enter ⟨haddress, fun account haccount => ?_⟩)
  cases haccount
  exact haddress

/-- An operation stays in `A` if what it names does. -/
theorem rel_exec_of_names {op : Opcode} (hnames : ∀ a, op.Names pf m a → a ∈ A) :
    (confined A).rel m (stateAfter (op.exec pf origin) m) := by
  intro hm
  have hS := steps_confined (A := A)
  have hreading : op.Reading → (stateAfter (op.exec pf origin) m).In A := by
    intro hop
    refine rel_exec_of_reading hS hop (fun hlooks c a r hc hpop => ?_)
      (fun c key _ => staysIn.keeps_load pf _ key) hm
    refine staysIn.keeps_get (hnames a ?_)
    cases op with
    | extcodesize | extcodecopy | extcodehash | balance => exact ⟨c, r, hc, hpop⟩
    | _ => exact hlooks.elim
  cases op with
  | sstore =>
    exact rel_sstore hS (fun c key value hc => staysIn.keeps_sstore (hm.head hc).account pf _ _) hm
  | log topics => exact keeps_log hS (fun entry m h => ⟨h.world, h.ctxts⟩) topics m hm
  | return_ =>
    refine rel_return_ hS (fun c account output hc hcreate => ?_) hm
    exact staysIn.keeps_setCode ((hm.head hc).created account hcreate) output
  | selfdestruct =>
    refine rel_selfdestruct hS (fun m l h => ⟨h.world, h.ctxts⟩)
      (fun c a r hc hpop => staysIn.keeps_get (hnames a ⟨c, r, hc, hpop⟩))
      (fun c a r recipient w amount w' hc hpop hget _ => ?_) hm
    refine staysIn.keeps_payTo (hm.head hc).account ?_ amount w'
    rw [address_of_get hm.world.ownProxies hget]
    exact hnames a ⟨c, r, hc, hpop⟩
  | create salted =>
    refine rel_create hS (fun c value initCode r newAddress m' hc _ hargs hnew => ?_) hm
    refine keeps_enterCreation_of_mem (hm.head hc).account (hnames newAddress ?_) _ _
    exact ⟨c, (value, initCode), r, m', hc, hargs, hnew⟩
  | call kind =>
    have hcallee : ∀ c args r callee w, m.ctxts.head? = some c → callArguments kind c.toRegs = .ok
        args r → EthereumState.get args.addr m.world = .ok callee w → callee.address ∈ A := by
      intro c args r callee w hc hargs hget
      rw [address_of_get hm.world.ownProxies hget]
      exact hnames _ ⟨c, args, r, hc, hargs, rfl⟩
    refine rel_call hS (fun c args r hc hargs => staysIn.keeps_get ?_) (fun c args r callee w hc
      hargs _ hget => ?_) (fun c args r callee w input m₁ hc hargs hget _ => ?_) hm
    · exact hnames _ ⟨c, args, r, hc, hargs, rfl⟩
    · exact staysIn.keeps_payTo (hm.head hc).account (hcallee c args r callee w hc hargs hget) _ w
    · refine keeps_enterCall hS
        (fun m' c' parent haccount hhandler => confined_enter ⟨?_, ?_⟩ m') m₁
      · rcases haccount with heq | heq
        · rw [heq]
          exact (hm.head hc).account
        · rw [heq]
          exact hcallee c args r callee w hc hargs hget
      · intro account hcreate
        rw [hhandler] at hcreate
        cases hcreate
  | _ => exact hreading trivial

/-- The loop stays in `A` if what it names does. -/
theorem rel_loop_of_names (fuel : Nat)
    (hnames : ∀ m', Reachable (next pf origin) m m' → ∀ a, m'.Names pf a → a ∈ A) :
    (confined A).rel m (stateAfter (loop pf origin fuel) m) := by
  refine rel_loop steps_confined fuel fun m' hreach op hop => rel_exec_of_names fun a ha => ?_
  exact hnames m' hreach a ⟨op, hop, ha⟩

end Confined

namespace EVMC

/-- The machine at which the execution of a callee begins. -/
def enter (call : MessageCall) (to_ : Address) : Exec Machine := do
  let accountState ← EthereumState.get to_
  let hasCode ← accountState.hasCode
  Exec.throwIf (¬hasCode) (.commonAddress to_)
  let code ← accountState.getCode
  modifyGet fun w => (Machine.start call.from_ accountState (Abicoder.evmToBytes call.data) code
    call.value w, w)

/-- The machine at which the execution of a message call begins. -/
def Enters (call : MessageCall) (w : World) (m : Machine) : Prop :=
  ∃ to_ w₁ w₂, callee call w = .ok to_ w₁ ∧ enter call to_ w₁ = .ok m w₂

end EVMC

section Runs

variable {A : Set Address} {pf : Platform} {fuel : Nat} {call : MessageCall} {w w' : World}
  {a to_ : Address} {ran : ExecResult × List LogEntry × AccountProxy} {p : AccountProxy}
  {w₁ w₂ : World}

/-- An execution has one beginning. -/
theorem EVMC.Enters.unique {m' : Machine} (h : EVMC.Enters call w m) (h' : EVMC.Enters call w m') :
    m' = m := by
  obtain ⟨to_, w₁, w₂, hcallee, henter⟩ := h
  obtain ⟨to_', w₁', w₂', hcallee', henter'⟩ := h'
  rw [hcallee] at hcallee'
  cases hcallee'
  rw [henter] at henter'
  cases henter'
  rfl

/-- An execution begins with the code of the account that was found. -/
theorem EVMC.enter_eq_ok : EVMC.enter call to_ w = .ok m w' ↔ ∃ account w₁ w₂ code,
      EthereumState.get to_ w = .ok account w₁ ∧ account.hasCode w₁ = .ok true w₂ ∧
        account.getCode w₂ = .ok code w' ∧
          m = Machine.start call.from_ account (Abicoder.evmToBytes call.data) code call.value
            w' := by
  constructor
  · intro h
    obtain ⟨account, w₁, hget, hfound⟩ := bind_eq_ok.mp h
    obtain ⟨hasCode, w₂, hhas, hasked⟩ := bind_eq_ok.mp hfound
    obtain ⟨⟨⟩, w₃, hthrow, hchecked⟩ := bind_eq_ok.mp hasked
    obtain ⟨hnot, rfl⟩ := Exec.throwIf_eq_ok.mp hthrow
    obtain ⟨code, w₄, hcode, hloaded⟩ := bind_eq_ok.mp hchecked
    obtain ⟨rfl, rfl⟩ := modifyGet_eq_ok.mp hloaded
    rw [not_not] at hnot
    rw [hnot] at hhas
    exact ⟨account, w₁, w₃, code, hget, hhas, hcode, rfl⟩
  · rintro ⟨account, w₁, w₂, code, hget, hhas, hcode, rfl⟩
    have hchecked : Exec.throwIf (¬(true : Bool)) (.commonAddress to_) w₂ = .ok () w₂ :=
      Exec.throwIf_eq_ok.mpr ⟨not_not.mpr rfl, rfl⟩
    rw [EVMC.enter, bind_of_ok hget, bind_of_ok hhas, bind_of_ok hchecked, bind_of_ok hcode]
    rfl

/-- Running a callee is running the loop from the machine at which its execution begins. Nothing
was marked for destruction if it returns. -/
theorem EVMC.parts_of_runCallee (h : EVMC.runCallee pf fuel call to_ w = .ok ran w') :
    ∃ m₀ w₀ m, EVMC.enter call to_ w = .ok m₀ w₀ ∧ loop pf call.from_ fuel m₀ = .ok () m ∧
      m.selfdestructList = [] ∧ w' = m.world ∧ ∃ c ∈ m₀.ctxts, c.account = ran.2.2 := by
  obtain ⟨account, w₁, hget, h⟩ := bind_eq_ok.mp h
  obtain ⟨hasCode, w₂, hhas, h⟩ := bind_eq_ok.mp h
  obtain ⟨⟨⟩, w₃, hthrow, h⟩ := bind_eq_ok.mp h
  obtain ⟨⟨result, logs⟩, w₄, hrun, h⟩ := bind_eq_ok.mp h
  obtain ⟨rfl, rfl⟩ := pure_eq_ok.mp h
  obtain ⟨hnot, rfl⟩ := Exec.throwIf_eq_ok.mp hthrow
  rw [not_not] at hnot
  rw [hnot] at hhas
  obtain ⟨code, w₅, hcode, hrun⟩ := bind_eq_ok.mp hrun
  obtain ⟨m, w₆, hexec, hrun⟩ := bind_eq_ok.mp hrun
  obtain ⟨⟨⟩, w₇, hremove, hrun⟩ := bind_eq_ok.mp hrun
  obtain ⟨-, rfl⟩ := pure_eq_ok.mp hrun
  obtain ⟨hnil, rfl⟩ := forM_remove_eq_ok.mp hremove
  refine ⟨_, w₅, m, enter_eq_ok.mpr ⟨account, w₁, w₃, code, hget, hhas, hcode, rfl⟩, ?_, hnil, ?_,
    _, List.mem_singleton_self _, rfl⟩
  · unfold execute at hexec
    split at hexec
    next u m' hloop =>
      cases hexec
      exact hloop
    next => cases hexec
  · unfold execute at hexec
    split at hexec
    next => cases hexec; rfl
    next => cases hexec

private theorem EVMC.eq_of_callee (hw : w.OwnProxies) (h : EVMC.callee call w = .ok to_ w') :
    to_ = call.to_.getD (nextContract w.tx.view call.from_) := by
  unfold EVMC.callee at h
  cases hto : call.to_ with
  | some a =>
    rw [hto] at h
    exact (pure_eq_ok.mp h).1
  | none =>
    rw [hto] at h
    obtain ⟨sender, w₁, hget, h⟩ := bind_eq_ok.mp h
    obtain ⟨nonce, w₂, hnonce, h⟩ := bind_eq_ok.mp h
    obtain ⟨new, w₃, -, h⟩ := bind_eq_ok.mp h
    obtain ⟨rfl, -⟩ := pure_eq_ok.mp h
    obtain ⟨rfl, -⟩ := view_of_getNonce hnonce
    rw [address_of_get hw hget, nonceOf_of_get hget]
    rfl

private theorem EVMC.in_of_callee (hw : w.In A) (hfrom : call.from_ ∈ A)
    (hnew : call.to_ = none → nextContract w.tx.view call.from_ ∈ A)
    (h : EVMC.callee call w = .ok to_ w') : w'.In A := by
  have heq := eq_of_callee hw.ownProxies h
  unfold EVMC.callee at h
  cases hto : call.to_ with
  | some a =>
    rw [hto] at h
    rw [(pure_eq_ok.mp h).2]
    exact hw
  | none =>
    rw [hto] at h heq
    obtain ⟨sender, w₁, hget, h⟩ := bind_eq_ok.mp h
    obtain ⟨nonce, w₂, hnonce, h⟩ := bind_eq_ok.mp h
    obtain ⟨new, w₃, hcreate, h⟩ := bind_eq_ok.mp h
    obtain ⟨rfl, rfl⟩ := pure_eq_ok.mp h
    have hmem : generateAddress sender.address nonce ∈ A := heq ▸ hnew hto
    refine (staysIn.keeps_create hmem _ _).of_ok hcreate ?_
    refine (sender.keeps_getNonce staysIn.reads).of_ok hnonce ?_
    exact (staysIn.keeps_get hfrom).of_ok hget hw

/-- The code of an account, empty if it has none. -/
def codeOf (c : Contents) (a : Address) : ByteString := (c .codes a).getD []

/-- An account that was looked up has code if it had code before. -/
theorem hasCode_of_get {hasCode : Bool} (hw : w.OwnProxies)
    (hget : EthereumState.get a w = .ok p w₁) (hcode : p.hasCode w₁ = .ok hasCode w₂) :
    hasCode = !(codeOf w.tx.view a).isEmpty ∧ w₂.tx.view = w₁.tx.view := by
  obtain ⟨code, w₃, hgetCode, hpure⟩ := bind_eq_ok.mp hcode
  obtain ⟨row, w₄, hrow, hread⟩ := bind_eq_ok.mp hgetCode
  obtain ⟨rfl, rfl⟩ := Exec.get_eq_ok.mp hrow
  obtain ⟨rfl, rfl⟩ := pure_eq_ok.mp hread
  obtain ⟨rfl, rfl⟩ := pure_eq_ok.mp hpure
  have hvisible : w₁.visible = w.visible := (unseen.lookups.get a).of_ok hget
  have hsame : codeOf w₁.tx.view a = codeOf w.tx.view a :=
    congrFun (congrArg Visible.codes hvisible) a
  rw [address_of_get hw hget, ← hsame]
  exact ⟨rfl, Tables.view_noteRead _ _ _⟩

/-- An account that has code has a row. -/
theorem mem_of_hasCode (hw : w.In A) (hget : EthereumState.get a w = .ok p w₁)
    (hcode : p.hasCode w₁ = .ok true w₂) : a ∈ A := by
  have hsome := (hasCode_of_get hw.ownProxies hget hcode).1
  refine hw.keysIn .codes a a ?_ rfl
  cases hrow : w.tx.view .codes a with
  | none => simp [codeOf, hrow] at hsome
  | some code => rfl

private theorem EVMC.in_of_enter (hw : w.In A) (h : EVMC.enter call to_ w = .ok m w') : m.In A := by
  obtain ⟨account, w₁, w₂, code, hget, hhas, hcode, rfl⟩ := enter_eq_ok.mp h
  have hto := mem_of_hasCode hw hget hhas
  have hw' : w'.In A := by
    refine (account.keeps_getCode staysIn.reads).of_ok hcode ?_
    refine (account.keeps_hasCode staysIn.reads).of_ok hhas ?_
    exact (staysIn.keeps_get hto).of_ok hget hw
  refine ⟨hw', fun c hc => ?_⟩
  rw [List.mem_singleton.mp hc]
  refine ⟨?_, nofun⟩
  rw [address_of_get hw.ownProxies hget]
  exact hto

/-- Running a callee stays in `A` if what the execution names does. -/
theorem EVMC.in_of_runCallee (hw : w.In A)
    (hnames : ∀ m₀ w₀, EVMC.enter call to_ w = .ok m₀ w₀ → ∀ m,
      Reachable (next pf call.from_) m₀ m → ∀ a, m.Names pf a → a ∈ A)
    (h : EVMC.runCallee pf fuel call to_ w = .ok ran w') : w'.In A ∧ ran.2.2.address ∈ A := by
  obtain ⟨m₀, w₀, m, henter, hloop, -, rfl, c, hc, haccount⟩ := parts_of_runCallee h
  have hstart := in_of_enter hw henter
  have hend := rel_loop_of_names fuel (hnames m₀ w₀ henter) hstart
  rw [stateAfter, hloop] at hend
  refine ⟨hend.world, ?_⟩
  rw [← haccount]
  exact (hstart.ctxts c hc).account

private theorem EVMC.in_of_countTransaction (hw : w.In A) (hfrom : call.from_ ∈ A)
    (h : EVMC.countTransaction call w = .ok () w') : w'.In A := by
  obtain ⟨sender, w₁, hget, h⟩ := bind_eq_ok.mp h
  obtain ⟨_, w₂, hnonce, h⟩ := bind_eq_ok.mp h
  have hsender : sender.address ∈ A := by
    rw [address_of_get hw.ownProxies hget]
    exact hfrom
  refine (staysIn.keeps_incrementNonce hsender).of_ok h ?_
  refine (sender.keeps_getNonce staysIn.reads).of_ok hnonce ?_
  exact (staysIn.keeps_get hfrom).of_ok hget hw

/-- A message call stays in `A` if its sender, the account it deploys and what it names do. -/
theorem EVMC.in_of_returnsIn (hw : w.In A) (hfrom : call.from_ ∈ A)
    (hnew : call.to_ = none → nextContract w.tx.view call.from_ ∈ A)
    (hnames : ∀ m₀, EVMC.Enters call w m₀ → ∀ m, Reachable (next pf call.from_) m₀ m →
      ∀ a, m.Names pf a → a ∈ A) (h : EVMC.ReturnsIn pf fuel call w w') : w'.In A := by
  obtain ⟨result, logs, address, hexit, hrun⟩ := h.runInEvm
  obtain ⟨to_, w₁, ran, w₂, w₃, hcallee, hran, hdeploy, hcount⟩ := parts_of_runInEvm hexit hrun
  obtain ⟨hw₂, haccount⟩ := in_of_runCallee (in_of_callee hw hfrom hnew hcallee)
    (fun m₀ w₀ henter => hnames m₀ ⟨to_, w₁, w₀, hcallee, henter⟩) hran
  have hkeeps : (staysIn A).Keeps (EVMC.deploy call ran.1.output ran.2.2) :=
    Frame.keeps_ite (fun _ => staysIn.keeps_setCode haccount _) fun _ => Frame.keeps_pure _
  exact in_of_countTransaction (hkeeps.of_ok hdeploy hw₂) hfrom hcount

end Runs

end CloakBridge.Evm
