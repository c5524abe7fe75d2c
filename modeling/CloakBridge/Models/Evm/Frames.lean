import CloakBridge.Core.Run
import CloakBridge.Models.Evm.Endpoints

/-!
# What an operation can do to a machine

An operation reaches the world only through account lookups, loads, stores, payments,
creations and code updates, and changes contexts only by their registers, by entering one
and by leaving one. `Interprets` asks a frame for the steps that nearly every frame
allows; the rest is a condition on the account that pays, creates or returns.
-/

namespace CloakBridge.Frame

open Tee Kv

/-- Looking up accounts and slots stays in the frame. -/
structure Lookups (G : Frame World) : Prop where
  reads : G.Reads
  get : ∀ a : Address, G.Keeps (EthereumState.get a)
  load : ∀ (pf : Platform) (p : AccountProxy) (key : Word), G.Keeps (p.load pf key)

variable {F : Frame World}

/-- A frame that allows more allows lookups too. -/
theorem Lookups.mono {G G' : Frame World} (hG : G.Lookups)
    (h : ∀ w w', G.rel w w' → G'.rel w w') : G'.Lookups where
  reads := ⟨fun t k w => h _ _ (hG.reads.get t k w), fun f w => h _ _ (hG.reads.ask f w)⟩
  get a w := h _ _ (hG.get a w)
  load pf p key w := h _ _ (hG.load pf p key w)

/-- Everything that the interpreter does to a world stays in the frame. It creates accounts without
code only. -/
structure Interacts (G : Frame World) : Prop extends Lookups G where
  createEmpty : ∀ (a : Address) (balance : Word), G.Keeps (EthereumState.create a balance [])
  payTo : ∀ (p other : AccountProxy) (amount : Word), G.Keeps (p.payTo other amount)
  setCode : ∀ (p : AccountProxy) (code : ByteString), G.Keeps (p.setCode code)
  sstore : ∀ (pf : Platform) (p : AccountProxy) (key value : Word), G.Keeps (p.sstore pf key value)

/-- What the interpreter does stays in the frame, and so do deployments. -/
structure Executes (G : Frame World) : Prop extends Interacts G where
  create : ∀ (a : Address) (balance : Word) (code : ByteString),
    G.Keeps (EthereumState.create a balance code)

/-- Adding a row with the given value where there is none stays in the frame. -/
def Fills (F : Frame World) (t : TableName) (v : t.Val) : Prop := ∀ k, F.FillsAt t k v

theorem Puts.fills {t : TableName} (h : F.Puts t) (v : t.Val) : F.Fills t v :=
  fun k => h.fillsAt k v

/-- A frame in which empty accounts and old states may be added. -/
theorem lookups_of_fills (hreads : F.Reads) (hcache : F.CachesOwn) (hb : F.Fills .balances 0)
    (hc : F.Fills .codes []) (hn : F.Fills .nonces 0) (hold : F.Puts .pendingStorage) :
    F.Lookups where
  reads := hreads
  get a := EthereumState.keeps_get hreads hcache (hb a) (hc a) (hn a)
  load pf p key := p.keeps_load hreads hold pf key

/-- The tables that the interpreter writes to; rows of nonces it only adds. -/
def executed : List TableName := [.balances, .codes, .storage, .pendingStates, .pendingStorage]

section Puts

variable {F : Frame World} (hreads : F.Reads) (hcache : F.CachesOwn)
  (hputs : ∀ t ∈ executed, F.Puts t) (hremoves : F.Removes .storage)

include hreads hcache hputs hremoves

/-- The interpreter stays in a frame that allows its puts. -/
theorem interacts_of_puts (hnonces : F.Fills .nonces 0) : F.Interacts where
  toLookups := lookups_of_fills hreads hcache ((hputs .balances (by decide)).fills _)
    ((hputs .codes (by decide)).fills _) hnonces (hputs _ (by decide))
  createEmpty a _ := EthereumState.keeps_create hreads hcache
    ((hputs .balances (by decide)).fillsAt a _) ((hputs .codes (by decide)).fillsAt a [])
    (hnonces a)
  payTo p other := AccountProxy.keeps_payTo hreads (hputs .balances (by decide) p.address)
    (hputs .balances (by decide) other.address)
  setCode p code := hputs .codes (by decide) p.address code
  sstore pf p key value := p.keeps_sstore hreads (hputs _ (by decide) _) hremoves
    (hputs _ (by decide)) pf value

/-- Deployments stay in a frame that allows their puts. -/
theorem executes_of_puts (hnonces : ∀ n, F.Fills .nonces n) : F.Executes where
  toInteracts := interacts_of_puts hreads hcache hputs hremoves (hnonces 0)
  create a _ _ := EthereumState.keeps_create hreads hcache
    ((hputs .balances (by decide)).fillsAt a _) ((hputs .codes (by decide)).fillsAt a _)
    (hnonces _ a)

end Puts

end CloakBridge.Frame

namespace CloakBridge.Evm

open Tee CloakBridge.Frame EVMC

variable {α : Type} {m m' : Machine} {c : Context} {u : Unit} {pf : Platform} {kind : CallKind}
  {origin : Address} {op : Opcode}

/-- What runs in the world leaves the rest of the machine. -/
theorem stateAfter_inWorld (x : Exec α) (m : Machine) :
    stateAfter (inWorld x) m = { m with world := stateAfter x m.world } := by
  unfold stateAfter inWorld
  cases x m.world with
  | ok _ _ | error _ _ => rfl

/-- What runs in the world changes the world only. -/
theorem inWorld_eq_ok {x : Exec α} {a : α} :
    inWorld x m = .ok a m' ↔ ∃ w, x m.world = .ok a w ∧ m' = { m with world := w } := by
  unfold inWorld
  cases hx : x m.world with
  | ok b w =>
    constructor
    · rintro ⟨⟩
      exact ⟨w, rfl, rfl⟩
    · rintro ⟨w', ⟨⟩, rfl⟩
      rfl
  | error e w =>
    constructor
    · rintro ⟨⟩
    · rintro ⟨w', ⟨⟩, -⟩

/-- What runs in a context changes its registers only. -/
theorem atContext_eq_ok {i : Nat} {x : Local α} {a : α} :
    atContext i x m = .ok a m' ↔ ∃ c r, m.ctxts[i]? = some c ∧ x c.toRegs = .ok a r ∧
      m' = { m with ctxts := m.ctxts.set i { c with toRegs := r } } := by
  unfold atContext
  cases hc : m.ctxts[i]? with
  | none => exact ⟨fun h => (nomatch h), fun ⟨_, _, h, _⟩ => (nomatch h)⟩
  | some c =>
    dsimp only
    cases hx : x c.toRegs with
    | ok b r =>
      constructor
      · rintro ⟨⟩
        exact ⟨c, r, rfl, hx, rfl⟩
      · rintro ⟨c', r', ⟨⟩, hx', rfl⟩
        rw [hx] at hx'
        cases hx'
        rfl
    | error e r =>
      constructor
      · rintro ⟨⟩
      · rintro ⟨c', r', ⟨⟩, hx', -⟩
        rw [hx] at hx'
        cases hx'

/-- The current context is the innermost one. -/
theorem current_eq_ok : current m = .ok c m' ↔ m.ctxts.head? = some c ∧ m' = m := by
  unfold current
  rw [bind_of_ok (show (get : Run Machine) m = .ok m m from rfl)]
  cases m.ctxts with
  | nil => exact ⟨fun h => (nomatch h), fun h => (nomatch h.1)⟩
  | cons d rest =>
    dsimp only
    rw [pure_eq_ok, List.head?_cons, Option.some.injEq, eq_comm]

/-- The steps that a frame over machines allows whatever the operation. -/
structure Steps (F : Frame Machine) (G : Frame World) : Prop where
  reads : G.Reads
  world : ∀ (m : Machine) (w : World), G.rel m.world w → F.rel m { m with world := w }
  regs : ∀ (m : Machine) (i : Nat) (c : Context) (r : Regs), m.ctxts[i]? = some c →
    F.rel m { m with ctxts := m.ctxts.set i { c with toRegs := r } }
  leave : ∀ m : Machine, F.rel m { m with ctxts := m.ctxts.tail }
  result : ∀ (m : Machine) (r : ExecResult), F.rel m { m with result := r }

/-- A frame that also allows all lookups and all calls. -/
structure Interprets (F : Frame Machine) (G : Frame World) : Prop extends Steps F G where
  lookups : G.Lookups
  enter : ∀ (m : Machine) (c : Context) (offOut sizeOut parent : Nat),
    c.handler = .call offOut sizeOut parent → F.rel m { m with ctxts := c :: m.ctxts }

section Keeps

variable {F : Frame Machine} {G : Frame World} (h : Steps F G) {α : Type} {x : Exec α}

/-- Reading the current context stays in every frame. -/
theorem keeps_current : F.Keeps current := by
  intro m
  unfold current stateAfter
  rw [bind_of_ok (show (get : Run Machine) m = .ok m m from rfl)]
  cases m.ctxts with
  | nil | cons _ _ => exact F.refl m

private theorem rel_bind_current {g : Context → Run α}
    (hg : ∀ c, m.ctxts.head? = some c → F.rel m (stateAfter (g c) m)) :
    F.rel m (stateAfter (current >>= g) m) := by
  refine rel_bind (keeps_current m) fun c m₁ hcurrent => ?_
  obtain ⟨hc, rfl⟩ := current_eq_ok.mp hcurrent
  exact hg c hc

/-- Entering a context stays in the frame if the deeper stack does. -/
theorem keeps_pushContext (henter : ∀ m : Machine, F.rel m { m with ctxts := c :: m.ctxts }) :
    F.Keeps (pushContext c) := by
  intro m
  refine rel_bind (keeps_get m) fun m' m₁ hget => ?_
  cases hget
  by_cases hdepth : 1024 ≤ m.ctxts.length
  · rw [if_pos hdepth]
    exact F.refl m
  · rw [if_neg hdepth]
    exact henter m

/-- Refusing static contexts stays in every frame. -/
theorem keeps_refuseStatic : F.Keeps refuseStatic :=
  keeps_bind keeps_current fun _ =>
    keeps_ite (fun _ => keeps_throw _) fun _ => keeps_pure _

/-- Contexts that are not static go on. -/
theorem refuseStatic_eq_ok : refuseStatic m = .ok u m' ↔
      (∃ c, m.ctxts.head? = some c ∧ c.inStaticMode = false) ∧ m' = m := by
  constructor
  · intro hrun
    obtain ⟨c, m₁, hcurrent, hif⟩ := bind_eq_ok.mp hrun
    obtain ⟨hc, rfl⟩ := current_eq_ok.mp hcurrent
    split at hif
    next => cases hif
    next hstatic => exact ⟨⟨c, hc, Bool.eq_false_iff.mpr hstatic⟩, (pure_eq_ok.mp hif).2⟩
  · rintro ⟨⟨c, hc, hstatic⟩, rfl⟩
    rw [refuseStatic, bind_of_ok (current_eq_ok.mpr ⟨hc, rfl⟩), if_neg (by rw [hstatic]; decide)]
    rfl

private theorem rel_bind_refuseStatic {g : Unit → Run α}
    (hg : ∀ c, m.ctxts.head? = some c → c.inStaticMode = false → F.rel m (stateAfter (g ()) m)) :
    F.rel m (stateAfter (refuseStatic >>= g) m) := by
  refine rel_bind (keeps_refuseStatic m) fun _ m₁ hstatic => ?_
  obtain ⟨⟨c, hc, hmode⟩, rfl⟩ := refuseStatic_eq_ok.mp hstatic
  exact hg c hc hmode

include h

private theorem rel_inWorld (hx : G.rel m.world (stateAfter x m.world)) :
    F.rel m (stateAfter (inWorld x) m) := by
  rw [stateAfter_inWorld]
  exact h.world m _ hx

/-- What stays in the frame of worlds stays in that of machines. -/
theorem keeps_inWorld (hx : G.Keeps x) : F.Keeps (inWorld x) := fun m =>
  rel_inWorld h (hx m.world)

/-- What a context does to its registers stays in the frame. -/
theorem keeps_atContext (i : Nat) (x : Local α) : F.Keeps (atContext i x) := by
  intro m
  unfold stateAfter atContext
  cases hc : m.ctxts[i]? with
  | none => exact F.refl m
  | some c =>
    dsimp only
    cases x c.toRegs with
    | ok a r => exact h.regs m i c r hc
    | error e r => exact h.regs m i c r hc

private theorem rel_bind_atContext {β : Type} {x : Local α} {g : α → Run β}
    (hc : m.ctxts.head? = some c)
    (hg : ∀ a r m', x c.toRegs = .ok a r →
      m' = { m with ctxts := m.ctxts.set 0 { c with toRegs := r } } →
      F.rel m' (stateAfter (g a) m')) : F.rel m (stateAfter (atContext 0 x >>= g) m) := by
  refine rel_bind (keeps_atContext h 0 x m) fun a m₁ ha => ?_
  obtain ⟨c', r, hc', hx, hm₁⟩ := atContext_eq_ok.mp ha
  rw [← List.head?_eq_getElem?, hc] at hc'
  cases hc'
  exact hg a r m₁ hx hm₁

private theorem keeps_popContext : F.Keeps popContext := fun m => h.leave m

private theorem keeps_getCode (p : AccountProxy) : F.Keeps (inWorld p.getCode) :=
  keeps_inWorld h (p.keeps_getCode h.reads)

private theorem keeps_getBalance (p : AccountProxy) : F.Keeps (inWorld p.getBalance) :=
  keeps_inWorld h (p.keeps_getBalance h.reads)

private theorem rel_popAccount
    (hget : ∀ c a r, m.ctxts.head? = some c → popAddr c.toRegs = .ok a r →
      G.Keeps (EthereumState.get a)) : F.rel m (stateAfter popAccount m) := by
  refine rel_bind (keeps_atContext h 0 _ m) fun a m₁ ha => ?_
  obtain ⟨c, r, hc, hpop, rfl⟩ := atContext_eq_ok.mp ha
  rw [← List.head?_eq_getElem?] at hc
  exact keeps_inWorld h (hget c a r hc hpop) _

private theorem keeps_onHalt (handler : Handler) : F.Keeps handler.onHalt := by
  cases handler with
  | outer => exact fun m => h.result m _
  | call _ _ _ | create _ => exact keeps_atContext h _ _

private theorem keeps_onException (type : ExceptionType) (handler : Handler) :
    F.Keeps (handler.onException type) := by
  cases handler with
  | outer => exact fun m => h.result m _
  | call _ _ _ | create _ => exact keeps_atContext h _ _

/-- `STOP` stays in the frame. -/
theorem keeps_stop : F.Keeps stop := by
  refine keeps_bind keeps_current fun c => ?_
  exact keeps_bind (keeps_popContext h) fun _ => keeps_onHalt h c.handler

/-- An exception stays in the frame. -/
theorem keeps_handleException (type : ExceptionType) : F.Keeps (handleException type) := by
  refine keeps_bind keeps_current fun c => ?_
  exact keeps_bind (keeps_onException h type c.handler) fun _ => keeps_popContext h

private theorem keeps_onReturn (output : ByteString) {handler : Handler}
    (hcode : ∀ account, handler = .create account → G.Keeps (account.setCode output)) :
    F.Keeps (handler.onReturn output) := by
  cases handler with
  | outer => exact fun m => h.result m _
  | call offOut sizeOut parent => exact keeps_atContext h _ _
  | create account =>
    refine keeps_bind (keeps_atContext h _ _) fun _ => ?_
    exact keeps_bind (keeps_inWorld h (hcode account rfl)) fun _ => keeps_atContext h _ _

/-- `RETURN` stays in the frame if setting its code does. -/
theorem rel_return_
    (hcode : ∀ c account output, m.ctxts.head? = some c → c.handler = .create account →
      G.Keeps (account.setCode output)) : F.rel m (stateAfter return_ m) := by
  refine rel_bind_current fun c hc => ?_
  refine keeps_bind (keeps_atContext h _ _) (fun output => ?_) m
  refine keeps_bind ?_ fun _ => keeps_popContext h
  exact keeps_onReturn h output fun account => hcode c account output hc

/-- A store stays in the frame if that of the current account does. -/
theorem rel_sstore
    (hstore : ∀ c key value, m.ctxts.head? = some c → G.Keeps (c.account.sstore pf key value)) :
    F.rel m (stateAfter (sstore pf) m) := by
  refine rel_bind_refuseStatic fun _ _ _ => rel_bind_current fun c hc => ?_
  refine keeps_bind (keeps_atContext h _ _) (fun k => ?_) m
  refine keeps_bind (keeps_atContext h _ _) fun v => ?_
  exact keeps_inWorld h (hstore c k v hc)

/-- A log stays in the frame if adding its entry does. -/
theorem keeps_log (hlog : ∀ entry, F.Keeps (addLog entry)) (topics : Nat) :
    F.Keeps (log topics) := by
  refine keeps_bind keeps_refuseStatic fun _ => ?_
  refine keeps_bind keeps_current fun c => ?_
  exact keeps_bind (keeps_atContext h _ _) fun entry => hlog entry

theorem keeps_createAddress (pf : Platform) (account : AccountProxy) (salted : Bool)
    (initCode : ByteString) : F.Keeps (createAddress pf account salted initCode) := by
  unfold createAddress
  cases salted with
  | true =>
    refine keeps_bind (keeps_atContext h _ _) fun salt => keeps_inWorld h ?_
    refine keeps_bind (h.reads.ask _) fun _ => ?_
    exact keeps_bind (h.reads.ask _) fun _ => keeps_pure _
  | false =>
    exact keeps_bind (keeps_inWorld h (account.keeps_getNonce h.reads)) fun _ =>
      keeps_pure _

/-- The address of the account that a creation is about to make. -/
def Machine.Creates (pf : Platform) (salted : Bool) (m : Machine) (newAddress : Address) : Prop :=
  ∃ c args r m', m.ctxts.head? = some c ∧ createArguments c.toRegs = .ok args r ∧
    createAddress pf c.account salted args.2
      { m with ctxts := m.ctxts.set 0 { c with toRegs := r } } = .ok newAddress m'

/-- A creation stays in the frame if making, paying and entering the new account does. -/
theorem rel_create {salted : Bool}
    (henter : ∀ c contractValue initCode r newAddress m', m.ctxts.head? = some c →
      c.inStaticMode = false → createArguments c.toRegs = .ok (contractValue, initCode) r →
        createAddress pf c.account salted initCode
          { m with ctxts := m.ctxts.set 0 { c with toRegs := r } } = .ok newAddress m' →
            F.Keeps (enterCreation c newAddress contractValue initCode)) :
    F.rel m (stateAfter (create pf salted) m) := by
  refine rel_bind_refuseStatic fun c hc hmode => rel_bind_current fun c' hc' => ?_
  obtain rfl := Option.some.inj (hc.symm.trans hc')
  refine rel_bind_atContext h hc fun args r m₁ hregs hm₁ => ?_
  refine rel_bind (keeps_createAddress h _ _ _ _ _) fun newAddress m₂ hnew => ?_
  exact henter c args.1 args.2 r newAddress m₂ hc hmode hregs (hm₁ ▸ hnew) m₂

/-- Entering a call stays in the frame if entering its contexts does. They run in the account of
the caller or in that of the callee. -/
theorem keeps_enterCall {callee : AccountProxy} {input : ByteString} {args : CallArguments}
    (henter : ∀ (m : Machine) (c' : Context) (parent : Nat),
      c'.account = c.account ∨ c'.account = callee →
        c'.handler = .call args.offOut args.sizeOut parent →
          F.rel m { m with ctxts := c' :: m.ctxts }) :
    F.Keeps (enterCall kind c callee input args) := by
  have hone : ∀ (account : AccountProxy) (caller : Address) (callValue : Word) (parent : Nat)
      (inStaticMode : Bool), account = c.account ∨ account = callee → F.Keeps (do
        let code ← inWorld callee.getCode
        pushContext ⟨Regs.start, account, caller, input, callValue, code,
          .call args.offOut args.sizeOut parent, inStaticMode⟩) := by
    intro account caller callValue parent inStaticMode haccount
    refine keeps_bind (keeps_getCode h callee) fun code => ?_
    exact keeps_pushContext fun m => henter m _ parent haccount rfl
  cases kind with
  | call => exact hone _ _ _ _ _ (Or.inr rfl)
  | callcode | delegatecall => exact hone _ _ _ _ _ (Or.inl rfl)
  | staticcall =>
    exact keeps_bind (hone _ _ _ _ _ (Or.inr rfl)) fun _ => hone _ _ _ _ _ (Or.inr rfl)

/-- A call stays in the frame if looking up, paying and entering the callee does. -/
theorem rel_call
    (hget : ∀ c args r, m.ctxts.head? = some c → callArguments kind c.toRegs = .ok args r →
      G.Keeps (EthereumState.get args.addr)) (hpay : ∀ c args r callee w, m.ctxts.head? = some c →
      callArguments kind c.toRegs = .ok args r → ¬(1 ≤ args.addr ∧ args.addr ≤ 8) →
        EthereumState.get args.addr m.world = .ok callee w →
          G.rel w (stateAfter (c.account.payTo callee args.value) w))
    (henter : ∀ c args r callee w input m', m.ctxts.head? = some c →
      callArguments kind c.toRegs = .ok args r →
        EthereumState.get args.addr m.world = .ok callee w →
          F.rel { m with ctxts := m.ctxts.set 0 { c with toRegs := r }, world := w } m' →
            F.rel m' (stateAfter (enterCall kind c callee input args) m')) :
    F.rel m (stateAfter (call kind) m) := by
  refine rel_bind_current fun c hc => ?_
  refine rel_bind_atContext h hc fun args r m₁ hregs hm₁ => ?_
  subst hm₁
  by_cases hnative : 1 ≤ args.addr ∧ args.addr ≤ 8
  · rw [if_pos hnative]
    exact F.refl _
  rw [if_neg hnative]
  refine rel_bind (keeps_inWorld h (hget c args r hc hregs) _) fun callee m₃ hcallee => ?_
  obtain ⟨w, hw, rfl⟩ := inWorld_eq_ok.mp hcallee
  have hpaid := rel_inWorld h
    (m := { m with ctxts := m.ctxts.set 0 { c with toRegs := r }, world := w })
    (hpay c args r callee w hc hregs hnative hw)
  refine rel_bind hpaid fun _ m₄ hm₄ => ?_
  have h₄ := rel_of_ok hpaid hm₄
  have hlooked := keeps_inWorld h (callee.keeps_hasCode h.reads) m₄
  refine rel_bind hlooked fun hasCode m₅ hm₅ => ?_
  have h₅ := F.trans h₄ (rel_of_ok hlooked hm₅)
  cases hasCode with
  | false => exact keeps_atContext h _ _ m₅
  | true =>
    have houtput := keeps_atContext h 0 (prepareMemAccess args.offOut args.sizeOut) m₅
    refine rel_bind houtput fun _ m₆ hm₆ => ?_
    have h₆ := F.trans h₅ (rel_of_ok houtput hm₆)
    have hinput := keeps_atContext h 0 (copyFromMem args.offIn args.sizeIn) m₆
    refine rel_bind hinput fun input m₇ hm₇ => ?_
    exact henter c args r callee w input m₇ hc hregs hw (F.trans h₆ (rel_of_ok hinput hm₇))

/-- A self-destruction stays in the frame if looking up the heir does, and what comes then. -/
theorem rel_selfdestruct_of_end
    (hget : ∀ c a r, m.ctxts.head? = some c → popAddr c.toRegs = .ok a r →
      G.Keeps (EthereumState.get a))
    (hend : ∀ c a r recipient w amount w', m.ctxts.head? = some c → popAddr c.toRegs = .ok a r →
      EthereumState.get a m.world = .ok recipient w → c.account.getBalance w = .ok amount w' →
        ∀ m' : Machine, m'.world = w' → F.rel m' (stateAfter (do
          inWorld (c.account.payTo recipient amount)
          addSelfdestruct c.account.address
          stop) m')) : F.rel m (stateAfter selfdestruct m) := by
  refine rel_bind_refuseStatic fun _ _ _ => rel_bind_current fun c hc => ?_
  rw [popAccount, bind_assoc]
  refine rel_bind_atContext h hc fun a r m₁ hpop hm₁ => ?_
  subst hm₁
  refine rel_bind (keeps_inWorld h (hget c a r hc hpop) _) fun recipient m₂ hlookup => ?_
  obtain ⟨w, hw, rfl⟩ := inWorld_eq_ok.mp hlookup
  refine rel_bind (keeps_getBalance h _ _) fun balance m₃ hbalance => ?_
  obtain ⟨w', hw', rfl⟩ := inWorld_eq_ok.mp hbalance
  exact hend c a r recipient w balance w' hc hpop hw hw' _ rfl

/-- A self-destruction stays in the frame if looking up and paying the heir does. -/
theorem rel_selfdestruct
    (hdestroyed : ∀ (m : Machine) (l : List Address), F.rel m { m with selfdestructList := l })
    (hget : ∀ c a r, m.ctxts.head? = some c → popAddr c.toRegs = .ok a r →
      G.Keeps (EthereumState.get a))
    (hpay : ∀ c a r recipient w amount w', m.ctxts.head? = some c → popAddr c.toRegs = .ok a r →
      EthereumState.get a m.world = .ok recipient w → c.account.getBalance w = .ok amount w' →
        G.rel w' (stateAfter (c.account.payTo recipient amount) w')) :
    F.rel m (stateAfter selfdestruct m) := by
  refine rel_selfdestruct_of_end h hget fun c a r recipient w amount w' hc hpop hw hw' m' hm' => ?_
  have hpaid := hpay c a r recipient w amount w' hc hpop hw hw'
  rw [← hm'] at hpaid
  refine rel_bind (rel_inWorld h hpaid) fun _ m₆ _ => ?_
  exact keeps_bind (fun m => hdestroyed m _) (fun _ => keeps_stop h) m₆

end Keeps

/-- The operations that at most look accounts and slots up. -/
def Opcode.Reading : Opcode → Prop
  | .sstore | .log _ | .return_ | .selfdestruct | .create _ | .call _ => False
  | _ => True

instance : DecidablePred Opcode.Reading := fun op => by
  cases op <;> first | exact isTrue trivial | exact isFalse id

/-- The operations that look up the account on top of the stack and read from it. -/
def Opcode.LooksUp : Opcode → Prop
  | .extcodesize | .extcodecopy | .extcodehash | .balance => True
  | _ => False

/-- The `step` of a context changes its registers only. -/
def Regs.step (r : Regs) : Regs :=
  if r.pcChanged then { r with pcChanged := false } else { r with pc := r.pc + 1 }

theorem Context.step_eq (c : Context) : c.step = { c with toRegs := c.toRegs.step } := by
  unfold Context.step Regs.step
  split
  · rfl
  · rfl

/-- One round of the loop, `none` where the loop ends or the run is left by an exception. -/
def next (pf : Platform) (origin : Address) (m : Machine) (_ : Unit) : Option Machine :=
  match m.ctxts with
  | [] => none
  | c :: _ =>
    if c.pc < c.code.length then
      match cycle pf origin m with
      | .ok _ m' => some m'
      | .error _ _ => none
    else none

/-- A step is a round of the loop. -/
theorem cycle_of_next (h : next pf origin m () = some m') : cycle pf origin m = .ok () m' := by
  unfold next at h
  cases hctxts : m.ctxts with
  | nil =>
    rw [hctxts] at h
    cases h
  | cons c rest =>
    simp only [hctxts] at h
    split at h
    · cases hrun : cycle pf origin m with
      | ok u m₁ =>
        rw [hrun] at h
        cases h
        rfl
      | error e m₁ =>
        rw [hrun] at h
        cases h
    · cases h

section Rounds

variable {F : Frame Machine} {G : Frame World} (h : Steps F G) {pf : Platform} {origin : Address}

include h

/-- An operation that reads stays in the frame if the lookup it makes does. -/
theorem rel_exec_of_reading (hop : op.Reading)
    (hget : op.LooksUp → ∀ c a r, m.ctxts.head? = some c → popAddr c.toRegs = .ok a r →
      G.Keeps (EthereumState.get a))
    (hload : ∀ c key, m.ctxts.head? = some c → G.Keeps (c.account.load pf key)) :
    F.rel m (stateAfter (op.exec pf origin) m) := by
  have hpush : ∀ v : Word, F.Keeps (atContext 0 (push v)) := fun v => keeps_atContext h 0 _
  have haccount : ∀ {rest : AccountProxy → Run Unit}, op.LooksUp →
      (∀ account, F.Keeps (rest account)) → F.rel m (stateAfter (popAccount >>= rest) m) :=
    fun hlooks hrest =>
      rel_bind (rel_popAccount h (hget hlooks)) fun account m₁ _ => hrest account m₁
  cases op with
  | onRegs op => exact keeps_bind keeps_current (fun c => keeps_atContext h 0 _) m
  | sload =>
    refine rel_bind_current fun c hc => ?_
    refine keeps_bind (keeps_atContext h 0 _) (fun k => ?_) m
    exact keeps_bind (keeps_inWorld h (hload c k hc)) fun v => hpush v
  | codesize =>
    refine keeps_bind keeps_current (fun c => ?_) m
    exact keeps_bind (keeps_getCode h _) fun code => hpush _
  | extcodesize | extcodehash =>
    exact haccount trivial fun account => keeps_bind (keeps_getCode h _) fun code => hpush _
  | extcodecopy =>
    exact haccount trivial fun account => keeps_bind (keeps_getCode h _) fun code =>
      keeps_atContext h 0 _
  | balance =>
    exact haccount trivial fun account => keeps_bind (keeps_getBalance h _) fun balance => hpush _
  | selfbalance =>
    refine keeps_bind keeps_current (fun c => ?_) m
    exact keeps_bind (keeps_getBalance h _) fun balance => hpush _
  | timestamp =>
    exact keeps_bind (keeps_inWorld h (h.reads.ask _)) (fun now => hpush _) m
  | revert =>
    exact keeps_bind (keeps_atContext h 0 _) (fun output => keeps_throw _) m
  | stop => exact keeps_stop h m
  | sstore | log _ | return_ | selfdestruct | create _ | call _ => exact hop.elim

omit h in
/-- A dispatch stays in the frame if its operation does. -/
theorem rel_dispatch (hop : ∀ op, m.opcode = some op → F.rel m (stateAfter (op.exec pf origin) m)) :
    F.rel m (stateAfter (dispatch pf origin) m) := by
  refine rel_bind (keeps_get m) fun m' m₁ hget => ?_
  cases hget
  cases hm : m.opcode with
  | none => exact F.refl m
  | some op => exact hop op hm

/-- A round of the loop stays in the frame if the operation does. -/
theorem rel_cycle (hop : ∀ op, m.opcode = some op → F.rel m (stateAfter (op.exec pf origin) m)) :
    F.rel m (stateAfter (cycle pf origin) m) := by
  refine rel_bind (rel_tryCatch (rel_dispatch hop) fun e m₁ _ => ?_) fun _ m₁ _ => ?_
  · cases e with
    | evm type => exact keeps_handleException h type m₁
    | _ => exact F.refl m₁
  · change F.rel m₁ { m₁ with ctxts := m₁.ctxts.modifyHead Context.step }
    cases hctxts : m₁.ctxts with
    | nil =>
      rw [List.modifyHead_nil, ← hctxts]
      exact F.refl m₁
    | cons c rest =>
      have hregs := h.regs m₁ 0 c c.toRegs.step (by rw [hctxts, List.getElem?_cons_zero])
      rw [hctxts, List.set_cons_zero, ← c.step_eq] at hregs
      exact hregs

/-- A round that is followed by another one stays in the frame if its operation does. -/
theorem rel_next (hnext : next pf origin m () = some m')
    (hop : ∀ op, m.opcode = some op → F.rel m (stateAfter (op.exec pf origin) m)) : F.rel m m' := by
  have hcycle := rel_cycle h hop
  rw [stateAfter, cycle_of_next hnext] at hcycle
  exact hcycle

/-- The loop stays in the frame if the operation of every machine it reaches does. -/
theorem rel_loop (fuel : Nat)
    (hop : ∀ m', Reachable (next pf origin) m m' → ∀ op, m'.opcode = some op →
      F.rel m' (stateAfter (op.exec pf origin) m')) :
    F.rel m (stateAfter (loop pf origin fuel) m) := by
  induction fuel generalizing m with
  | zero => exact F.refl m
  | succ fuel ih =>
    refine rel_bind (keeps_get m) fun m' m₁ hget => ?_
    cases hget
    cases hctxts : m.ctxts with
    | nil => exact F.refl m
    | cons c rest =>
      dsimp only
      by_cases hpc : c.pc < c.code.length
      · rw [if_pos hpc]
        refine rel_bind (rel_cycle h (hop m .refl)) fun _ m₁ hcycle => ih fun m' hreach => ?_
        have hnext : next pf origin m () = some m₁ := by
          simp only [next, hctxts, if_pos hpc, hcycle]
        exact hop m' (hreach.head trivial hnext)
      · rw [if_neg hpc]
        exact keeps_stop h m

end Rounds

section Interprets

variable {F : Frame Machine} {G : Frame World} (h : Interprets F G)

include h

/-- Operations that only read stay in the frame. -/
theorem keeps_exec_of_reading (hop : op.Reading) : F.Keeps (op.exec pf origin) := fun _ =>
  rel_exec_of_reading h.toSteps hop (fun _ _ _ _ _ _ => h.lookups.get _)
    fun _ _ _ => h.lookups.load _ _ _

/-- A call stays in the frame if the payment of its value does. -/
theorem rel_call_of_pays (hpay : ∀ c args r callee w, m.ctxts.head? = some c →
      callArguments kind c.toRegs = .ok args r →
        EthereumState.get args.addr m.world = .ok callee w →
          G.rel w (stateAfter (c.account.payTo callee args.value) w)) :
    F.rel m (stateAfter (call kind) m) :=
  rel_call h.toSteps (fun _ _ _ _ _ => h.lookups.get _)
    (fun c args r callee w hc hargs _ => hpay c args r callee w hc hargs) 
    fun _ _ _ _ _ _ m' _ _ _ _ =>
    keeps_enterCall h.toSteps (fun m _ _ _ hhandler => h.enter m _ _ _ _ hhandler) m'

end Interprets

/-- A frame that allows whatever an operation does. -/
structure InterpretsAll (F : Frame Machine) (G : Frame World) : Prop extends Interprets F G where
  interacts : G.Interacts
  enterAny : ∀ (m : Machine) (c : Context), F.rel m { m with ctxts := c :: m.ctxts }
  logs : ∀ (m : Machine) (l : List LogEntry), F.rel m { m with logs := l }
  destroyed : ∀ (m : Machine) (l : List Address), F.rel m { m with selfdestructList := l }

section All

variable {F : Frame Machine} {G : Frame World} (h : InterpretsAll F G) {pf : Platform}
  {origin : Address}

include h

/-- Every operation stays in the frame. -/
theorem keeps_exec (op : Opcode) : F.Keeps (op.exec pf origin) := by
  have hS := h.toSteps
  have hreading : op.Reading → F.Keeps (op.exec pf origin) := keeps_exec_of_reading h.toInterprets
  cases op with
  | sstore => exact fun m => rel_sstore hS fun c key value _ => h.interacts.sstore pf _ key value
  | log topics => exact keeps_log hS (fun entry m => h.logs m _) topics
  | return_ =>
    exact fun m => rel_return_ hS fun _ account output _ _ => h.interacts.setCode account output
  | selfdestruct =>
    exact fun m => rel_selfdestruct hS h.destroyed (fun _ _ _ _ _ => h.lookups.get _)
      fun _ _ _ _ _ _ w' _ _ _ _ => h.interacts.payTo _ _ _ w'
  | create salted =>
    refine fun m => rel_create hS fun c contractValue initCode _ newAddress _ _ _ _ _ => ?_
    refine keeps_bind (keeps_inWorld hS (h.interacts.createEmpty _ _)) fun newAcc => ?_
    refine keeps_bind (keeps_inWorld hS (h.interacts.payTo _ _ _)) fun _ => ?_
    exact keeps_pushContext fun m => h.enterAny m _
  | call kind =>
    exact fun m => rel_call_of_pays h.toInterprets fun c args _ callee w _ _ _ =>
      h.interacts.payTo c.account callee _ w
  | _ => exact hreading trivial

/-- The loop stays in the frame. -/
theorem keeps_loop (fuel : Nat) : F.Keeps (loop pf origin fuel) := fun _ =>
  rel_loop h.toSteps fuel fun m' _ op _ => keeps_exec h op m'

end All

/-- A frame over worlds, as one over machines. -/
def onWorld (G : Frame World) : Frame Machine where
  rel m m' := G.rel m.world m'.world
  refl m := G.refl m.world
  trans := G.trans

/-- Over worlds, a frame of interactions allows all operations. -/
theorem interpretsAll_onWorld {G : Frame World} (hG : G.Interacts) :
    InterpretsAll (onWorld G) G where
  reads := hG.reads
  lookups := hG.toLookups
  world _ _ hw := hw
  regs m _ _ _ _ := G.refl m.world
  leave m := G.refl m.world
  enter m _ _ _ _ _ := G.refl m.world
  result m _ := G.refl m.world
  interacts := hG
  enterAny m _ := G.refl m.world
  logs m _ := G.refl m.world
  destroyed m _ := G.refl m.world

section Runs

variable {G : Frame World}

private theorem keeps_execute {start : World → Machine} (hstart : ∀ w, (start w).world = w)
    {x : Run Unit}
    (hx : (onWorld G).Keeps x) : G.Keeps (execute start x) := by
  intro w
  have hw : G.rel (start w).world (stateAfter x (start w)).world := hx (start w)
  rw [hstart w] at hw
  unfold stateAfter execute
  unfold stateAfter at hw
  cases hrun : x (start w) with
  | ok _ _ | error _ _ =>
    rw [hrun] at hw
    exact hw

/-- The clean-up behind a run throws if there is anything to clean up. -/
theorem forM_remove_eq_ok {l : List Address} {w w' : World} :
    l.forM EthereumState.remove w = .ok u w' ↔ l = [] ∧ w' = w := by
  cases l with
  | nil =>
    rw [List.forM]
    exact pure_eq_ok.trans (and_congr_left fun _ => iff_of_true rfl rfl)
  | cons a l => exact ⟨fun h => (nomatch h), fun h => (nomatch h.1)⟩

/-- Removing accounts stays in the frame. -/
theorem keeps_forM_remove (l : List Address) : G.Keeps (l.forM EthereumState.remove) := by
  cases l with
  | nil => exact keeps_pure _
  | cons a l => exact fun w => G.refl w

private theorem keeps_run (hG : G.Interacts) (pf : Platform) (fuel : Nat) (caller : Address)
    (callee : AccountProxy) (input : ByteString) (callValue : Word) :
    G.Keeps (run pf fuel caller callee input callValue) := by
  refine keeps_bind (callee.keeps_getCode hG.reads) fun code => ?_
  refine keeps_bind ?_ fun m => ?_
  · exact keeps_execute (fun _ => rfl) (keeps_loop (interpretsAll_onWorld hG) fuel)
  · exact keeps_bind (keeps_forM_remove _) fun _ => keeps_pure _

/-- Running a callee stays in the frame. -/
theorem EVMC.keeps_runCallee (hG : G.Interacts) (pf : Platform) (fuel : Nat) (call : MessageCall)
    (to_ : Address) : G.Keeps (EVMC.runCallee pf fuel call to_) := by
  refine keeps_bind (hG.get _) fun accountState => ?_
  refine keeps_bind (accountState.keeps_hasCode hG.reads) fun hasCode => ?_
  refine keeps_bind (keeps_throwIf _ _) fun _ => ?_
  exact keeps_bind (keeps_run hG pf fuel _ _ _ _) fun _ => keeps_pure _

/-- Setting the code of a deployment stays in the frame. -/
theorem EVMC.keeps_deploy (hG : G.Interacts) (call : MessageCall) (output : ByteString)
    (account : AccountProxy) : G.Keeps (EVMC.deploy call output account) :=
  keeps_ite (fun _ => hG.setCode _ _) fun _ => keeps_pure _

theorem Endpoint.keeps_ofExcept {β : Type} (x : Except Error β) :
    G.Keeps (Endpoint.ofExcept x) := by
  cases x with
  | ok a => exact keeps_pure _
  | error e => exact keeps_throw _

section Accounts

variable (hreads : G.Reads) {a : Address} (hget : G.Keeps (EthereumState.get a))

include hreads

variable {blockId : ByteString}

/-- `eth_getBalance` stays in the frame if its lookup does. -/
theorem Endpoint.keeps_getBalance
    (hget : blockId = Endpoint.latest → G.Keeps (EthereumState.get a)) :
    G.Keeps (Endpoint.getBalance a blockId) := by
  refine keeps_ite (fun _ => keeps_pure _) fun hblock => ?_
  refine keeps_bind (hget (not_not.mp hblock)) fun account => ?_
  exact keeps_bind (account.keeps_getBalance hreads) fun _ => keeps_pure _

/-- So does `eth_getTransactionCount`. -/
theorem Endpoint.keeps_getTransactionCount
    (hget : blockId = Endpoint.latest → G.Keeps (EthereumState.get a)) :
    G.Keeps (Endpoint.getTransactionCount a blockId) := by
  refine keeps_ite (fun _ => keeps_pure _) fun hblock => ?_
  refine keeps_bind (hget (not_not.mp hblock)) fun account => ?_
  exact keeps_bind (account.keeps_getNonce hreads) fun _ => keeps_pure _

include hget

/-- Asking for an escrow stays in the frame. -/
theorem Endpoint.keeps_sendContractEscrow : G.Keeps (Endpoint.sendContractEscrow a) := by
  refine keeps_bind hget fun account => ?_
  refine keeps_bind (account.keeps_hasCode hreads) fun _ => ?_
  exact keeps_bind (keeps_throwIf _ _) fun _ => keeps_pure _

/-- Setting a key stays in the frame if its rows may be put. -/
theorem Endpoint.keeps_setContractKey (hkey : G.Puts .encrypted) (hlevel : G.Puts .levels)
    (pf : Platform) : G.Keeps (Endpoint.setContractKey pf a) := by
  refine keeps_bind hget fun account => ?_
  refine keeps_bind (account.keeps_hasCode hreads) fun _ => ?_
  refine keeps_bind (keeps_throwIf _ _) fun _ => ?_
  refine keeps_bind (hreads.get _ _) fun _ => ?_
  refine keeps_bind (keeps_throwIf _ _) fun _ => ?_
  refine keeps_bind (hreads.ask _) fun key => ?_
  refine keeps_bind (hkey _ _) fun _ => ?_
  refine keeps_bind (hreads.get _ _) fun _ => ?_
  refine keeps_bind (keeps_throwIf _ _) fun _ => ?_
  exact keeps_bind (hlevel _ _) fun _ => keeps_pure _

end Accounts

variable (hG : G.Executes) (pf : Platform) (fuel : Nat)

include hG

/-- Finding the callee stays in the frame. -/
theorem EVMC.keeps_callee (call : MessageCall) : G.Keeps (EVMC.callee call) := by
  unfold EVMC.callee
  cases call.to_ with
  | some to_ => exact keeps_pure _
  | none =>
    refine keeps_bind (hG.get _) fun fromState => ?_
    refine keeps_bind (fromState.keeps_getNonce hG.reads) fun nonce => ?_
    exact keeps_bind (hG.create _ _ _) fun _ => keeps_pure _

variable (hn : G.Puts .nonces)

include hn

omit hG in
/-- Counting a transaction stays in the frame. -/
theorem EVMC.keeps_countTransaction (hL : G.Lookups) (call : MessageCall) :
    G.Keeps (EVMC.countTransaction call) := by
  refine keeps_bind (hL.get _) fun fromState => ?_
  refine keeps_bind (fromState.keeps_getNonce hL.reads) fun _ => ?_
  exact keeps_bind (fromState.keeps_getNonce hL.reads) fun _ => hn _ _

private theorem EVMC.keeps_runInEvm (call : MessageCall) :
    G.Keeps (EVMC.runInEvm pf fuel call) := by
  refine keeps_bind (keeps_callee hG call) fun to_ => ?_
  refine keeps_bind (keeps_runCallee hG.toInteracts pf fuel call to_) ?_
  rintro ⟨result, logs, accountState⟩
  have hend : G.Keeps (do
      EVMC.deploy call result.output accountState
      EVMC.countTransaction call
      pure (result, logs, accountState.address)) := by
    refine keeps_bind (keeps_deploy hG.toInteracts call _ _) fun _ => ?_
    exact keeps_bind (keeps_countTransaction hn hG.toLookups call) fun _ => keeps_pure _
  dsimp only
  cases result.exit with
  | threw type => exact keeps_pure _
  | returned | halted => exact hend

omit hG hn in
theorem EVMC.keeps_rethrow (result : ExecResult) : G.Keeps (EVMC.rethrow result) := by
  unfold EVMC.rethrow
  cases result.exit with
  | threw type => exact keeps_throw _
  | returned | halted => exact keeps_pure _

private theorem EVMC.keeps_evmcRun (call : MessageCall) : G.Keeps (EVMC.run pf fuel call) := by
  refine keeps_bind (keeps_runInEvm hG pf fuel hn call) fun r => ?_
  exact keeps_bind (keeps_rethrow _) fun _ => keeps_pure _

/-- `eth_call` stays in the frame. -/
theorem Endpoint.keeps_ethCall (call : MessageCall) : G.Keeps (Endpoint.ethCall pf fuel call) := by
  refine keeps_ite (fun _ => keeps_pure _) fun _ => ?_
  refine keeps_bind ?_ fun _ => keeps_pure _
  refine keeps_bind (keeps_runInEvm hG pf fuel hn call) fun r => ?_
  exact keeps_bind (keeps_rethrow _) fun _ => keeps_pure _

/-- `eth_sendRawTransaction` stays in the frame. -/
theorem Endpoint.keeps_sendRawTransaction (hr : G.Puts .txResults) (raw : ByteString) :
    G.Keeps (Endpoint.sendRawTransaction pf fuel raw) := by
  refine keeps_bind (hG.reads.ask _) fun beyond => ?_
  refine keeps_bind (Endpoint.keeps_ofExcept _) fun ethTx => ?_
  refine keeps_bind (Endpoint.keeps_ofExcept _) fun call => ?_
  refine keeps_bind (keeps_evmcRun hG pf fuel hn call) fun txResult => ?_
  exact keeps_bind (hr _ _) fun _ => keeps_pure _

end Runs

end CloakBridge.Evm
