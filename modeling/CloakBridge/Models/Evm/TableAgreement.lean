import CloakBridge.Models.Evm.AccountTables
import CloakBridge.Models.Evm.Requests
import Mathlib.Data.Set.Insert

/-!
# Requests keep the account tables in agreement

The handler of a request works on accounts through proxies that were handed out before:
those of the contexts of a machine, the callee it just looked up, the account it just
created. Each part of a handler is followed under the assumption that certain proxies were
handed out, extended where the next one is.
-/

namespace CloakBridge.Tee

open Kv Evm CloakBridge.Frame

/-- Proxies stay handed out. -/
def cacheStays : Frame World where
  rel w w' := ∀ a p, w.cache a = some p → w'.cache a = some p
  refl _ _ _ h := h
  trans h h' a p hp := h' a p (h a p hp)

namespace cacheStays

private theorem of_eq {w w' : World} (h : w'.cache = w.cache) : cacheStays.rel w w' :=
  fun a _ hp => (congrFun h a).trans hp

private theorem reads : cacheStays.Reads := ⟨fun _ _ _ => of_eq rfl, fun _ _ => of_eq rfl⟩

private theorem puts (t : TableName) : cacheStays.Puts t := fun _ _ _ => of_eq rfl

private theorem keeps_addToCache (a : Address) : cacheStays.Keeps (EthereumState.addToCache a) := by
  intro w
  refine rel_bind (reads.get _ _ w) fun level w₁ _ => ?_
  refine rel_bind (reads.get _ _ w₁) fun key w₂ _ => ?_
  refine rel_bind (keeps_cached a w₂) fun cached w₃ hcached => ?_
  obtain ⟨rfl, rfl⟩ := modifyGet_eq_ok.mp hcached
  refine rel_bind (keeps_throwIf _ _ w₃) fun _ w₄ hthrow => ?_
  obtain ⟨hnone, rfl⟩ := Exec.throwIf_eq_ok.mp hthrow
  refine rel_bind ?_ fun _ w₅ _ => cacheStays.refl w₅
  intro b q hq
  have hba : b ≠ a := by
    rintro rfl
    rw [hq] at hnone
    exact hnone rfl
  change Function.update w₄.cache a _ b = some q
  rw [Function.update_of_ne hba, hq]

private theorem keeps_create (a : Address) (balance : Word) (code : ByteString) :
    cacheStays.Keeps (EthereumState.create a balance code) := by
  refine keeps_bind ?_ fun _ => keeps_addToCache a
  exact EthereumState.keeps_writeInitialRows reads ((puts .balances).fillsAt a balance)
    ((puts .codes).fillsAt a code) ((puts .nonces).fillsAt a _)

private theorem keeps_get (a : Address) : cacheStays.Keeps (EthereumState.get a) := by
  refine keeps_bind (keeps_cached a) fun cached => ?_
  cases cached with
  | some p => exact keeps_pure _
  | none =>
    refine keeps_bind (reads.get _ _) fun _ => ?_
    exact keeps_ite (fun _ => keeps_create a 0 []) fun _ => keeps_addToCache a

end cacheStays

variable {w w' : World} {p : AccountProxy} {a : Address}

private theorem World.HandedOut.stays (h : w.HandedOut p) (hrel : cacheStays.rel w w') :
    w'.HandedOut p :=
  hrel p.address p h

private theorem handedOut_of_get (hw : w.OwnProxies) (h : EthereumState.get a w = .ok p w') :
    w'.HandedOut p := by
  rw [World.HandedOut, EthereumState.address_of_get hw h]
  cases hcache : w.cache a with
  | none => rw [cache_of_get hcache h, Function.update_self]
  | some q =>
    obtain ⟨cached, w₁, hcached, h⟩ := bind_eq_ok.mp h
    obtain ⟨rfl, rfl⟩ := modifyGet_eq_ok.mp hcached
    rw [hcache] at h
    obtain ⟨rfl, rfl⟩ := pure_eq_ok.mp h
    exact hcache

private theorem handedOut_of_create {balance : Word} {code : ByteString}
    (h : EthereumState.create a balance code w = .ok p w') : w'.HandedOut p := by
  rw [World.HandedOut, EthereumState.address_of_create h, cache_of_create h, Function.update_self]

private theorem Operates.cache_stays (h : Operates w w') : cacheStays.rel w w' := by
  cases h with
  | get a => exact cacheStays.keeps_get a w
  | create a balance code => exact cacheStays.keeps_create a balance code w
  | setBalance _ _ | setCode _ _ | incrementNonce _ => exact cacheStays.of_eq rfl
  | elsewhere hb hc hn hcache => exact cacheStays.of_eq hcache

private theorem Operates.keeps_ownProxies (h : Operates w w') : ownProxies.rel w w' := by
  cases h with
  | get a => exact ownProxies.executes.get a w
  | create a balance code => exact ownProxies.executes.create a balance code w
  | setBalance hp b => exact ownProxies.puts .balances _ _ w
  | setCode hp code => exact ownProxies.puts .codes _ _ w
  | incrementNonce hp => exact id
  | elsewhere hb hc hn hcache => exact fun hw a p hp => hw a p (hcache ▸ hp)

/-- The proxies in `P` were handed out. -/
structure World.Holds (P : Set AccountProxy) (w : World) : Prop where
  ownProxies : w.OwnProxies
  handedOut : ∀ p ∈ P, w.HandedOut p

private theorem Operated.cache_stays (h : Operated w w') : cacheStays.rel w w' := by
  induction h with
  | refl => exact cacheStays.refl _
  | tail _ hstep ih => exact cacheStays.trans ih hstep.cache_stays

private theorem World.Holds.operated {P : Set AccountProxy} (h : w.Holds P) (hop : Operated w w') :
    w'.Holds P := by
  refine ⟨?_, fun p hp => (h.handedOut p hp).stays hop.cache_stays⟩
  induction hop with
  | refl => exact h.ownProxies
  | tail _ hstep ih => exact hstep.keeps_ownProxies ih

/-- Where the proxies in `P` were handed out, only operations are performed. -/
def operating (P : Set AccountProxy) : Frame World where
  rel w w' := w.Holds P → Operated w w'
  refl _ _ := .refl
  trans h h' hw := (h hw).trans (h' (hw.operated (h hw)))

namespace operating

variable {P Q : Set AccountProxy} {t : TableName}

private theorem narrow (h : (operating Q).rel w w') (hQ : ∀ p ∈ Q, w.HandedOut p) :
    (operating P).rel w w' := fun hw => h ⟨hw.ownProxies, hQ⟩

private theorem elsewhere (hb : w'.tx.view .balances = w.tx.view .balances)
    (hc : w'.tx.view .codes = w.tx.view .codes) (hn : w'.tx.view .nonces = w.tx.view .nonces)
    (hcache : w'.cache = w.cache) : (operating P).rel w w' := fun _ =>
  .single (.elsewhere hb hc hn hcache)

private theorem reads : (operating P).Reads where
  get t k w := by
    have hview := Tables.view_noteRead w.tx t k
    exact elsewhere (congrFun hview _) (congrFun hview _) (congrFun hview _) rfl
  ask _ _ := elsewhere rfl rfl rfl rfl

/-- The tables that hold no accounts. -/
def others : List TableName :=
  [.storage, .txResults, .pendingStates, .pendingStorage, .encrypted, .levels, .proof]

private theorem of_setRow {k : t.Key} {v : Option t.Val} (ht : t ∈ others)
    (hview : w'.tx.view = w.tx.view.setRow t k v) (hcache : w'.cache = w.cache) :
    (operating P).rel w w' := by
  have hne : ∀ t' ∉ others, t' ≠ t := fun t' ht' heq => ht' (heq ▸ ht)
  refine elsewhere ?_ ?_ ?_ hcache
  · rw [hview, Tables.setRow_of_ne _ (hne _ (by decide))]
  · rw [hview, Tables.setRow_of_ne _ (hne _ (by decide))]
  · rw [hview, Tables.setRow_of_ne _ (hne _ (by decide))]

private theorem puts (ht : t ∈ others) : (operating P).Puts t := fun k v w =>
  of_setRow ht (Tables.view_put w.tx t k v) rfl

private theorem removes : (operating P).Removes .storage := fun k w =>
  of_setRow (by decide) (Tables.view_remove w.tx .storage k) rfl

private theorem lookups : (operating P).Lookups where
  reads := reads
  get a w _ := .single (.get w a)
  load pf p key := p.keeps_load reads (puts (by decide)) pf key

private theorem keeps_create (a : Address) (balance : Word) (code : ByteString) :
    (operating P).Keeps (EthereumState.create a balance code) := fun w _ =>
  .single (.create w a balance code)

private theorem keeps_sstore (pf : Platform) (p : AccountProxy) (key value : Word) :
    (operating P).Keeps (p.sstore pf key value) :=
  p.keeps_sstore reads (puts (by decide) _) removes (puts (by decide)) pf value

variable (hp : p ∈ P)

include hp

private theorem keeps_setBalance (b : Word) : (operating P).Keeps (p.setBalance b) := fun _ hw =>
  .single (.setBalance (hw.handedOut p hp) b)

private theorem keeps_setCode (code : ByteString) : (operating P).Keeps (p.setCode code) :=
  fun _ hw => .single (.setCode (hw.handedOut p hp) code)

private theorem keeps_incrementNonce : (operating P).Keeps p.incrementNonce := fun _ hw =>
  .single (.incrementNonce (hw.handedOut p hp))

private theorem keeps_payTo {other : AccountProxy} (hother : other ∈ P) (amount : Word) :
    (operating P).Keeps (p.payTo other amount) :=
  AccountProxy.keeps_payTo reads (keeps_setBalance hp) (keeps_setBalance hother) amount

end operating

end CloakBridge.Tee

namespace CloakBridge.Evm

open Tee Kv CloakBridge.Frame EVMC

/-- The accounts that a context runs in or is to create were handed out. -/
structure Context.Holds (w : World) (c : Context) : Prop where
  account : w.HandedOut c.account
  created : ∀ account, c.handler = .create account → w.HandedOut account

/-- The proxies in `P` and those of all contexts were handed out. -/
structure Machine.Holds (P : Set AccountProxy) (m : Machine) : Prop where
  world : m.world.Holds P
  ctxts : ∀ c ∈ m.ctxts, c.Holds m.world

variable {w w' : World} {c : Context} {p : AccountProxy} {a : Address}

private theorem Context.Holds.stays (h : c.Holds w) (hrel : cacheStays.rel w w') : c.Holds w' :=
  ⟨h.account.stays hrel, fun account hcreate => (h.created account hcreate).stays hrel⟩

/-- Where the proxies in `P` were handed out, only operations are performed, and contexts are
entered for proxies that were handed out. -/
def working (P : Set AccountProxy) : Frame Machine where
  rel m m' := m.Holds P → m'.Holds P ∧ Operated m.world m'.world
  refl _ h := ⟨h, .refl⟩
  trans h h' hm := by
    obtain ⟨hm', hop⟩ := h hm
    obtain ⟨hm'', hop'⟩ := h' hm'
    exact ⟨hm'', hop.trans hop'⟩

section Working

variable {P Q : Set AccountProxy} {m m' : Machine}

private theorem steps_working : Steps (working P) (operating P) where
  reads := operating.reads
  world m w hw h := by
    have hop := hw h.world
    exact ⟨⟨h.world.operated hop, fun c hc => (h.ctxts c hc).stays hop.cache_stays⟩, hop⟩
  regs m i c r hc h := by
    refine ⟨⟨h.world, fun d hd => ?_⟩, .refl⟩
    rcases List.mem_or_eq_of_mem_set hd with hd | rfl
    · exact h.ctxts d hd
    · have hcontext := h.ctxts c (List.mem_of_getElem? hc)
      exact ⟨hcontext.account, hcontext.created⟩
  leave _ h := ⟨⟨h.world, fun c hc => h.ctxts c (List.mem_of_mem_tail hc)⟩, .refl⟩
  result _ _ h := ⟨⟨h.world, h.ctxts⟩, .refl⟩

private theorem working_narrow (h : (working Q).rel m m') (hQ : ∀ p ∈ Q, m.world.HandedOut p) :
    (working P).rel m m' := by
  intro hm
  obtain ⟨hm', hop⟩ := h ⟨⟨hm.world.ownProxies, hQ⟩, hm.ctxts⟩
  exact ⟨⟨hm.world.operated hop, hm'.ctxts⟩, hop⟩

private theorem Machine.Holds.head (h : m.Holds P) (hc : m.ctxts.head? = some c) :
    c.Holds m.world :=
  h.ctxts c (List.mem_of_mem_head? hc)

private theorem working_enter (hc : c.account ∈ P)
    (hcreate : ∀ account, c.handler = .create account → account ∈ P) (m : Machine) :
    (working P).rel m { m with ctxts := c :: m.ctxts } := by
  refine fun h => ⟨⟨h.world, fun d hd => ?_⟩, .refl⟩
  rcases List.mem_cons.mp hd with rfl | hd
  · exact ⟨h.world.handedOut _ hc, fun account haccount =>
      h.world.handedOut _ (hcreate account haccount)⟩
  · exact h.ctxts d hd

/-- The account that a creation makes is handed out before it is paid and entered. -/
theorem keeps_enterCreation_working (hc : c.account ∈ P) (newAddress : Address)
    (contractValue : Word) (initCode : ByteString) :
    (working P).Keeps (enterCreation c newAddress contractValue initCode) := by
  intro m
  refine rel_bind (keeps_inWorld steps_working (operating.keeps_create _ _ _) m)
    fun newAcc m₁ hcreate => ?_
  obtain ⟨w, hw, rfl⟩ := inWorld_eq_ok.mp hcreate
  intro hm₁
  refine working_narrow (Q := insert newAcc P) ?_ (fun p hp => ?_) hm₁
  · have hnew : newAcc ∈ insert newAcc P := Set.mem_insert _ _
    have hpay : (operating (insert newAcc P)).Keeps (c.account.payTo newAcc contractValue) :=
      operating.keeps_payTo (Set.mem_insert_of_mem _ hc) hnew _
    refine keeps_bind (keeps_inWorld steps_working hpay) (fun _ => ?_) _
    refine keeps_pushContext (working_enter hnew fun account haccount => ?_)
    cases haccount
    exact hnew
  · rcases Set.mem_insert_iff.mp hp with rfl | hp
    · exact handedOut_of_create hw
    · exact hm₁.world.handedOut p hp

private theorem handedOut_pair {q : AccountProxy} {w₁ w₂ : World} (hw : w.OwnProxies)
    (hp : w.HandedOut p)
    (hget : EthereumState.get a w = .ok q w₁) (hstays : cacheStays.rel w₁ w₂) :
    ∀ r ∈ ({p, q} : Set AccountProxy), w₂.HandedOut r := by
  intro r hr
  rcases hr with rfl | rfl
  · exact (hp.stays ((cacheStays.keeps_get a).of_ok hget)).stays hstays
  · exact (handedOut_of_get hw hget).stays hstays

/-- Every operation of the interpreter is made of operations on accounts. -/
theorem rel_exec_working (pf : Platform) (origin : Address) (op : Opcode) (m : Machine) :
    (working P).rel m (stateAfter (op.exec pf origin) m) := by
  intro hm
  refine working_narrow (Q := {p | m.world.HandedOut p}) ?_ (fun _ hp => hp) hm
  have hS := steps_working (P := {p | m.world.HandedOut p})
  have hL := operating.lookups (P := {p | m.world.HandedOut p})
  have hreading : op.Reading → (working {p | m.world.HandedOut p}).rel m
      (stateAfter (op.exec pf origin) m) := fun hop =>
    rel_exec_of_reading hS hop (fun _ _ _ _ _ _ => hL.get _) fun _ _ _ => hL.load _ _ _
  cases op with
  | sstore => exact rel_sstore hS fun c key value _ => operating.keeps_sstore pf _ key value
  | log topics => exact keeps_log hS (fun entry m h => ⟨⟨h.world, h.ctxts⟩, .refl⟩) topics m
  | return_ =>
    refine rel_return_ hS fun c account output hc hcreate => ?_
    exact operating.keeps_setCode ((hm.head hc).created account hcreate) output
  | selfdestruct =>
    refine rel_selfdestruct hS (fun m l h => ⟨⟨h.world, h.ctxts⟩, .refl⟩)
      (fun _ _ _ _ _ => hL.get _) fun c a r recipient w amount w' hc hpop hget hbalance => ?_
    have hstays := (c.account.keeps_getBalance cacheStays.reads).of_ok hbalance
    refine operating.narrow (Q := {c.account, recipient}) ?_
      (handedOut_pair hm.world.ownProxies (hm.head hc).account hget hstays)
    exact operating.keeps_payTo (Or.inl rfl) (Or.inr rfl) amount w'
  | create salted =>
    refine rel_create hS fun c value initCode r newAddress _ hc _ _ _ => ?_
    exact keeps_enterCreation_working (hm.head hc).account newAddress value initCode
  | call kind =>
    refine rel_call hS (fun _ _ _ _ _ => hL.get _) (fun c args r callee w hc hargs _ hget => ?_)
      fun c args r callee w input m' hc hargs hget hrel => ?_
    · refine operating.narrow (Q := {c.account, callee}) ?_
        (handedOut_pair hm.world.ownProxies (hm.head hc).account hget (cacheStays.refl w))
      exact operating.keeps_payTo (Or.inl rfl) (Or.inr rfl) args.value w
    · have hlooked : Machine.Holds {p | m.world.HandedOut p}
          { m with ctxts := m.ctxts.set 0 { c with toRegs := r }, world := w } := by
        have hread := hS.regs m 0 c r (List.head?_eq_getElem? ▸ hc)
          ⟨⟨hm.world.ownProxies, fun _ hp => hp⟩, hm.ctxts⟩
        exact (hS.world { m with ctxts := m.ctxts.set 0 { c with toRegs := r } } w
          ((hL.get args.addr).of_ok hget) hread.1).1
      refine working_narrow (Q := {c.account, callee}) ?_
        (handedOut_pair hm.world.ownProxies (hm.head hc).account hget (hrel hlooked).2.cache_stays)
      refine keeps_enterCall steps_working (fun m₁ c' parent haccount hhandler => ?_) m'
      refine working_enter haccount (fun account hcreate => ?_) m₁
      rw [hhandler] at hcreate
      cases hcreate
  | _ => exact hreading trivial

private theorem rel_loop_working (pf : Platform) (origin : Address) (fuel : Nat) (m : Machine) :
    (working P).rel m (stateAfter (loop pf origin fuel) m) :=
  rel_loop steps_working fuel fun m' _ op _ => rel_exec_working pf origin op m'

end Working

private theorem stateAfter_execute (start : World → Machine) (x : Run Unit) (w : World) :
    stateAfter (execute start x) w = (stateAfter x (start w)).world := by
  unfold stateAfter execute
  cases x (start w) with
  | ok _ _ | error _ _ => rfl

section Executions

variable {P : Set AccountProxy} {pf : Platform} {fuel : Nat} {call : MessageCall} {m₀ : Machine}

private theorem holds_start (hp : p ∈ P) (hw : w.Holds P) (caller : Address)
    (input code : ByteString)
    (callValue : Word) : (Machine.start caller p input code callValue w).Holds P := by
  refine ⟨hw, fun c hc => ?_⟩
  rw [List.mem_singleton.mp hc]
  exact ⟨hw.handedOut p hp, nofun⟩

private theorem keeps_run_operating {callee : AccountProxy} (hcallee : callee ∈ P)
    (caller : Address)
    (input : ByteString) (callValue : Word) :
    (operating P).Keeps (run pf fuel caller callee input callValue) := by
  refine keeps_bind (callee.keeps_getCode operating.reads) fun code => ?_
  refine keeps_bind (fun w hw => ?_) fun m => ?_
  · rw [stateAfter_execute]
    exact (rel_loop_working pf caller fuel _ (holds_start hcallee hw caller input code callValue)).2
  · exact keeps_bind (keeps_forM_remove _) fun _ => keeps_pure _

private theorem rel_get_bind {α : Type} {rest : AccountProxy → Exec α}
    (hrest : ∀ p, (operating {p}).Keeps (rest p)) :
    (operating P).Keeps (EthereumState.get a >>= rest) := by
  intro w hw
  refine rel_bind (operating.lookups.get a w) (fun p w₁ hget => ?_) hw
  refine operating.narrow (Q := {p}) (hrest p w₁) fun q hq => ?_
  rw [Set.mem_singleton_iff.mp hq]
  exact handedOut_of_get hw.ownProxies hget

private theorem EVMC.keeps_callee_operating : (operating P).Keeps (EVMC.callee call) := by
  unfold EVMC.callee
  cases call.to_ with
  | some to_ => exact keeps_pure _
  | none =>
    refine keeps_bind (operating.lookups.get _) fun fromState => ?_
    refine keeps_bind (fromState.keeps_getNonce operating.reads) fun nonce => ?_
    exact keeps_bind (operating.keeps_create _ _ _) fun _ => keeps_pure _

private theorem EVMC.keeps_found_operating (hp : p ∈ P) (to_ : Address) : (operating P).Keeps (do
      let hasCode ← p.hasCode
      Exec.throwIf (¬hasCode) (.commonAddress to_)
      let (result, logs) ← Evm.run pf fuel call.from_ p (Abicoder.evmToBytes call.data) call.value
      pure (result, logs, p)) := by
  refine keeps_bind (p.keeps_hasCode operating.reads) fun hasCode => ?_
  refine keeps_bind (keeps_throwIf _ _) fun _ => ?_
  exact keeps_bind (keeps_run_operating hp _ _ _) fun _ => keeps_pure _

private theorem EVMC.keeps_runCallee_operating (to_ : Address) :
    (operating P).Keeps (EVMC.runCallee pf fuel call to_) :=
  rel_get_bind fun p => keeps_found_operating (Set.mem_singleton p) to_

private theorem EVMC.handedOut_of_runCallee {to_ : Address} (hw : w.OwnProxies)
    {ran : ExecResult × List LogEntry × AccountProxy}
    (h : EVMC.runCallee pf fuel call to_ w = .ok ran w') : w'.HandedOut ran.2.2 := by
  obtain ⟨p, w₁, hget, h⟩ := bind_eq_ok.mp h
  have hp := handedOut_of_get hw hget
  have hw₁ : w₁.Holds {p} := by
    refine ⟨(ownProxies.executes.get to_).of_ok hget hw, fun q hq => ?_⟩
    rw [Set.mem_singleton_iff.mp hq]
    exact hp
  have hop := (keeps_found_operating (Set.mem_singleton p) to_).of_ok h hw₁
  obtain ⟨hasCode, w₂, -, h⟩ := bind_eq_ok.mp h
  obtain ⟨⟨⟩, w₃, -, h⟩ := bind_eq_ok.mp h
  obtain ⟨⟨result, logs⟩, w₄, -, h⟩ := bind_eq_ok.mp h
  obtain ⟨rfl, -⟩ := pure_eq_ok.mp h
  exact hp.stays hop.cache_stays

private theorem EVMC.keeps_countTransaction_operating :
    (operating P).Keeps (EVMC.countTransaction call) := by
  refine rel_get_bind fun fromState => ?_
  refine keeps_bind (fromState.keeps_getNonce operating.reads) fun _ => ?_
  exact operating.keeps_incrementNonce (Set.mem_singleton fromState)

private theorem EVMC.keeps_runInEvm_operating :
    (operating P).Keeps (EVMC.runInEvm pf fuel call) := by
  intro w hw
  refine rel_bind (keeps_callee_operating w) (fun to_ w₁ hcallee => ?_) hw
  have hw₁ := hw.operated (keeps_callee_operating.of_ok hcallee hw)
  refine rel_bind (keeps_runCallee_operating to_ w₁) fun ran w₂ hran => ?_
  obtain ⟨result, logs, accountState⟩ := ran
  have haccount := handedOut_of_runCallee hw₁.ownProxies hran
  have hend : (operating {accountState}).Keeps (do
      EVMC.deploy call result.output accountState
      EVMC.countTransaction call
      pure (result, logs, accountState.address)) := by
    refine keeps_bind ?_ fun _ => ?_
    · exact keeps_ite (fun _ => operating.keeps_setCode (Set.mem_singleton accountState) _)
        fun _ => keeps_pure _
    · exact keeps_bind keeps_countTransaction_operating fun _ => keeps_pure _
  refine operating.narrow (Q := {accountState}) ?_ fun q hq => ?_
  · dsimp only
    cases result.exit with
    | threw type => exact keeps_pure _ w₂
    | returned | halted => exact hend w₂
  · rw [Set.mem_singleton_iff.mp hq]
    exact haccount

private theorem Endpoint.keeps_ethCall_operating :
    (operating P).Keeps (Endpoint.ethCall pf fuel call) := by
  refine keeps_ite (fun _ => keeps_pure _) fun _ => ?_
  refine keeps_bind ?_ fun _ => keeps_pure _
  refine keeps_bind keeps_runInEvm_operating fun r => ?_
  exact keeps_bind (keeps_rethrow _) fun _ => keeps_pure _

private theorem Endpoint.keeps_sendRawTransaction_operating (raw : ByteString) :
    (operating P).Keeps (Endpoint.sendRawTransaction pf fuel raw) := by
  refine keeps_bind (operating.reads.ask _) fun beyond => ?_
  refine keeps_bind (Endpoint.keeps_ofExcept _) fun ethTx => ?_
  refine keeps_bind (Endpoint.keeps_ofExcept _) fun call => ?_
  refine keeps_bind ?_ fun txResult => ?_
  · refine keeps_bind keeps_runInEvm_operating fun r => ?_
    exact keeps_bind (keeps_rethrow _) fun _ => keeps_pure _
  · exact keeps_bind (operating.puts (by decide) _ _) fun _ => keeps_pure _

private theorem Web3Operation.keeps_installCode_operating (addr : Address) (proof : Word)
    (code : ByteString) : (operating P).Keeps (Web3Operation.installCode addr proof code) := by
  refine rel_get_bind fun account => ?_
  refine keeps_bind (account.keeps_hasCode operating.reads) fun hasCode => ?_
  refine keeps_ite (fun _ => keeps_pure _) fun _ => ?_
  refine keeps_bind (operating.puts (by decide) _ _) fun _ => ?_
  refine keeps_bind (operating.puts (by decide) _ _) fun _ => ?_
  refine keeps_bind ?_ fun _ => keeps_pure _
  exact operating.keeps_setCode (Set.mem_singleton account) code

/-- Every handler is made of operations on accounts, whether it returns or throws. -/
theorem Request.keeps_handle_operating (r : Request) : (operating P).Keeps (r.handle pf fuel) := by
  have hL := operating.lookups (P := P)
  cases r with
  | query q =>
    refine keeps_bind ?_ fun _ => keeps_pure _
    cases q with
    | getBalance a blockId => exact Endpoint.keeps_getBalance hL.reads fun _ => hL.get a
    | getTransactionCount a blockId =>
      exact Endpoint.keeps_getTransactionCount hL.reads fun _ => hL.get a
    | ethCall call => exact Endpoint.keeps_ethCall_operating
  | sendRawTransaction raw =>
    exact keeps_bind (Endpoint.keeps_sendRawTransaction_operating raw) fun _ =>
      keeps_pure _
  | setContractKey a =>
    refine keeps_bind ?_ fun _ => keeps_pure _
    exact Endpoint.keeps_setContractKey hL.reads (hL.get a) (operating.puts (by decide))
      (operating.puts (by decide)) pf
  | sendContractEscrow a =>
    exact keeps_bind (Endpoint.keeps_sendContractEscrow hL.reads (hL.get a)) fun _ =>
      keeps_pure _
  | multiPartyTransaction pubKey nonce => exact Endpoint.keeps_checkNonce hL pubKey nonce
  | escrowProof contract beyond proof code =>
    exact keeps_bind (Web3Operation.keeps_installCode_operating _ _ _) fun _ =>
      keeps_throwIf _ _

private theorem EVMC.holds_of_enters (hw : w.Holds P) (h : EVMC.Enters call w m₀) :
    m₀.Holds P ∧ Operated w m₀.world := by
  obtain ⟨to_, w₁, w₂, hcallee, henter⟩ := h
  have hop₁ := keeps_callee_operating.of_ok hcallee hw
  have hw₁ := hw.operated hop₁
  obtain ⟨p, w₃, w₄, code, hget, hhas, hcode, rfl⟩ := enter_eq_ok.mp henter
  have hop₃ := (operating.lookups.get to_).of_ok hget hw₁
  have hop₄ := (p.keeps_hasCode operating.reads).of_ok hhas (hw₁.operated hop₃)
  have hop₂ := (p.keeps_getCode operating.reads).of_ok hcode ((hw₁.operated hop₃).operated hop₄)
  have hw₂ := ((hw₁.operated hop₃).operated hop₄).operated hop₂
  have hp := (handedOut_of_get hw₁.ownProxies hget).stays
    (cacheStays.trans hop₄.cache_stays hop₂.cache_stays)
  refine ⟨⟨hw₂, fun c hc => ?_⟩, ((hop₁.trans hop₃).trans hop₄).trans hop₂⟩
  rw [List.mem_singleton.mp hc]
  exact ⟨hp, nofun⟩

/-- Between the rounds of the interpreter only operations on accounts were performed. -/
theorem operated_of_enters (hw : w.OwnProxies) {m : Machine} (henters : EVMC.Enters call w m₀)
    (hreach : Reachable (next pf call.from_) m₀ m) : Operated w m.world := by
  have hstart := holds_of_enters (P := ∅) ⟨hw, fun _ hp => hp.elim⟩ henters
  suffices hm : m.Holds ∅ ∧ Operated w m.world from hm.2
  refine hreach.invariant (I := fun m => m.Holds ∅ ∧ Operated w m.world) hstart ?_
  intro m₁ _ m₂ hm₁ _ hnext
  have hstep :=
    rel_next (steps_working (P := ∅)) hnext fun op _ => rel_exec_working pf call.from_ op m₁
  obtain ⟨hm₂, hop⟩ := hstep hm₁.1
  exact ⟨hm₂, hm₁.2.trans hop⟩

end Executions

/-- A store with agreeing tables only ever becomes one. -/
theorem keysAgree_of_serve {s s' : Store} {r : Submission} (h : KeysAgree s.content)
    (hserve : serve s r = some s') : KeysAgree s'.content := by
  obtain ⟨w, hrun, hcontent⟩ := content_of_serve hserve
  have hstart : (World.start s).Agrees := World.agrees_fresh h 0
  have hop := (Request.keeps_handle_operating (P := ∅) r.request).of_ok hrun
    ⟨hstart.ownProxies, fun _ hp => hp.elim⟩
  rw [hcontent]
  exact (hstart.operated hop).keys

/-- In every store that requests lead to, the account tables agree. A request on such a store and
the rounds of an execution are made of operations on accounts, and after any number of operations
the tables agree still, every lookup returns, and a creation writes all three rows or throws that
there is a balance, having written none. -/
theorem agrees_of_reachable {s₀ s : Store} (h₀ : KeysAgree s₀.content) (hs : Reachable serve s₀ s) :
    KeysAgree s.content ∧ (∀ (r : Request) (pf : Platform) (fuel : Nat),
      Operated (World.start s) (stateAfter (r.handle pf fuel) (World.start s))) ∧
    (∀ (call : MessageCall) (tick : Nat) (pf : Platform) (m₀ m : Machine),
      EVMC.Enters call (World.fresh (Tables.start s) tick) m₀ →
        Reachable (next pf call.from_) m₀ m →
          Operated (World.fresh (Tables.start s) tick) m.world) ∧
    ∀ (tick : Nat) (w : World), Operated (World.fresh (Tables.start s) tick) w →
      w.Agrees ∧ (∀ a, ∃ p w', EthereumState.get a w = .ok p w') ∧ ∀ a balance code,
          (∃ p w', EthereumState.create a balance code w = .ok p w' ∧
            CreatesRows w w' a balance code) ∨
          ∃ w', EthereumState.create a balance code w = .error (.hasBalance a) w' ∧
            w'.tx.view = w.tx.view := by
  have hkeys : KeysAgree s.content :=
    hs.invariant (I := fun s => KeysAgree s.content) h₀ fun _ _ _ h _ => keysAgree_of_serve h
  refine ⟨hkeys, fun r pf fuel => ?_, fun call tick pf m₀ m henters hreach => ?_,
    fun tick w hop => ?_⟩
  · exact Request.keeps_handle_operating (P := ∅) r _
      ⟨World.ownProxies_start s, fun _ hp => hp.elim⟩
  · exact operated_of_enters (World.ownProxies_fresh _ _) henters hreach
  · have hw := (World.agrees_fresh hkeys tick).operated hop
    refine ⟨hw, fun a => ?_, fun a balance code => ?_⟩
    · obtain ⟨p, w', hrun, -⟩ := hw.get a
      exact ⟨p, w', hrun⟩
    · rcases hw.create a balance code with ⟨p, w', hrun, hrows, -⟩ | ⟨w', hrun, hview, -⟩
      · exact Or.inl ⟨p, w', hrun, hrows⟩
      · exact Or.inr ⟨w', hrun, hview⟩

private theorem keysAgree_empty : KeysAgree (balancesStore []).content := fun _ =>
  ⟨iff_of_false Bool.false_ne_true Bool.false_ne_true,
    iff_of_false Bool.false_ne_true Bool.false_ne_true⟩

/-- Account `9` has all its rows after its balance was asked for, and cannot be created again. -/
theorem agrees_after_query : ∃ s, Reachable serve (balancesStore []) s ∧ KeysAgree s.content ∧
    (s.content .balances 9).isSome ∧
      ∃ w', EthereumState.create 9 5 [0x00] (World.start s) = .error (.hasBalance 9) w' ∧
        w'.tx.view = s.content := by
  have hrun : Reachable serve (balancesStore []) _ :=
    .tail (a := balanceRequest 9) .refl trivial rfl
  obtain ⟨hkeys, -, -, hworlds⟩ := agrees_of_reachable keysAgree_empty hrun
  obtain ⟨-, -, hcreate⟩ := hworlds 0 _ .refl
  refine ⟨_, hrun, hkeys, by decide +kernel, ?_⟩
  rcases hcreate 9 5 [0x00] with ⟨p, w', -, hrows⟩ | ⟨w', hthrow, hview⟩
  · exact absurd (Or.inl (by decide +kernel)) hrows.not_existed
  · exact ⟨w', hthrow, hview⟩

end CloakBridge.Evm
