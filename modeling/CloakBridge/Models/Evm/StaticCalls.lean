import CloakBridge.Models.Evm.InnerCalls

/-!
# Static calls

The case of `STATICCALL` enters a static context and then falls through to the case
of `CALL`, which enters a second context for the same callee that is not static.
The second context runs first. So a static call that runs its callee at all runs it
twice, once with leave to write.
-/

namespace CloakBridge.Tee

open Kv EthereumState

variable {a : Address} {p other : AccountProxy} {w w' : World}

/-- The account was handed out in this transaction or has a balance. -/
def World.Knows (w : World) (a : Address) : Prop :=
  (w.cache a).isSome ∨ (w.tx.view .balances a).isSome

private theorem exists_get_of_knows (h : w.Knows a) : ∃ p w', EthereumState.get a w = .ok p w' := by
  have hcached : ∀ w : World, Exec.cached a w = .ok (w.cache a) w := fun _ => rfl
  rw [EthereumState.get, bind_of_ok (hcached w)]
  cases hcache : w.cache a with
  | some p => exact ⟨p, w, rfl⟩
  | none =>
    have hbalance : ¬(w.tx.view .balances a).isNone := by
      rcases h with h | h
      · simp [hcache] at h
      · rw [Option.isNone_iff_eq_none]
        exact Option.isSome_iff_ne_none.mp h
    dsimp only
    rw [bind_of_ok (Exec.get_run .balances a w), if_neg hbalance]
    exact exists_addToCache hcache

private theorem knows_of_get (h : EthereumState.get a w = .ok p w')
    (hcode : w'.visible.codes a ≠ []) :
    w.Knows a := by
  by_contra hknows
  obtain ⟨hcache, hbalance⟩ := not_or.mp hknows
  obtain ⟨cached, w₁, h₁, h⟩ := bind_eq_ok.mp h
  obtain ⟨rfl, rfl⟩ := modifyGet_eq_ok.mp h₁
  rw [Option.not_isSome_iff_eq_none.mp hcache] at h
  obtain ⟨row, w₂, h₂, h⟩ := bind_eq_ok.mp h
  obtain ⟨rfl, rfl⟩ := Exec.get_eq_ok.mp h₂
  rw [if_pos (by simpa using hbalance)] at h
  refine hcode ?_
  simp [World.visible, Visible.of, (view_of_create h).2.2.2,
    EthereumState.withAccount, Tables.setRow_of_ne]

private theorem exists_payTo_zero (p other : AccountProxy) (w : World) :
    ∃ w', p.payTo other 0 w = .ok () w' := by
  have hbalance : ∀ (q : AccountProxy) (w : World), q.getBalance w =
      .ok ((w.tx.view .balances q.address).getD 0)
        { w with tx := w.tx.noteRead .balances q.address } := fun _ _ => rfl
  have hthrow : ∀ {c : Prop} [Decidable c] {e : Error} (w : World), ¬c →
      Exec.throwIf c e w = .ok () w := fun w hc => Exec.throwIf_eq_ok.mpr ⟨hc, rfl⟩
  rw [AccountProxy.payTo, bind_of_ok (hbalance _ _), bind_of_ok (hthrow _ (by simp))]
  rw [bind_of_ok (hbalance _ _), bind_of_ok (hthrow _ (by simp))]
  exact ⟨_, rfl⟩

private theorem getCode_run (p : AccountProxy) (w : World) :
    p.getCode w = .ok (w.visible.codes p.address)
      { w with tx := w.tx.noteRead .codes p.address } := rfl

private theorem hasCode_run (p : AccountProxy) (w : World) :
    p.hasCode w = .ok (!(w.visible.codes p.address).isEmpty)
      { w with tx := w.tx.noteRead .codes p.address } := rfl

end CloakBridge.Tee

namespace CloakBridge.Evm

open Tee

/-- The number of contexts stays. -/
def sameDepth : Frame Machine := .observing fun m => m.ctxts.length

variable {α : Type}

namespace sameDepth

private theorem keeps_inWorld (x : Exec α) : sameDepth.Keeps (inWorld x) := by
  intro m
  rw [stateAfter_inWorld]
  rfl

private theorem keeps_atContext (i : Nat) (x : Local α) : sameDepth.Keeps (atContext i x) := by
  intro m
  unfold stateAfter atContext
  cases m.ctxts[i]? with
  | none => rfl
  | some c =>
    dsimp only
    cases x c.toRegs with
    | ok a r => exact List.length_set
    | error e r => exact List.length_set

private theorem keeps_onException (type : ExceptionType) (handler : Handler) :
    sameDepth.Keeps (handler.onException type) := by
  cases handler with
  | outer => exact fun _ => rfl
  | call _ _ _ | create _ => exact keeps_atContext _ _

end sameDepth

variable {pf : Platform} {origin : Address} {m m' : Machine} {op : Opcode} {e : Error} {r r' : Regs}
  {args : CallArguments} {c : Context} {u : Unit} {callee : AccountProxy} {input : ByteString}

/-- An operation that returned is followed by the step of the context it left. -/
theorem next_of_dispatch_ok (hop : m.opcode = some op) (h : dispatch pf origin m = .ok () m') :
    next pf origin m () = some { m' with ctxts := m'.ctxts.modifyHead Context.step } := by
  obtain ⟨c, hc, hbyte⟩ := Option.bind_eq_some_iff.mp hop
  obtain ⟨byte, hbyte, -⟩ := Option.bind_eq_some_iff.mp hbyte
  obtain ⟨hpc, -⟩ := List.getElem?_eq_some_iff.mp hbyte
  obtain ⟨rest, hctxts⟩ := List.head?_eq_some_iff.mp hc
  have hcycle : cycle pf origin m =
      .ok () { m' with ctxts := m'.ctxts.modifyHead Context.step } := by
    have htry : tryDispatch pf origin m = .ok () m' := tryCatch_of_ok h
    rw [cycle, bind_of_ok htry]
    rfl
  simp only [next, hctxts, if_pos hpc, hcycle]

private theorem length_next_of_dispatch_error {m₁ : Machine}
    (h : dispatch pf origin m = .error e m')
    (hnext : next pf origin m () = some m₁) : m₁.ctxts.length + 1 = m'.ctxts.length := by
  obtain ⟨⟨⟩, m₃, htry, hstep⟩ := bind_eq_ok.mp (cycle_of_next hnext)
  obtain ⟨-, rfl⟩ := modifyGet_eq_ok.mp hstep
  rw [tryDispatch, tryCatch_of_error h] at htry
  cases e with
  | evm type =>
    obtain ⟨c, m₄, hcurrent, hcatch⟩ := bind_eq_ok.mp htry
    obtain ⟨hc, rfl⟩ := current_eq_ok.mp hcurrent
    obtain ⟨⟨⟩, m₅, hhandle, hpop⟩ := bind_eq_ok.mp hcatch
    obtain ⟨-, rfl⟩ := modifyGet_eq_ok.mp hpop
    have hlength : m₅.ctxts.length = m₄.ctxts.length :=
      (sameDepth.keeps_onException type c.handler).of_ok hhandle
    obtain ⟨rest, hctxts⟩ := List.head?_eq_some_iff.mp hc
    rw [hctxts, List.length_cons] at hlength
    simp [hlength, hctxts]
  | _ => cases htry

/-- The operands of a static call name a contract that can be run from where the machine is. -/
structure CallArguments.RunsIn (args : CallArguments) (m : Machine) : Prop where
  address : ¬(1 ≤ args.addr ∧ args.addr ≤ 8)
  known : m.world.Knows args.addr
  code : m.world.visible.codes args.addr ≠ []
  output : args.offOut + args.sizeOut ≤ maxMemSize
  input : args.offIn + args.sizeIn ≤ maxMemSize
  depth : m.ctxts.length < 1023

/-- The machine has the operands of a static call that runs its callee. -/
def Machine.RunsCallee (m : Machine) : Prop :=
  ∃ c args r, m.ctxts.head? = some c ∧ callArguments .staticcall c.toRegs = .ok args r ∧
    args.RunsIn m

private theorem value_of_staticcall (h : callArguments .staticcall r = .ok args r') :
    args.value = 0 := by
  obtain ⟨_, r₁, -, h⟩ := bind_eq_ok.mp h
  obtain ⟨addr, r₂, -, h⟩ := bind_eq_ok.mp h
  obtain ⟨value, r₃, hvalue, h⟩ := bind_eq_ok.mp h
  obtain ⟨rfl, -⟩ := pure_eq_ok.mp hvalue
  obtain ⟨offIn, r₄, -, h⟩ := bind_eq_ok.mp h
  obtain ⟨sizeIn, r₅, -, h⟩ := bind_eq_ok.mp h
  obtain ⟨offOut, r₆, -, h⟩ := bind_eq_ok.mp h
  obtain ⟨sizeOut, r₇, -, h⟩ := bind_eq_ok.mp h
  obtain ⟨rfl, -⟩ := pure_eq_ok.mp h
  rfl

private theorem pushContext_eq_ok :
    pushContext c m = .ok u m' ↔ m.ctxts.length < 1024 ∧ m' = { m with ctxts := c :: m.ctxts } := by
  unfold pushContext
  rw [bind_of_ok (show (get : Run Machine) m = .ok m m from rfl)]
  by_cases h : 1024 ≤ m.ctxts.length
  · rw [if_pos h]
    exact ⟨fun hthrow => (nomatch hthrow), fun hm => absurd h (Nat.not_le.mpr hm.1)⟩
  · rw [if_neg h]
    constructor
    · rintro ⟨⟩
      exact ⟨Nat.not_le.mp h, rfl⟩
    · rintro ⟨-, rfl⟩
      rfl

private theorem prepareMemAccess_eq_ok {offset size : Nat} :
    prepareMemAccess offset size r = .ok u r' ↔
      offset + size ≤ maxMemSize ∧ r' = { r with mem := growTo (offset + size) r.mem } := by
  unfold prepareMemAccess
  by_cases h : maxMemSize < offset + size
  · rw [if_pos h]
    exact ⟨fun hthrow => (nomatch hthrow), fun hr => absurd h (Nat.not_lt.mpr hr.1)⟩
  · rw [if_neg h]
    constructor
    · rintro ⟨⟩
      exact ⟨Nat.not_lt.mp h, rfl⟩
    · rintro ⟨-, rfl⟩
      rfl

private theorem inWorld_of_ok {x : Exec α} {w w' : World} {a : α} (hx : x w = .ok a w')
    (logs : List LogEntry) (destroyed : List Address) (ctxts : List Context) (r : ExecResult) :
    inWorld x ⟨w, logs, destroyed, ctxts, r⟩ = .ok a ⟨w', logs, destroyed, ctxts, r⟩ :=
  inWorld_eq_ok.mpr ⟨w', hx, rfl⟩

private theorem atContext_zero_of_ok {x : Local α} {rest : List Context} {a : α}
    (hctxts : m.ctxts = c :: rest) (hx : x c.toRegs = .ok a r) :
    atContext 0 x m = .ok a { m with ctxts := { c with toRegs := r } :: rest } :=
  atContext_eq_ok.mpr ⟨c, r, by simp [hctxts], hx, by simp [hctxts]⟩

/-- The callee of a static call is entered twice. -/
theorem enterCall_static_eq_ok :
    enterCall .staticcall c callee input args m = .ok u m' → m.ctxts.length < 1023 ∧
      m'.ctxts.length = m.ctxts.length + 2 := by
  intro h
  obtain ⟨⟨⟩, m₁, hfirst, hsecond⟩ := bind_eq_ok.mp h
  obtain ⟨code, m₂, hcode, hpush⟩ := bind_eq_ok.mp hfirst
  obtain ⟨w, -, rfl⟩ := inWorld_eq_ok.mp hcode
  obtain ⟨-, rfl⟩ := pushContext_eq_ok.mp hpush
  obtain ⟨code', m₃, hcode', hpush'⟩ := bind_eq_ok.mp hsecond
  obtain ⟨w', -, rfl⟩ := inWorld_eq_ok.mp hcode'
  obtain ⟨hdepth, rfl⟩ := pushContext_eq_ok.mp hpush'
  exact ⟨Nat.lt_of_succ_lt_succ hdepth, rfl⟩

private theorem exists_enterCall_static (h : m.ctxts.length < 1023) :
    ∃ m', enterCall .staticcall c callee input args m = .ok () m' := by
  have henter : ∀ (m : Machine) (account : AccountProxy) (caller : Address) (callValue : Word)
      (parent : Nat) (inStaticMode : Bool), m.ctxts.length < 1024 → ∃ m', (do
        let code ← inWorld callee.getCode
        pushContext ⟨Regs.start, account, caller, input, callValue, code,
          .call args.offOut args.sizeOut parent, inStaticMode⟩) m = .ok () m' ∧
        m'.ctxts.length = m.ctxts.length + 1 := by
    intro m account caller callValue parent inStaticMode hm
    rw [bind_of_ok (inWorld_eq_ok.mpr ⟨_, getCode_run _ _, rfl⟩)]
    exact ⟨_, pushContext_eq_ok.mpr ⟨hm, rfl⟩, rfl⟩
  obtain ⟨m₁, h₁, hlength⟩ := henter m callee c.account.address args.value 0 true (by omega)
  obtain ⟨m₂, h₂, -⟩ := henter m₁ callee callee.address args.value 1 false (by omega)
  exact ⟨m₂, (bind_of_ok h₁).trans h₂⟩

private theorem length_of_enterCall_error
    (h : enterCall .staticcall c callee input args m = .error e m') :
    m'.ctxts.length ≤ m.ctxts.length + 1 := by
  have herror : ∀ {m m' : Machine} {c : Context}, pushContext c m = .error e m' → m' = m := by
    intro m m' c h
    unfold pushContext at h
    rw [bind_of_ok (show (get : Run Machine) m = .ok m m from rfl)] at h
    split at h
    · cases h
      rfl
    · cases h
  have hcode : ∀ {m m' : Machine}, inWorld callee.getCode m = .error e m' → False := by
    rintro m m' ⟨⟩
  rcases bind_eq_error.mp h with hfirst | ⟨_, m₁, hfirst, hsecond⟩
  · rcases bind_eq_error.mp hfirst with h₁ | ⟨code, m₁, h₁, hpush⟩
    · exact (hcode h₁).elim
    · obtain ⟨w, -, rfl⟩ := inWorld_eq_ok.mp h₁
      rw [herror hpush]
      exact Nat.le_succ _
  · obtain ⟨code, m₂, h₁, hpush⟩ := bind_eq_ok.mp hfirst
    obtain ⟨w, -, rfl⟩ := inWorld_eq_ok.mp h₁
    obtain ⟨-, rfl⟩ := pushContext_eq_ok.mp hpush
    rcases bind_eq_error.mp hsecond with h₂ | ⟨code', m₃, h₂, hpush'⟩
    · exact (hcode h₂).elim
    · obtain ⟨w', -, rfl⟩ := inWorld_eq_ok.mp h₂
      rw [herror hpush']
      exact le_rfl

/-- A static call with the operands of one runs its callee, twice. -/
theorem exists_call_of_runsCallee (hw : m.world.OwnProxies) (h : m.RunsCallee) :
    ∃ m', call .staticcall m = .ok () m' ∧ m'.ctxts.length = m.ctxts.length + 2 := by
  obtain ⟨c, args, r, hc, hargs, hruns⟩ := h
  obtain ⟨rest, hctxts⟩ := List.head?_eq_some_iff.mp hc
  obtain ⟨callee, w, hget⟩ := exists_get_of_knows hruns.known
  obtain ⟨w₁, hpay⟩ := exists_payTo_zero c.account callee w
  have hvisible : w₁.visible = m.world.visible :=
    ((unseen.keeps_payTo_zero _ _).of_ok hpay).trans ((unseen.lookups.get _).of_ok hget)
  have hcode : (!(w₁.visible.codes callee.address).isEmpty) = true := by
    rw [hvisible, EthereumState.address_of_get hw hget]
    simpa using hruns.code
  rw [call, bind_of_ok (current_eq_ok.mpr ⟨hc, rfl⟩),
    bind_of_ok (atContext_zero_of_ok hctxts hargs),
    if_neg hruns.address, value_of_staticcall hargs]
  rw [bind_of_ok (inWorld_of_ok hget _ _ _ _), bind_of_ok (inWorld_of_ok hpay _ _ _ _),
    bind_of_ok (inWorld_of_ok (hasCode_run _ _) _ _ _ _), if_pos hcode]
  have houtput : prepareMemAccess args.offOut args.sizeOut r =
      .ok () { r with mem := growTo (args.offOut + args.sizeOut) r.mem } :=
    prepareMemAccess_eq_ok.mpr ⟨hruns.output, rfl⟩
  obtain ⟨input, r', hinput⟩ : ∃ input r', copyFromMem args.offIn args.sizeIn
      { r with mem := growTo (args.offOut + args.sizeOut) r.mem } = .ok input r' := by
    rw [copyFromMem, bind_of_ok (prepareMemAccess_eq_ok (u := ()).mpr ⟨hruns.input, rfl⟩)]
    exact ⟨_, _, rfl⟩
  have henter : ∀ m₁ : Machine, m₁.ctxts.length = m.ctxts.length → ∃ m', enterCall .staticcall c
      callee input args m₁ = .ok () m' ∧ m'.ctxts.length = m.ctxts.length + 2 := by
    intro m₁ hlength
    have hdepth := hruns.depth
    rw [← hlength] at hdepth ⊢
    obtain ⟨m', henter⟩ := exists_enterCall_static hdepth
    exact ⟨m', henter, (enterCall_static_eq_ok henter).2⟩
  rw [bind_of_ok (atContext_zero_of_ok rfl houtput), bind_of_ok (atContext_zero_of_ok rfl hinput)]
  exact henter _ (by simp [hctxts])

private theorem length_of_call_ok (hw : m.world.OwnProxies) (hruns : ¬m.RunsCallee)
    (hcall : call .staticcall m = .ok () m') : m'.ctxts.length = m.ctxts.length := by
  obtain ⟨c, m₁, hcurrent, h⟩ := bind_eq_ok.mp hcall
  obtain ⟨hc, rfl⟩ := current_eq_ok.mp hcurrent
  obtain ⟨args, m₂, hargs, h⟩ := bind_eq_ok.mp h
  have hlength₂ := (sameDepth.keeps_atContext _ _).of_ok hargs
  obtain ⟨c', r, hc', hregs, rfl⟩ := atContext_eq_ok.mp hargs
  obtain rfl : c' = c := by
    rw [← List.head?_eq_getElem?, hc] at hc'
    exact (Option.some.inj hc').symm
  split at h
  · cases h
  next haddress =>
    obtain ⟨callee, m₃, hcallee, h⟩ := bind_eq_ok.mp h
    obtain ⟨w, hget, rfl⟩ := inWorld_eq_ok.mp hcallee
    obtain ⟨⟨⟩, m₄, hpaid, h⟩ := bind_eq_ok.mp h
    obtain ⟨w₁, hpay, rfl⟩ := inWorld_eq_ok.mp hpaid
    obtain ⟨hasCode, m₅, hread, h⟩ := bind_eq_ok.mp h
    obtain ⟨w₂, hhas, rfl⟩ := inWorld_eq_ok.mp hread
    rw [hasCode_run] at hhas
    cases hhas
    rw [value_of_staticcall hregs] at hpay
    have hvisible : w₁.visible = w.visible := (unseen.keeps_payTo_zero _ _).of_ok hpay
    have hvisible' : w.visible = m₁.world.visible := (unseen.lookups.get _).of_ok hget
    split at h
    next hcode =>
      exfalso
      obtain ⟨⟨⟩, m₆, hprepare, h⟩ := bind_eq_ok.mp h
      have hlength₆ := (sameDepth.keeps_atContext _ _).of_ok hprepare
      obtain ⟨c₁, r₁, -, houtput, -⟩ := atContext_eq_ok.mp hprepare
      obtain ⟨input, m₇, hcopy, h⟩ := bind_eq_ok.mp h
      have hlength₇ := (sameDepth.keeps_atContext _ _).of_ok hcopy
      obtain ⟨c₂, r₂, -, hcopied, -⟩ := atContext_eq_ok.mp hcopy
      obtain ⟨⟨⟩, r₃, hinput, -⟩ := bind_eq_ok.mp hcopied
      rw [hvisible, EthereumState.address_of_get hw hget] at hcode
      have hnonempty : w.visible.codes args.addr ≠ [] := by simpa using hcode
      refine hruns ⟨c', args, r, hc, hregs, haddress, knows_of_get hget hnonempty, ?_,
        (prepareMemAccess_eq_ok.mp houtput).1, (prepareMemAccess_eq_ok.mp hinput).1, ?_⟩
      · rw [← hvisible']
        exact hnonempty
      · have hdepth := (enterCall_static_eq_ok h).1
        have hsame : m₇.ctxts.length = m₁.ctxts.length := hlength₇.trans (hlength₆.trans hlength₂)
        rwa [hsame] at hdepth
    next =>
      exact ((sameDepth.keeps_atContext _ _).of_ok h).trans hlength₂

private theorem length_of_call_error (hcall : call .staticcall m = .error e m') :
    m'.ctxts.length ≤ m.ctxts.length + 1 := by
  have hkeeps : ∀ {α : Type} {x : Run α} {m₁ m₂ : Machine}, sameDepth.Keeps x →
      m₁.ctxts.length = m.ctxts.length → x m₁ = .error e m₂ →
        m₂.ctxts.length ≤ m.ctxts.length + 1 := by
    intro α x m₁ m₂ hx hm₁ hrun
    have hm₂ : m₂.ctxts.length = m₁.ctxts.length := hx.of_error hrun
    omega
  rcases bind_eq_error.mp hcall with h | ⟨c, m₁, hcurrent, h⟩
  · exact hkeeps keeps_current rfl h
  obtain ⟨-, rfl⟩ := current_eq_ok.mp hcurrent
  rcases bind_eq_error.mp h with h | ⟨args, m₂, hargs, h⟩
  · exact hkeeps (sameDepth.keeps_atContext _ _) rfl h
  have hm₂ : m₂.ctxts.length = m₁.ctxts.length := (sameDepth.keeps_atContext _ _).of_ok hargs
  split at h
  · cases h
    omega
  rcases bind_eq_error.mp h with h | ⟨callee, m₃, hcallee, h⟩
  · exact hkeeps (sameDepth.keeps_inWorld _) hm₂ h
  have hm₃ : m₃.ctxts.length = m₂.ctxts.length := (sameDepth.keeps_inWorld _).of_ok hcallee
  rcases bind_eq_error.mp h with h | ⟨⟨⟩, m₄, hpay, h⟩
  · exact hkeeps (sameDepth.keeps_inWorld _) (hm₃.trans hm₂) h
  have hm₄ : m₄.ctxts.length = m₃.ctxts.length := (sameDepth.keeps_inWorld _).of_ok hpay
  rcases bind_eq_error.mp h with h | ⟨hasCode, m₅, hhas, h⟩
  · exact hkeeps (sameDepth.keeps_inWorld _) (by omega) h
  have hm₅ : m₅.ctxts.length = m₄.ctxts.length := (sameDepth.keeps_inWorld _).of_ok hhas
  split at h
  · rcases bind_eq_error.mp h with h | ⟨⟨⟩, m₆, houtput, h⟩
    · exact hkeeps (sameDepth.keeps_atContext _ _) (by omega) h
    have hm₆ : m₆.ctxts.length = m₅.ctxts.length := (sameDepth.keeps_atContext _ _).of_ok houtput
    rcases bind_eq_error.mp h with h | ⟨input, m₇, hinput, h⟩
    · exact hkeeps (sameDepth.keeps_atContext _ _) (by omega) h
    have hm₇ : m₇.ctxts.length = m₆.ctxts.length := (sameDepth.keeps_atContext _ _).of_ok hinput
    have hm' := length_of_enterCall_error h
    omega
  · exact hkeeps (sameDepth.keeps_atContext _ _) (by omega) h

/-- The static call that `m` is about to make runs its callee once, if it runs it at all, and
nothing that is seen changes until control is back. -/
def StaticCallSafe (pf : Platform) (origin : Address) (m : Machine) : Prop :=
  ∀ m₁, next pf origin m () = some m₁ →
    (m.RunsCallee → m₁.ctxts.length = m.ctxts.length + 1) ∧
      ∀ m', Reachable (inside pf origin m.ctxts.length) m₁ m' → m'.visible = m.visible

private theorem dispatch_eq (hop : m.opcode = some op) :
    dispatch pf origin m = op.exec pf origin m := by
  rw [dispatch, bind_of_ok (show (get : Run Machine) m = .ok m m from rfl), hop]

/-- A static call is safe only if it does not run its callee. -/
theorem staticCallSafe_iff (pf : Platform) (origin : Address) (m : Machine)
    (hop : m.opcode = some (.call .staticcall)) (hw : m.world.OwnProxies) :
    StaticCallSafe pf origin m ↔ ¬m.RunsCallee := by
  have hdispatch : dispatch pf origin m = call .staticcall m := dispatch_eq hop
  constructor
  · intro hsafe hruns
    obtain ⟨m', hcall, hlength⟩ := exists_call_of_runsCallee hw hruns
    have honce := (hsafe _ (next_of_dispatch_ok hop (hdispatch.trans hcall))).1 hruns
    rw [List.length_modifyHead] at honce
    omega
  · intro hruns m₁ hnext
    refine ⟨fun h => absurd h hruns, fun m' hinside => ?_⟩
    have hquiet : m.Quiet := by
      intro c op _ hop'
      cases hop.symm.trans hop'
      exact fun args r hargs => .inl (value_of_staticcall hargs)
    have hreturned : m₁.ctxts.length ≤ m.ctxts.length := by
      cases hcall : call .staticcall m with
      | ok u m₂ =>
        rw [next_of_dispatch_ok hop (hdispatch.trans hcall)] at hnext
        cases hnext
        rw [List.length_modifyHead, length_of_call_ok hw hruns hcall]
      | error e m₂ =>
        have hpopped := length_next_of_dispatch_error (hdispatch.trans hcall) hnext
        have hlength := length_of_call_error hcall
        omega
    have hsame : m' = m₁ := by
      refine hinside.invariant (I := (· = m₁)) rfl fun m₂ _ m₃ hm₂ _ hstep => ?_
      rw [hm₂, inside, if_neg (Nat.not_lt.mpr hreturned)] at hstep
      cases hstep
    rw [hsame]
    exact visible_of_next hquiet hnext

/-- The code that makes a static call to `0x11` and stops. -/
def staticCallingCode : ByteString :=
  [0x60, 0, 0x60, 0, 0x60, 0, 0x60, 0, 0x60, 0x11, 0x60, 0, 0xfa, 0x00]

/-- The machine that runs this code, with the operands on its stack, when the callee has the given
code. -/
def atStaticCall (code : ByteString) : Machine :=
  { callingMachine staticCallingCode code with ctxts := [
      { toRegs := ⟨12, false, [], [0, 0x11, 0, 0, 0, 0], []⟩
        account := ⟨0x10, none, .basic⟩, caller := 7, input := [], callValue := 0
        code := staticCallingCode, handler := .outer, inStaticMode := false }] }

private theorem reachable_atStaticCall (code : ByteString) :
    Reachable (next .mute 7) (callingMachine staticCallingCode code) (atStaticCall code) :=
  reaches_of_performAll .refl (show performAll _ _ _ (List.replicate 6 ()) = _ from rfl)

/-- A static call to an account without code. -/
theorem staticCallSafe_no_code : StaticCallSafe .mute 7 (atStaticCall []) := by
  refine (staticCallSafe_iff _ _ _ rfl (World.ownProxies_start _)).mpr ?_
  rintro ⟨c, args, r, ⟨⟩, ⟨⟩, hruns⟩
  exact hruns.code (by decide +kernel)

set_option maxRecDepth 20000 in
/-- The callee of a static call stores `5` in its slot `1`, and the slot keeps the value. -/
theorem staticCall_stores : ∃ m, Reachable (next .mute 7)
        (callingMachine staticCallingCode [0x60, 5, 0x60, 1, 0x55, 0x00]) m ∧
      m.opcode = some (.call .staticcall) ∧ ¬StaticCallSafe .mute 7 m := by
  refine ⟨_, reachable_atStaticCall _, rfl, fun hsafe => ?_⟩
  have hsame := (hsafe _ rfl).2 _
    (reaches_of_performAll .refl (show performAll _ _ _ (List.replicate 7 ()) = some _ from rfl))
  have hslot := congrArg (fun v => v.1.storage (0x11, 1)) hsame
  revert hslot
  decide +kernel

end CloakBridge.Evm
