import CloakBridge.Models.Evm.WorldFrames

/-!
# Failed inner calls

The interpreter writes through to the change sets of the transaction. A context that ends
with an exception is popped, but what it wrote before stays. A failed inner call therefore
has no effect if its steps wrote nothing in the first place. A payment that its payer
cannot cover moves nothing, but an endowment is credited before it is paid.
-/

namespace CloakBridge.Tee

open Kv Tables CloakBridge.Frame

/-- What contracts see of the tables, where an account without rows is one that has nothing. -/
@[ext] structure Visible where
  storage : StorageKey → Option ByteString
  pendingStates : StorageKey → Option Unit
  balances : Address → Word
  codes : Address → ByteString
  nonces : Address → Nonce

/-- What is seen of given contents. -/
def Visible.of (c : Contents) : Visible where
  storage := c .storage
  pendingStates := c .pendingStates
  balances a := (c .balances a).getD 0
  codes a := (c .codes a).getD []
  nonces a := (c .nonces a).getD 0

namespace Visible

private theorem of_setRow_pendingStorage (c : Contents) (k : StorageKey) (v : Option ByteString) :
    of (c.setRow .pendingStorage k v) = of c := by
  ext <;> simp [of, setRow_of_ne]

private theorem of_setRow_balances (c : Contents) (a : Address) :
    of (c.setRow .balances a (some ((c .balances a).getD 0))) = of c := by
  ext a' : 2
  case balances =>
    by_cases h : a' = a
    · subst h
      simp [of]
    · simp [of, h]
  all_goals simp [of, setRow_of_ne]

private theorem of_setRow_codes (c : Contents) (a : Address) :
    of (c.setRow .codes a (some ((c .codes a).getD []))) = of c := by
  ext a' : 2
  case codes =>
    by_cases h : a' = a
    · subst h
      simp [of]
    · simp [of, h]
  all_goals simp [of, setRow_of_ne]

private theorem of_setRow_nonces (c : Contents) (a : Address) :
    of (c.setRow .nonces a (some ((c .nonces a).getD 0))) = of c := by
  ext a' : 2
  case nonces =>
    by_cases h : a' = a
    · subst h
      simp [of]
    · simp [of, h]
  all_goals simp [of, setRow_of_ne]

end Visible

/-- What is seen of a world. -/
def World.visible (w : World) : Visible := Visible.of w.tx.view

/-- Nothing that is seen changes. -/
def unseen : Frame World := .observing World.visible

namespace unseen

variable {w : World}

private theorem reads : unseen.Reads where
  get t k w := congrArg Visible.of (view_noteRead w.tx t k)
  ask _ _ := rfl

private theorem caches : unseen.Caches := fun _ _ _ => rfl

private theorem puts_pendingStorage : unseen.Puts .pendingStorage := by
  intro k v w
  change Visible.of (w.tx.put .pendingStorage k v).view = Visible.of w.tx.view
  rw [view_put, Visible.of_setRow_pendingStorage]

private theorem rel_put_balances {a : Address} {b : Word}
    (hb : b = (w.tx.view .balances a).getD 0) :
    unseen.rel w { w with tx := w.tx.put .balances a b } := by
  subst hb
  change Visible.of (w.tx.put .balances a _).view = Visible.of w.tx.view
  rw [view_put, Visible.of_setRow_balances]

private theorem fills_balances : unseen.Fills .balances 0 := fun a w hnone =>
  rel_put_balances (by rw [hnone]; rfl)

private theorem fills_codes : unseen.Fills .codes [] := by
  intro a w hnone
  have hrow := Visible.of_setRow_codes w.tx.view a
  rw [hnone] at hrow
  exact (congrArg Visible.of (view_put w.tx .codes a [])).trans hrow

private theorem fills_nonces : unseen.Fills .nonces 0 := by
  intro a w hnone
  have hrow := Visible.of_setRow_nonces w.tx.view a
  rw [hnone] at hrow
  exact (congrArg Visible.of (view_put w.tx .nonces a 0)).trans hrow

/-- A lookup is not seen. -/
theorem lookups : unseen.Lookups :=
  lookups_of_fills reads caches.own fills_balances fills_codes fills_nonces
    puts_pendingStorage

/-- A payment of nothing writes the balances that are there. -/
theorem keeps_payTo_zero (p other : AccountProxy) : unseen.Keeps (p.payTo other 0) := by
  intro w
  refine rel_bind (p.keeps_getBalance reads w) fun b w₁ hb => ?_
  obtain ⟨row, w₂, hrow, hb⟩ := bind_eq_ok.mp hb
  obtain ⟨rfl, rfl⟩ := Exec.get_eq_ok.mp hrow
  obtain ⟨rfl, rfl⟩ := pure_eq_ok.mp hb
  refine rel_bind (keeps_throwIf _ _ _) fun _ w₂ hthrow => ?_
  obtain ⟨-, rfl⟩ := Exec.throwIf_eq_ok.mp hthrow
  refine rel_bind (other.keeps_getBalance reads _) fun b w₃ hb => ?_
  obtain ⟨row, w₄, hrow, hb⟩ := bind_eq_ok.mp hb
  obtain ⟨rfl, rfl⟩ := Exec.get_eq_ok.mp hrow
  obtain ⟨rfl, rfl⟩ := pure_eq_ok.mp hb
  refine rel_bind (keeps_throwIf _ _ _) fun _ w₅ hthrow => ?_
  obtain ⟨-, rfl⟩ := Exec.throwIf_eq_ok.mp hthrow
  refine rel_bind (rel_put_balances (by simp)) fun _ w₆ hput => ?_
  obtain rfl := Exec.put_eq_ok.mp hput
  refine rel_put_balances ?_
  by_cases h : other.address = p.address
  · simp [h]
  · simp [h]

/-- A payment that is not covered is refused. -/
theorem rel_payTo_of_lt {p other : AccountProxy} {amount : Word}
    (h : w.visible.balances p.address < amount) :
    unseen.rel w (stateAfter (p.payTo other amount) w) := by
  refine rel_bind (p.keeps_getBalance reads w) fun b w₁ hb => ?_
  obtain ⟨row, w₂, hrow, hb⟩ := bind_eq_ok.mp hb
  obtain ⟨rfl, rfl⟩ := Exec.get_eq_ok.mp hrow
  obtain ⟨rfl, rfl⟩ := pure_eq_ok.mp hb
  refine rel_bind (keeps_throwIf _ _ _) fun _ w₂ hthrow => ?_
  exact absurd h (Exec.throwIf_eq_ok.mp hthrow).1

end unseen

end CloakBridge.Tee

namespace CloakBridge.Evm

open Tee

/-- What is seen of a machine: the tables and the logs. -/
def Machine.visible (m : Machine) : Visible × List LogEntry := (m.world.visible, m.logs)

/-- Neither the tables nor the logs change. -/
def traceless : Frame Machine := .observing Machine.visible

variable {c : Context} {op : Opcode} {m m' : Machine} {pf : Platform} {origin : Address}

private theorem interprets_traceless : Interprets traceless unseen where
  reads := unseen.reads
  lookups := unseen.lookups
  world _ _ hw := Prod.ext hw rfl
  regs _ _ _ _ _ := rfl
  leave _ := rfl
  enter _ _ _ _ _ _ := rfl
  result _ _ := rfl

/-- In the given context the operation writes nothing that is seen. -/
def Opcode.Quiet (balances : Address → Word) (c : Context) : Opcode → Prop
  | .sstore | .log _ | .selfdestruct => c.inStaticMode = true
  | .return_ => ∀ account, c.handler ≠ .create account
  | .create _ => ∀ value initCode r, createArguments c.toRegs = .ok (value, initCode) r → value = 0
  | .call kind => ∀ args r, callArguments kind c.toRegs = .ok args r →
      args.value = 0 ∨ balances c.account.address < args.value
  | _ => True

private theorem Opcode.quiet_of_reading {balances : Address → Word} (h : op.Reading) :
    op.Quiet balances c := by
  cases op <;> trivial

/-- The machine is about to write nothing that is seen. -/
def Machine.Quiet (m : Machine) : Prop :=
  ∀ c op, m.ctxts.head? = some c → m.opcode = some op → op.Quiet m.world.visible.balances c

private theorem Machine.exists_head_of_opcode (h : m.opcode = some op) :
    ∃ c, m.ctxts.head? = some c := by
  obtain ⟨c, hc, -⟩ := Option.bind_eq_some_iff.mp h
  exact ⟨c, hc⟩

private theorem stateAfter_refuseStatic {α : Type} {rest : Unit → Run α}
    (hc : m.ctxts.head? = some c)
    (hstatic : c.inStaticMode = true) : stateAfter (refuseStatic >>= rest) m = m := by
  refine stateAfter_bind_of_error (e := .evm .staticModeViolation) ?_
  rw [refuseStatic, bind_of_ok (current_eq_ok.mpr ⟨hc, rfl⟩), if_pos hstatic]
  rfl

private theorem keeps_enterCreation_zero (c : Context) (newAddress : Address)
    (initCode : ByteString) :
    traceless.Keeps (enterCreation c newAddress 0 initCode) := by
  have h := interprets_traceless.toSteps
  refine Frame.keeps_bind (keeps_inWorld h ?_) fun newAcc => ?_
  · exact EthereumState.keeps_create unseen.reads unseen.caches.own (unseen.fills_balances
      newAddress) (unseen.fills_codes newAddress) (unseen.fills_nonces newAddress)
  refine Frame.keeps_bind (keeps_inWorld h (unseen.keeps_payTo_zero _ _)) fun _ => ?_
  exact keeps_pushContext fun _ => rfl

private theorem rel_exec_of_quiet (hc : m.ctxts.head? = some c)
    (hquiet : op.Quiet m.world.visible.balances c) :
    traceless.rel m (stateAfter (op.exec pf origin) m) := by
  have h := interprets_traceless
  have hstatic : ∀ {rest : Unit → Run Unit}, c.inStaticMode = true →
      traceless.rel m (stateAfter (refuseStatic >>= rest) m) := by
    intro rest hstatic
    rw [stateAfter_refuseStatic hc hstatic]
    exact traceless.refl m
  have hreading : op.Reading → traceless.rel m (stateAfter (op.exec pf origin) m) :=
    fun hop => keeps_exec_of_reading h hop m
  cases op with
  | sstore | log _ | selfdestruct => exact hstatic hquiet
  | return_ =>
    refine rel_return_ h.toSteps fun c' account output hc' hcreate => ?_
    cases hc.symm.trans hc'
    exact absurd hcreate (hquiet account)
  | create salted =>
    refine rel_create h.toSteps fun c' value initCode r newAddress _ hc' _ hargs _ => ?_
    cases hc.symm.trans hc'
    rw [hquiet value initCode r hargs]
    exact keeps_enterCreation_zero c newAddress initCode
  | call kind =>
    refine rel_call_of_pays h fun c' args r callee w hc' hargs hget => ?_
    cases hc.symm.trans hc'
    rcases hquiet args r hargs with hzero | huncovered
    · rw [hzero]
      exact unseen.keeps_payTo_zero _ _ w
    · have hsame : w.visible = m.world.visible := (unseen.lookups.get args.addr).of_ok hget
      rw [← hsame] at huncovered
      exact unseen.rel_payTo_of_lt huncovered
  | _ => exact hreading trivial

/-- A quiet step leaves what is seen. -/
theorem visible_of_next (hquiet : m.Quiet) (hnext : next pf origin m () = some m') :
    m'.visible = m.visible := by
  refine rel_next interprets_traceless.toSteps hnext fun op hop => ?_
  obtain ⟨c, hc⟩ := Machine.exists_head_of_opcode hop
  exact rel_exec_of_quiet hc (hquiet c op hc hop)

/-- The steps of the contexts above a depth. -/
def inside (pf : Platform) (origin : Address) (depth : Nat) (m : Machine) (a : Unit) :
    Option Machine :=
  if depth < m.ctxts.length then next pf origin m a else none

/-- A run of quiet steps inside inner contexts leaves what is seen. -/
theorem visible_of_inside {depth : Nat}
    (h : Reaches (inside pf origin depth) (fun m _ => m.Quiet) m m') : m'.visible = m.visible := by
  refine h.invariant (I := fun m' => m'.visible = m.visible) rfl fun m₁ _ m₂ hm₁ hquiet hstep => ?_
  obtain ⟨-, hnext⟩ := Option.ite_none_right_eq_some.mp hstep
  rw [visible_of_next hquiet hnext, hm₁]

/-- The operations that enter one inner context. -/
def Opcode.EntersOne : Opcode → Prop
  | .create _ | .call .call | .call .callcode | .call .delegatecall => True
  | _ => False

/-- The inner call that `m` is about to make ends with an exception, and `m'` is where its caller
goes on. Every step from the call to the exception meets `ok`. -/
def FailedInnerCall (pf : Platform) (origin : Address) (ok : Machine → Prop) (m m' : Machine) :
    Prop :=
  (∃ op, m.opcode = some op ∧ op.EntersOne) ∧ ok m ∧
    ∃ m₁, next pf origin m () = some m₁ ∧ m₁.ctxts.length = m.ctxts.length + 1 ∧
      ∃ m₂, Reaches (inside pf origin m.ctxts.length) (fun m _ => ok m) m₁ m₂ ∧ ok m₂ ∧
        m₂.ctxts.length = m.ctxts.length + 1 ∧
          (∃ type m₃, dispatch pf origin m₂ = .error (.evm type) m₃) ∧
            next pf origin m₂ () = some m' ∧ m'.ctxts.length = m.ctxts.length

/-- A failed inner call whose steps were all quiet had no effect. -/
theorem visible_of_failedInnerCall (pf : Platform) (origin : Address) (m m' : Machine)
    (h : FailedInnerCall pf origin Machine.Quiet m m') : m'.visible = m.visible := by
  obtain ⟨-, hquiet, m₁, henter, -, m₂, hinside, hquiet₂, -, -, hlast, -⟩ := h
  rw [visible_of_next hquiet₂ hlast, visible_of_inside hinside, visible_of_next hquiet henter]

/-- The tables with the code of some contracts. -/
def contractsStore (codes : List (Address × ByteString)) : Store
  | .balances => .ofRows 1 (codes.map fun row => (row.1, 0))
  | .codes => .ofRows 1 codes
  | _ => .ofRows 0 []

/-- The code that calls `0x11` without value and stops. -/
def callingCode : ByteString :=
  [0x60, 0, 0x60, 0, 0x60, 0, 0x60, 0, 0x60, 0, 0x60, 0x11, 0x60, 0, 0xf1, 0x00]

/-- A transaction of account `7` to the contract `0x10`, given its code and that of `0x11`. -/
def callingMachine (caller code : ByteString) : Machine :=
  .start 7 ⟨0x10, none, .basic⟩ [] caller 0
    (World.start (contractsStore [(0x10, caller), (0x11, code)]))

/-- The calling machine with the operands on its stack. -/
def atCall (code : ByteString) : Machine :=
  { callingMachine callingCode code with ctxts := [
      { toRegs := ⟨14, false, [], [0, 0x11, 0, 0, 0, 0, 0], []⟩
        account := ⟨0x10, none, .basic⟩, caller := 7, input := [], callValue := 0
        code := callingCode, handler := .outer, inStaticMode := false }] }

private theorem reachable_atCall (code : ByteString) :
    Reachable (next .mute 7) (callingMachine callingCode code) (atCall code) :=
  reaches_of_performAll .refl (show performAll _ _ _ (List.replicate 7 ()) = _ from rfl)

/-- The code that loads its slot `1` and then pays `1` to `0x10`. -/
def payingCode : ByteString :=
  [0x60, 1, 0x54, 0x50, 0x60, 0, 0x60, 0, 0x60, 0, 0x60, 0, 0x60, 1, 0x60, 0x10, 0x60, 0, 0xf1]

set_option maxRecDepth 20000 in
/-- The callee looks at a slot and then fails with a payment it cannot cover. -/
theorem visible_of_failedInnerCall_uncovered :
    ∃ m', Reachable (next .mute 7) (callingMachine callingCode payingCode) (atCall payingCode) ∧
      FailedInnerCall .mute 7 Machine.Quiet (atCall payingCode) m' ∧
        m'.visible = (atCall payingCode).visible := by
  have hfailed : ∃ m', FailedInnerCall .mute 7 Machine.Quiet (atCall payingCode) m' := by
    refine ⟨_, ⟨.call .call, rfl, trivial⟩, ?_, _, rfl, rfl, _, Reaches.mono
        (reaches_of_performAll .refl (show performAll _ (fun m _ => ∀ op ∈ m.opcode, op.Reading) _
          (List.replicate 10 ()) = some _ from rfl)) ?_,
        ?_, rfl, ⟨_, _, rfl⟩, Option.eq_some_of_isSome (by decide +kernel), by decide +kernel⟩
    · rintro c op ⟨⟩ ⟨⟩ args r ⟨⟩
      exact .inl rfl
    · exact fun m _ hreads c op _ hop => Opcode.quiet_of_reading (hreads op hop)
    · rintro c op ⟨⟩ ⟨⟩ args r ⟨⟩
      exact .inr (by decide +kernel)
  obtain ⟨m', hfailed⟩ := hfailed
  exact ⟨m', reachable_atCall _, hfailed, visible_of_failedInnerCall _ _ _ _ hfailed⟩

set_option maxRecDepth 20000 in
/-- The callee stores `5` in its slot `1` and then reverts; the slot keeps the value. -/
theorem failedInnerCall_keeps_store : ∃ m m', Reachable (next .mute 7)
        (callingMachine callingCode [0x60, 5, 0x60, 1, 0x55, 0x60, 0, 0x60, 0, 0xfd]) m ∧
      FailedInnerCall .mute 7 (fun _ => True) m m' ∧ m'.visible ≠ m.visible := by
  refine ⟨_, _, reachable_atCall _, ⟨⟨.call .call, rfl, trivial⟩, trivial, _, rfl, rfl, _,
      reaches_of_performAll .refl (show performAll _ _ _ (List.replicate 5 ()) = some _ from rfl),
      trivial, rfl, ⟨_, _, rfl⟩, rfl, rfl⟩, fun hsame => ?_⟩
  have hslot := congrArg (fun v => v.1.storage (0x11, 1)) hsame
  revert hslot
  decide +kernel

end CloakBridge.Evm
