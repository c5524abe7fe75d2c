import CloakBridge.Models.Evm.RegisterFrames
import CloakBridge.Models.Evm.InnerCalls

/-!
# Control flow of the interpreter

The bytes of a code are read as instructions from its start on: the immediate bytes
of a push belong to the push. A run stays on the graph these instructions span. Every
context it enters gets only to positions that fall-through and jumps to a `JUMPDEST`
instruction lead to, so that no byte of push data is ever executed.
-/

namespace CloakBridge.Evm

open Tee List

/-- The number of immediate bytes behind an operation. -/
def immediates (op : UInt8) : Nat := if 0x60 ≤ op ∧ op ≤ 0x7f then op.toNat - 0x5f else 0

/-- The positions at which the instructions of a code start. -/
inductive Boundary (code : ByteString) : Nat → Prop
  | zero : Boundary code 0
  | next {i : Nat} {op : UInt8} (hi : Boundary code i) (hop : code[i]? = some op) :
    Boundary code (i + 1 + immediates op)

/-- The positions that control can get to: past an instruction that is no `JUMP`, and from a `JUMP`
or `JUMPI` to any `JUMPDEST` instruction. -/
inductive Flows (code : ByteString) : Nat → Prop
  | zero : Flows code 0
  | next {i : Nat} {op : UInt8} (hi : Flows code i) (hop : code[i]? = some op)
    (hjump : op ≠ 0x56) : Flows code (i + 1 + immediates op)
  | jump {i j : Nat} {op : UInt8} (hi : Flows code i) (hop : code[i]? = some op)
    (hjump : op = 0x56 ∨ op = 0x57) (hj : Boundary code j) (hdest : code[j]? = some 0x5b) :
    Flows code j

variable {code : ByteString} {i j : Nat} {r r' : Regs}

private theorem Flows.boundary (h : Flows code i) : Boundary code i := by
  induction h with
  | zero => exact .zero
  | next _ hop _ ih => exact ih.next hop
  | jump _ _ _ hj _ => exact hj

private theorem Boundary.end_le {op : UInt8} (hi : Boundary code i) (hj : Boundary code j)
    (hop : code[j]? = some op) (hlt : j < i) : j + 1 + immediates op ≤ i := by
  induction hi generalizing j op with
  | zero => omega
  | @next i₀ op₀ hi₀ hop₀ ih =>
    rcases lt_trichotomy j i₀ with hbefore | rfl | hafter
    · have hle := ih hj hop hbefore
      omega
    · rw [hop₀] at hop
      cases hop
      exact Nat.le_refl _
    · -- no instruction starts among the immediate bytes behind `i₀`
      exfalso
      clear hop
      induction hj with
      | zero => omega
      | @next j₀ op₁ hj₀ hop₁ ih₁ =>
        rcases lt_trichotomy j₀ i₀ with hbefore | rfl | hafter₀
        · have hle := ih hj₀ hop₁ hbefore
          omega
        · rw [hop₀] at hop₁
          cases hop₁
          omega
        · exact ih₁ (by omega) hafter₀

/-- `compute_jump_dests` finds the `JUMPDEST` instructions from the next boundary on. -/
theorem mem_jumpDestsFrom {rest : ByteString} {skip : Nat} (hrest : code.drop i = rest)
    (hnext : Boundary code (i + skip)) :
    j ∈ jumpDestsFrom skip i rest ↔ i + skip ≤ j ∧ Boundary code j ∧ code[j]? = some 0x5b := by
  induction rest generalizing skip i with
  | nil =>
    have hlength := drop_eq_nil_iff.mp hrest
    refine iff_of_false (by simp [jumpDestsFrom]) ?_
    rintro ⟨hle, -, hdest⟩
    have hlt := (List.getElem?_eq_some_iff.mp hdest).1
    omega
  | cons op rest ih =>
    have hdrop : code.drop (i + 1) = rest := by rw [← tail_drop, hrest, tail_cons]
    cases skip with
    | succ skip =>
      rw [jumpDestsFrom, ih hdrop (by rwa [Nat.add_right_comm])]
      simp only [Nat.add_assoc, Nat.add_comm 1]
    | zero =>
      have hop : code[i]? = some op := by
        rw [← Nat.add_zero i, ← List.getElem?_drop, hrest, List.getElem?_cons_zero]
      have hsplit : (i ≤ j ∧ Boundary code j ∧ code[j]? = some 0x5b) ↔ (j = i ∧ op = 0x5b) ∨
          (i + 1 + immediates op ≤ j ∧ Boundary code j ∧ code[j]? = some 0x5b) := by
        constructor
        · rintro ⟨hle, hj, hdest⟩
          rcases hle.eq_or_lt with rfl | hlt
          · exact Or.inl ⟨rfl, Option.some.inj (hop.symm.trans hdest)⟩
          · exact Or.inr ⟨hj.end_le hnext hop hlt, hj, hdest⟩
        · rintro (⟨rfl, rfl⟩ | ⟨hle, hj⟩)
          · exact ⟨Nat.le_refl _, hnext, hop⟩
          · exact ⟨by omega, hj⟩
      rw [Nat.add_zero, hsplit, ← ih hdrop (hnext.next hop), jumpDestsFrom, immediates]
      split
      next hpush =>
        have hne : op ≠ 0x5b := by
          rintro rfl
          exact absurd hpush (by decide)
        simp [hne]
      next =>
        split
        next hdest => simp [hdest]
        next hne => simp [hne]

private theorem mem_jumpDests :
    j ∈ jumpDestsFrom 0 0 code ↔ Boundary code j ∧ code[j]? = some 0x5b := by
  rw [mem_jumpDestsFrom drop_zero .zero]
  simp

/-- How control leaves an operation: past its immediate bytes, by a jump, or by either. -/
inductive Leaving where
  | past (immediates : Nat)
  | jump
  | branch
  deriving DecidableEq

def Opcode.leaving : Option Opcode → Leaving
  | some (.onRegs (.push bytes)) => .past bytes
  | some (.onRegs .jump) => .jump
  | some (.onRegs .jumpi) => .branch
  | _ => .past 0

/-- The same by the byte of the operation. -/
def leavingByte (op : UInt8) : Leaving :=
  if op = 0x56 then .jump else if op = 0x57 then .branch else .past (immediates op)

private theorem leaving_ofByte (op : UInt8) :
    Opcode.leaving (Opcode.ofByte op) = leavingByte op := by
  have hall : ∀ i < 256, Opcode.leaving (Opcode.ofByte (.ofNat i)) = leavingByte (.ofNat i) := by
    decide +kernel
  have hop := hall op.toNat op.toNat_lt
  rwa [UInt8.ofNat_toNat] at hop

/-- After its `step` the context stands where control can get to. -/
def GoesOn (c : Context) : Prop := Flows c.code c.toRegs.step.pc

/-- The frame of the operations that do not move. -/
def computing : Frame Regs := .observing fun r => (r.pc, r.pcChanged)

private theorem computes_computing : Computes computing :=
  ⟨fun _ _ => rfl, fun _ _ => rfl, fun _ _ _ => rfl⟩

private theorem step_pc_of_computing (h : computing.rel r r') : r'.step.pc = r.step.pc := by
  obtain ⟨hpc, hchanged⟩ := Prod.mk.inj h
  unfold Regs.step
  rw [hchanged]
  split
  · exact hpc
  · exact congrArg (· + 1) hpc

private theorem stable_goesOn : Stable computing GoesOn where
  toComputes := computes_computing
  start c hc := by
    unfold GoesOn
    rw [hc]
    exact .zero
  regs c r hr hc := by
    unfold GoesOn at hc ⊢
    rw [step_pc_of_computing hr]
    exact hc

section Rounds

variable {pf : Platform} {origin : Address} {c : Context} {op : UInt8} {m m' : Machine}

private theorem goesOn_of_past (hflows : Flows c.code c.pc) (hop : c.code[c.pc]? = some op)
    (hjump : op ≠ 0x56) (hnone : immediates op = 0) : GoesOn c := by
  have hnext := hflows.next hop hjump
  rw [hnone] at hnext
  unfold GoesOn Regs.step
  split
  · exact hflows
  · exact hnext

private theorem step_pc_of_setPc {pc : Nat} (h : setPc pc r = .ok () r') : r'.step.pc = pc := by
  cases h
  rfl

private theorem flows_of_jumpTo (hflows : Flows c.code c.pc) (hop : c.code[c.pc]? = some op)
    (hjump : op = 0x56 ∨ op = 0x57) {newPc : Nat} (hrun : jumpTo c.code newPc r = .ok () r') :
    Flows c.code r'.step.pc := by
  unfold jumpTo at hrun
  split at hrun
  next hdest =>
    obtain ⟨hboundary, hbyte⟩ := mem_jumpDests.mp hdest
    rw [step_pc_of_setPc hrun]
    exact hflows.jump hop hjump hboundary hbyte
  next => cases hrun

/-- A push and a jump go to a position that control can get to. -/
theorem flows_of_exec {lop : LocalOp} (hmoves : lop.Moves) (hflows : Flows c.code c.pc)
    (hop : c.code[c.pc]? = some op) (hdecode : Opcode.ofByte op = some (.onRegs lop)) {r : Regs}
    (hrun : lop.exec origin c c.toRegs = .ok () r) : Flows c.code r.step.pc := by
  have hleaving := leaving_ofByte op
  rw [hdecode, leavingByte] at hleaving
  cases lop with
  | push bytes =>
    dsimp only [Opcode.leaving] at hleaving
    split_ifs at hleaving with hjump hbranch
    obtain ⟨r₀, r₁, hget, hpush⟩ := bind_eq_ok.mp hrun
    cases hget
    split at hpush
    next => cases hpush
    next =>
      obtain ⟨-, r₂, -, hset⟩ := bind_eq_ok.mp hpush
      rw [step_pc_of_setPc hset, Leaving.past.inj hleaving]
      exact hflows.next hop hjump
  | jump =>
    dsimp only [Opcode.leaving] at hleaving
    split_ifs at hleaving with hjump hbranch
    obtain ⟨newPc, r₁, -, hto⟩ := bind_eq_ok.mp hrun
    exact flows_of_jumpTo hflows hop (Or.inl hjump) hto
  | jumpi =>
    dsimp only [Opcode.leaving] at hleaving
    split_ifs at hleaving with hjump hbranch
    obtain ⟨newPc, r₁, hpop, hrest⟩ := bind_eq_ok.mp hrun
    obtain ⟨cond, r₂, hpop', hto⟩ := bind_eq_ok.mp hrest
    split at hto
    next => exact flows_of_jumpTo hflows hop (Or.inr hbranch) hto
    next =>
      cases hto
      have hsame := computing.trans (computes_computing.keeps_pop64.of_ok hpop)
        (computes_computing.keeps_pop.of_ok hpop')
      rw [step_pc_of_computing hsame]
      exact goesOn_of_past hflows hop hjump (by rw [hbranch]; decide)
  | _ => exact hmoves.elim

/-- The current context stands where control can get to, and its callers go on there. -/
def InFlow (m : Machine) : Prop :=
  AllBut 1 GoesOn m ∧ ∀ c, m.ctxts.head? = some c → Flows c.code c.pc

private theorem dispatch_of_opcode {o : Opcode} (ho : m.opcode = some o) :
    dispatch pf origin m = o.exec pf origin m := by
  rw [dispatch, bind_of_ok (show (get : Run Machine) m = .ok m m from rfl), ho]

/-- An operation leaves the contexts where they go on; one that throws may leave the current context
elsewhere, and that context ends. -/
theorem goesOn_of_dispatch (hm : InFlow m) (hc : m.ctxts.head? = some c)
    (hop : c.code[c.pc]? = some op) :
    (∀ m', dispatch pf origin m = .ok () m' → AllBut 0 GoesOn m') ∧
      ∀ e m', dispatch pf origin m = .error e m' → AllBut 1 GoesOn m' := by
  have hflows := hm.2 c hc
  have hopcode : m.opcode = Opcode.ofByte op := by
    rw [Machine.opcode, hc, Option.bind_some, hop, Option.bind_some]
  by_cases hmoves : ∃ lop, Opcode.ofByte op = some (.onRegs lop) ∧ lop.Moves
  · obtain ⟨lop, hdecode, hmoves⟩ := hmoves
    have hbelow : (holding 1 GoesOn).Keeps ((Opcode.onRegs lop).exec pf origin) :=
      Frame.keeps_bind keeps_current fun c =>
        AllBut.keeps_atContext stable_goesOn 0 fun hle => absurd hle (by decide)
    rw [dispatch_of_opcode (hopcode.trans hdecode)]
    refine ⟨fun m' hrun => ?_, fun e m' hrun => hbelow.of_error hrun hm.1⟩
    refine AllBut.of_head (hbelow.of_ok hrun hm.1) fun c' hc' => ?_
    obtain ⟨c₀, m₁, hcurrent, hat⟩ := bind_eq_ok.mp hrun
    obtain ⟨hc₀, rfl⟩ := current_eq_ok.mp hcurrent
    obtain rfl := Option.some.inj (hc₀.symm.trans hc)
    obtain ⟨c₁, r, hc₁, hexec, rfl⟩ := atContext_eq_ok.mp hat
    rw [← List.head?_eq_getElem?, hc] at hc₁
    cases hc₁
    obtain ⟨rest, hrest⟩ := List.head?_eq_some_iff.mp hc
    rw [hrest, set_cons_zero, List.head?_cons] at hc'
    cases hc'
    exact flows_of_exec hmoves hflows hop hdecode hexec
  · have hleaving := leaving_ofByte op
    have hpast : Opcode.leaving (Opcode.ofByte op) = .past 0 := by
      unfold Opcode.leaving
      split
      next bytes hdecode => exact absurd ⟨_, hdecode, trivial⟩ hmoves
      next hdecode => exact absurd ⟨_, hdecode, trivial⟩ hmoves
      next hdecode => exact absurd ⟨_, hdecode, trivial⟩ hmoves
      next => rfl
    rw [hpast, leavingByte] at hleaving
    split_ifs at hleaving with hjump hbranch
    have hall : AllBut 0 GoesOn m := by
      refine AllBut.of_head hm.1 fun c' hc' => ?_
      obtain rfl := Option.some.inj (hc'.symm.trans hc)
      exact goesOn_of_past hflows hop hjump (Leaving.past.inj hleaving).symm
    have hkeeps : (holding 0 GoesOn).rel m (stateAfter (dispatch pf origin) m) :=
      rel_dispatch fun o ho => AllBut.keeps_exec stable_goesOn
        (fun lop hlop hlmoves => absurd ⟨lop, by rw [← hopcode, ho, hlop], hlmoves⟩ hmoves)
        pf origin m
    refine ⟨fun m' hrun => ?_, fun e m' hrun => ?_⟩
    · exact Frame.rel_of_ok hkeeps hrun hall
    · rw [stateAfter, hrun] at hkeeps
      exact AllBut.tail (hkeeps hall)

private theorem exists_op_of_next (hnext : next pf origin m () = some m') :
    ∃ c op, m.ctxts.head? = some c ∧ c.code[c.pc]? = some op := by
  unfold next at hnext
  split at hnext
  next => cases hnext
  next c rest hctxts =>
    split at hnext
    next hpc => exact ⟨c, _, by rw [hctxts, List.head?_cons], List.getElem?_eq_getElem hpc⟩
    next => cases hnext

private theorem exists_tryDispatch_of_next (hnext : next pf origin m () = some m') :
    ∃ m₁, tryDispatch pf origin m = .ok () m₁ ∧
      m' = { m₁ with ctxts := m₁.ctxts.modifyHead Context.step } := by
  obtain ⟨_, m₁, hdispatch, hstep⟩ := bind_eq_ok.mp (cycle_of_next hnext)
  exact ⟨m₁, hdispatch, (modifyGet_eq_ok.mp hstep).2⟩

/-- Every round leads on to where control can get to. -/
theorem inFlow_of_next (hm : InFlow m) (hnext : next pf origin m () = some m') : InFlow m' := by
  obtain ⟨c, op, hc, hop⟩ := exists_op_of_next hnext
  obtain ⟨m₁, hdispatch, rfl⟩ := exists_tryDispatch_of_next hnext
  obtain ⟨hok, herror⟩ := goesOn_of_dispatch hm hc hop
  obtain ⟨hdepth, hgoes⟩ := AllBut.of_tryDispatch stable_goesOn hdispatch hok herror
  unfold InFlow AllBut
  dsimp only
  rw [length_modifyHead]
  cases hctxts : m₁.ctxts with
  | nil => simp
  | cons c₁ rest =>
    rw [hctxts] at hdepth hgoes
    rw [modifyHead_cons]
    refine ⟨⟨hdepth, fun c' hc' => hgoes c' (mem_cons_of_mem _ hc')⟩, fun c' hc' => ?_⟩
    cases hc'
    rw [Context.step_eq]
    exact hgoes c₁ mem_cons_self

private theorem inFlow_start (caller : Address) (callee : AccountProxy) (input code : ByteString)
    (callValue : Word) (w : World) : InFlow (.start caller callee input code callValue w) := by
  refine ⟨⟨(by decide : 1 ≤ 1024), fun c hc => (not_mem_nil hc).elim⟩, fun c hc => ?_⟩
  cases hc
  exact .zero

/-- The memory of the context is within the limit. -/
def Bounded (c : Context) : Prop := c.mem.length ≤ maxMemSize

private theorem stable_bounded :
    Stable (.preserving fun r => r.mem.length ≤ maxMemSize) Bounded where
  stack _ _ h := h
  returnData _ _ h := h
  mem _ _ hle h := hle.trans (max_le h (Nat.le_refl _))
  start c hc := by
    rw [Bounded, hc]
    exact Nat.zero_le _
  regs _ _ hr hc := hr hc

private theorem bounded_of_next (hm : AllBut 0 Bounded m) (hnext : next pf origin m () = some m') :
    AllBut 0 Bounded m' := by
  obtain ⟨m₁, hdispatch, rfl⟩ := exists_tryDispatch_of_next hnext
  have hkeeps : (holding 0 Bounded).rel m (stateAfter (dispatch pf origin) m) :=
    rel_dispatch fun o _ => AllBut.keeps_exec stable_bounded (fun _ _ _ _ _ hr => hr) pf origin m
  have hall : AllBut 0 Bounded m₁ := by
    refine AllBut.of_tryDispatch stable_bounded hdispatch (fun m₂ hrun => ?_) fun e m₂ hrun => ?_
    · exact Frame.rel_of_ok hkeeps hrun hm
    · rw [stateAfter, hrun] at hkeeps
      exact AllBut.tail (hkeeps hm)
  refine ⟨by rw [length_modifyHead]; exact hall.1, fun c hc => ?_⟩
  cases hctxts : m₁.ctxts with
  | nil => simp [hctxts] at hc
  | cons c₁ rest =>
    have hbounded := hall.2
    rw [hctxts] at hbounded hc
    rcases mem_cons.mp hc with rfl | hc
    · rw [Context.step_eq, Bounded, Regs.step]
      split
      · exact hbounded c₁ mem_cons_self
      · exact hbounded c₁ mem_cons_self
    · exact hbounded c (mem_cons_of_mem _ hc)

end Rounds

section Runs

variable {pf : Platform} {origin caller : Address} {callee : AccountProxy}
  {input : ByteString} {callValue : Word} {w : World} {m : Machine}

/-- In every run, whatever is called and created on the way, the operations executed are those of
instructions that control can get to, and none of them is an immediate byte of a push. -/
theorem flows_of_reachable
    (hreach : Reachable (next pf origin) (.start caller callee input code callValue w) m)
    {c : Context} (hc : m.ctxts.head? = some c) :
    Flows c.code c.pc ∧ ∀ j op, Boundary c.code j → c.code[j]? = some op →
      ¬(j < c.pc ∧ c.pc ≤ j + immediates op) := by
  have hflow : InFlow m :=
    hreach.invariant (inFlow_start _ _ _ _ _ _) fun _ _ _ hm _ hnext => inFlow_of_next hm hnext
  have hflows := hflow.2 c hc
  refine ⟨hflows, fun j op hj hop hinside => ?_⟩
  have hend := hflows.boundary.end_le hj hop hinside.1
  omega

/-- The code jumps over a push whose immediate byte is that of `JUMPDEST`. -/
def jumpingCode : ByteString := [0x60, 5, 0x56, 0x60, 0x5b, 0x5b, 0x00]

/-- The sample code gets to its `JUMPDEST`. -/
theorem flows_of_reachable_jumpingCode :
    ∃ m c, Reachable (next .mute 7) (callingMachine jumpingCode []) m ∧
      m.ctxts.head? = some c ∧ c.pc = 5 ∧ Flows c.code c.pc := by
  have hreach : Reachable (next .mute 7) (callingMachine jumpingCode []) _ :=
    reaches_of_performAll .refl (show performAll _ _ _ (List.replicate 2 ()) = some _ from rfl)
  exact ⟨_, _, hreach, rfl, rfl, (flows_of_reachable hreach rfl).1⟩

/-- In every run there are at most 1024 contexts, and each has at most `MAX_MEM_SIZE` bytes of
memory. -/
theorem bounded_of_reachable
    (hreach : Reachable (next pf origin) (.start caller callee input code callValue w) m) :
    m.ctxts.length ≤ 1024 ∧ ∀ c ∈ m.ctxts, c.mem.length ≤ maxMemSize := by
  have hstart : AllBut 0 Bounded (.start caller callee input code callValue w) := by
    refine ⟨(by decide : 1 ≤ 1024), fun c hc => ?_⟩
    cases mem_singleton.mp hc
    exact Nat.zero_le _
  exact hreach.invariant hstart fun _ _ _ hm _ hnext => bounded_of_next hm hnext

set_option maxRecDepth 20000 in
/-- A machine that has entered a call. -/
theorem bounded_of_reachable_call :
    ∃ m, Reachable (next .mute 7) (callingMachine callingCode [0x00]) m ∧ m.ctxts.length = 2 ∧
      (m.ctxts.length ≤ 1024 ∧ ∀ c ∈ m.ctxts, c.mem.length ≤ maxMemSize) := by
  have hreach : Reachable (next .mute 7) (callingMachine callingCode [0x00]) _ :=
    reaches_of_performAll .refl (show performAll _ _ _ (List.replicate 8 ()) = some _ from rfl)
  exact ⟨_, hreach, rfl, bounded_of_reachable hreach⟩

end Runs

end CloakBridge.Evm
