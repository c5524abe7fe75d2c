import CloakBridge.Models.Evm.Frames

/-!
# What an operation can do to registers

But for pushes and jumps an operation changes the stack, the data of the last call and, up
to the memory limit, the memory. A property of contexts that such changes keep is kept by
every operation in all contexts, those of the callers included.
-/

namespace CloakBridge.Evm

open Tee CloakBridge.Frame List

/-- The changes of registers that an operation may make without moving the program counter. -/
structure Computes (L : Frame Regs) : Prop where
  stack : ∀ (r : Regs) (s : List Word), L.rel r { r with stack := s }
  returnData : ∀ (r : Regs) (d : ByteString), L.rel r { r with returnData := d }
  mem : ∀ (r : Regs) (bytes : ByteString), bytes.length ≤ max r.mem.length maxMemSize →
    L.rel r { r with mem := bytes }

variable {offset : Nat} {bytes : ByteString}

private theorem length_growTo (size : Nat) (mem : ByteString) :
    (growTo size mem).length = max mem.length size := by
  simp only [growTo, length_append, length_replicate]
  omega

private theorem length_overwrite {mem : ByteString} (h : offset + bytes.length ≤ mem.length) :
    (overwrite mem offset bytes).length = mem.length := by
  simp only [overwrite, length_append, length_take, length_drop]
  omega

namespace Computes

variable {L : Frame Regs} (h : Computes L)

include h

theorem keeps_pop : L.Keeps pop
  | ⟨_, _, _, [], _⟩ => L.refl _
  | ⟨_, _, _, _ :: st, _⟩ => h.stack _ st

theorem keeps_pop64 : L.Keeps pop64 :=
  keeps_bind h.keeps_pop fun _ =>
    keeps_ite (fun _ => keeps_throw _) fun _ => keeps_pure _

private theorem keeps_popAddr : L.Keeps popAddr :=
  keeps_bind h.keeps_pop fun _ => keeps_pure _

private theorem keeps_popMany (n : Nat) : L.Keeps (popMany n) := by
  induction n with
  | zero => exact keeps_pure _
  | succ n ih =>
    exact keeps_bind h.keeps_pop fun _ => keeps_bind ih fun _ => keeps_pure _

private theorem keeps_push (val : Word) : L.Keeps (push val) := by
  intro r
  refine rel_bind (keeps_get r) fun r' r₁ hget => ?_
  cases hget
  by_cases hfull : r.stack.length = maxStackSize
  · rw [if_pos hfull]
    exact L.refl r
  · rw [if_neg hfull]
    exact h.stack r _

private theorem keeps_swapStack (i : Nat) : L.Keeps (swapStack i) := by
  intro r
  refine rel_bind (keeps_get r) fun r' r₁ hget => ?_
  cases hget
  split
  · exact h.stack r _
  · exact L.refl r

private theorem keeps_dupStack (a : Nat) : L.Keeps (dupStack a) := by
  intro r
  refine rel_bind (keeps_get r) fun r' r₁ hget => ?_
  cases hget
  split
  · exact h.stack r _
  · exact L.refl r

private theorem keeps_prepareMemAccess (offset size : Nat) :
    L.Keeps (prepareMemAccess offset size) := by
  refine keeps_ite (fun _ => keeps_throw _) fun hle => keeps_modify fun r => ?_
  refine h.mem r _ ?_
  rw [length_growTo]
  omega

private theorem keeps_copyMemRaw (offDst offSrc size : Nat) (src : ByteString) (pad : UInt8) :
    L.Keeps (copyMemRaw offDst offSrc size src pad) := by
  refine keeps_ite (fun _ => keeps_pure _) fun _ => ?_
  refine keeps_ite (fun _ => keeps_throw _) fun hle => keeps_modify fun r => ?_
  refine h.mem r _ ?_
  rw [length_overwrite, length_growTo]
  · omega
  · simp only [length_growTo, length_append, length_replicate, length_take]
    omega

private theorem keeps_copyMem (src : ByteString) (pad : UInt8) : L.Keeps (copyMem src pad) :=
  keeps_bind h.keeps_pop64 fun _ => keeps_bind h.keeps_pop64 fun _ =>
    keeps_bind h.keeps_pop64 fun _ => h.keeps_copyMemRaw _ _ _ _ _

private theorem keeps_copyFromMem (offset size : Nat) : L.Keeps (copyFromMem offset size) :=
  keeps_bind (h.keeps_prepareMemAccess _ _) fun _ =>
    keeps_bind keeps_get fun _ => keeps_pure _

private theorem keeps_store {size : Nat} (hsize : bytes.length = size) : L.Keeps (do
      prepareMemAccess offset size
      modify fun r => { r with mem := overwrite r.mem offset bytes }) := by
  intro r
  refine rel_bind (h.keeps_prepareMemAccess offset size r) fun _ r₁ hrun => ?_
  unfold prepareMemAccess at hrun
  split at hrun
  next => cases hrun
  next =>
    cases hrun
    refine h.mem _ _ ?_
    rw [length_overwrite]
    · exact Nat.le_max_left _ _
    · rw [length_growTo, hsize]
      exact Nat.le_max_right _ _

private theorem keeps_binary (f : Word → Word → Word) : L.Keeps (binary f) :=
  keeps_bind h.keeps_pop fun _ => keeps_bind h.keeps_pop fun _ => h.keeps_push _

private theorem keeps_ternary (f : Word → Word → Word → Word) : L.Keeps (ternary f) :=
  keeps_bind h.keeps_pop fun _ => h.keeps_binary (f _)

private theorem keeps_unary (f : Word → Word) : L.Keeps (unary f) :=
  keeps_bind h.keeps_pop fun _ => h.keeps_push _

private theorem keeps_logEntry (address : Address) (n : Nat) : L.Keeps (logEntry address n) :=
  keeps_bind h.keeps_pop64 fun _ => keeps_bind h.keeps_pop64 fun _ =>
    keeps_bind (h.keeps_popMany n) fun _ =>
      keeps_bind (h.keeps_copyFromMem _ _) fun _ => keeps_pure _

private theorem keeps_popOutput : L.Keeps popOutput :=
  keeps_bind h.keeps_pop64 fun _ => keeps_bind h.keeps_pop64 fun _ =>
    h.keeps_copyFromMem _ _

private theorem keeps_createArguments : L.Keeps createArguments :=
  keeps_bind h.keeps_pop fun _ => keeps_bind h.keeps_pop64 fun _ =>
    keeps_bind h.keeps_pop64 fun _ =>
      keeps_bind (h.keeps_copyFromMem _ _) fun _ => keeps_pure _

private theorem keeps_callArguments (kind : CallKind) : L.Keeps (callArguments kind) := by
  refine keeps_bind h.keeps_pop fun _ => keeps_bind h.keeps_popAddr fun _ => ?_
  have hrest (addr : Address) (value : Nat) : L.Keeps (do
      let offIn ← pop64
      let sizeIn ← pop64
      let offOut ← pop64
      let sizeOut ← pop64
      pure (CallArguments.mk addr (BitVec.ofNat 256 value) offIn sizeIn offOut sizeOut)) :=
    keeps_bind h.keeps_pop64 fun _ => keeps_bind h.keeps_pop64 fun _ =>
      keeps_bind h.keeps_pop64 fun _ => keeps_bind h.keeps_pop64 fun _ =>
        keeps_pure _
  cases kind with
  | call | callcode => exact keeps_bind h.keeps_pop64 fun _ => hrest _ _
  | delegatecall | staticcall => exact keeps_bind (keeps_pure 0) fun _ => hrest _ _

end Computes

/-- The operations that may set the program counter. -/
def LocalOp.Moves : LocalOp → Prop
  | .push _ | .jump | .jumpi => True
  | _ => False

namespace Computes

variable {L : Frame Regs} (h : Computes L)

include h

/-- An operation stays in the frame if it does not move or if the frame allows moves. -/
theorem keeps_exec {op : LocalOp}
    (hmove : op.Moves → ∀ (r : Regs) (pc : Nat), L.rel r { r with pc := pc, pcChanged := true })
    (origin : Address) (c : Context) : L.Keeps (op.exec origin c) := by
  have hjump : op.Moves → ∀ newPc, L.Keeps (jumpTo c.code newPc) := fun hop newPc =>
    keeps_ite (fun _ => keeps_modify fun r => hmove hop r _) fun _ =>
      keeps_throw _
  have hget {f : Regs → Word} : L.Keeps (do let r ← get; push (f r)) :=
    keeps_bind keeps_get fun _ => h.keeps_push _
  cases op with
  | pop => exact keeps_bind h.keeps_pop fun _ => keeps_pure _
  | push bytes =>
    refine keeps_bind keeps_get fun r => ?_
    refine keeps_ite (fun _ => keeps_throw _) fun _ => ?_
    exact keeps_bind (h.keeps_push _) fun _ =>
      keeps_modify fun r => hmove trivial r _
  | jump => exact keeps_bind h.keeps_pop64 fun _ => hjump trivial _
  | jumpi =>
    exact keeps_bind h.keeps_pop64 fun _ => keeps_bind h.keeps_pop fun _ =>
      keeps_ite (fun _ => hjump trivial _) fun _ => keeps_pure _
  | dup a => exact h.keeps_dupStack a
  | swap i => exact h.keeps_swapStack i
  | add | mul | sub | div | sdiv | mod | smod | signextend | lt | gt | slt | eq | and | or | xor
  | shl | shr | sar => exact h.keeps_binary _
  | addmod | mulmod => exact h.keeps_ternary _
  | isZero | not => exact h.keeps_unary _
  | exp =>
    exact keeps_bind h.keeps_pop fun _ => keeps_bind h.keeps_pop64 fun _ =>
      h.keeps_push _
  | sgt => exact keeps_bind (h.keeps_swapStack 1) fun _ => h.keeps_binary _
  | byte =>
    exact keeps_bind h.keeps_pop fun _ => keeps_ite (fun _ => h.keeps_push _) fun _ =>
      h.keeps_unary _
  | sha3 =>
    exact keeps_bind h.keeps_pop64 fun _ => keeps_bind h.keeps_pop64 fun _ =>
      keeps_bind (h.keeps_copyFromMem _ _) fun _ => h.keeps_push _
  | address | origin | caller | callvalue | calldatasize | gasprice | gas =>
    exact h.keeps_push _
  | calldataload =>
    exact keeps_bind h.keeps_pop64 fun _ =>
      keeps_ite (fun _ => keeps_throw _) fun _ => h.keeps_push _
  | calldatacopy | codecopy => exact h.keeps_copyMem _ _
  | returndatacopy => exact keeps_bind keeps_get fun _ => h.keeps_copyMem _ _
  | returndatasize | pc | msize => exact hget
  | blockhash => exact keeps_bind h.keeps_pop64 fun _ => h.keeps_push _
  | unimplemented => exact keeps_throw _
  | mload =>
    exact keeps_bind h.keeps_pop64 fun _ =>
      keeps_bind (h.keeps_copyFromMem _ _) fun _ => h.keeps_push _
  | mstore =>
    exact keeps_bind h.keeps_pop64 fun _ => keeps_bind h.keeps_pop fun _ =>
      h.keeps_store (length_wordBytes _)
  | mstore8 =>
    exact keeps_bind h.keeps_pop64 fun _ => keeps_bind h.keeps_pop fun _ =>
      h.keeps_store rfl
  | jumpdest => exact keeps_pure _

end Computes

/-- A property of contexts that the changes of a frame keep and that new contexts have. -/
structure Stable (L : Frame Regs) (P : Context → Prop) : Prop extends Computes L where
  start : ∀ c : Context, c.toRegs = Regs.start → P c
  regs : ∀ (c : Context) (r : Regs), L.rel c.toRegs r → P c → P { c with toRegs := r }

/-- There are at most 1024 contexts, and all but the innermost `k` of them have the property. -/
def AllBut (k : Nat) (P : Context → Prop) (m : Machine) : Prop :=
  m.ctxts.length ≤ 1024 ∧ ∀ c ∈ m.ctxts.drop k, P c

/-- The frame that keeps a property of contexts. -/
abbrev holding (k : Nat) (P : Context → Prop) : Frame Machine := .preserving (AllBut k P)

namespace AllBut

variable {L : Frame Regs} {P : Context → Prop} (h : Stable L P) {k : Nat} {α : Type}
  {m m' : Machine} {c : Context}

private theorem keeps_modify {f : Machine → Machine} (hf : ∀ m, (f m).ctxts = m.ctxts) :
    (holding k P).Keeps (modify f : Run PUnit) := by
  refine Frame.keeps_modify fun m hm => ?_
  rw [AllBut, hf]
  exact hm

private theorem keeps_inWorld (x : Exec α) : (holding k P).Keeps (inWorld x) := by
  intro m hm
  rw [stateAfter_inWorld]
  exact hm

/-- What holds in all contexts holds in all but the first. -/
theorem tail {m : Machine} (hm : AllBut 0 P m) : AllBut 1 P m :=
  ⟨hm.1, fun c hc => hm.2 c (mem_of_mem_drop hc)⟩

/-- The current context may be added. -/
theorem of_head (hm : AllBut 1 P m) (hhead : ∀ c, m.ctxts.head? = some c → P c) : AllBut 0 P m := by
  refine ⟨hm.1, fun c hc => ?_⟩
  cases hctxts : m.ctxts with
  | nil =>
    rw [hctxts] at hc
    cases hc
  | cons c₀ rest =>
    obtain ⟨-, htail⟩ := hm
    rw [hctxts] at hc hhead htail
    rcases mem_cons.mp hc with rfl | hc
    · exact hhead c rfl
    · exact htail c hc

private theorem keeps_popContext : (holding 0 P).Keeps popContext :=
  Frame.keeps_modify fun _ hm =>
    ⟨(tail_sublist _).length_le.trans hm.1, fun c hc => hm.2 c (mem_of_mem_tail hc)⟩

include h

private theorem set {i : Nat} {r : Regs} (hc : m.ctxts[i]? = some c) (hr : k ≤ i → L.rel c.toRegs r)
    (hm : AllBut k P m) : AllBut k P { m with ctxts := m.ctxts.set i { c with toRegs := r } } := by
  refine ⟨by rw [length_set]; exact hm.1, fun c' hc' => ?_⟩
  rw [drop_set] at hc'
  split at hc'
  next => exact hm.2 c' hc'
  next hle =>
    rcases mem_or_eq_of_mem_set hc' with hc' | rfl
    · exact hm.2 c' hc'
    · refine h.regs c r (hr (Nat.le_of_not_lt hle)) (hm.2 c (mem_of_getElem? (i := i - k) ?_))
      rw [List.getElem?_drop, Nat.add_sub_cancel' (Nat.le_of_not_lt hle), hc]

/-- Registers may change in a context as the frame allows. -/
theorem keeps_atContext (i : Nat) {x : Local α} (hx : k ≤ i → L.Keeps x) :
    (holding k P).Keeps (atContext i x) := by
  intro m hm
  unfold stateAfter atContext
  cases hc : m.ctxts[i]? with
  | none => exact hm
  | some c =>
    have hr (hle : k ≤ i) := hx hle c.toRegs
    unfold stateAfter at hr
    dsimp only
    cases hrun : x c.toRegs with
    | ok a r => exact set h hc (fun hle => by simpa only [hrun] using hr hle) hm
    | error e r => exact set h hc (fun hle => by simpa only [hrun] using hr hle) hm

private theorem keeps_pushContext (hc : c.toRegs = Regs.start) :
    (holding 0 P).Keeps (pushContext c) := by
  intro m
  refine rel_bind (keeps_get m) fun m' m₁ hget => ?_
  cases hget
  by_cases hdepth : 1024 ≤ m.ctxts.length
  · rw [if_pos hdepth]
    exact id
  · rw [if_neg hdepth]
    refine fun hm => ⟨Nat.lt_of_not_le hdepth, fun c' hc' => ?_⟩
    rcases mem_cons.mp hc' with rfl | hc'
    · exact h.start c' hc
    · exact hm.2 c' hc'

private theorem keeps_push (i : Nat) (val : Word) : (holding k P).Keeps (atContext i (push val)) :=
  keeps_atContext h i fun _ => h.keeps_push val

private theorem keeps_onException (type : ExceptionType) (handler : Handler) :
    (holding k P).Keeps (handler.onException type) := by
  cases handler with
  | outer => exact keeps_modify fun _ => rfl
  | call _ _ _ | create _ => exact keeps_push h _ _

/-- An exception ends the current context, which need not have the property. -/
theorem of_handleException {type : ExceptionType} (hrun : handleException type m = .ok () m')
    (hm : AllBut 1 P m) : AllBut 0 P m' := by
  obtain ⟨c, m₁, hcurrent, hend⟩ := bind_eq_ok.mp hrun
  obtain ⟨-, rfl⟩ := current_eq_ok.mp hcurrent
  obtain ⟨_, m₂, hhandler, hpop⟩ := bind_eq_ok.mp hend
  have hm₂ := Frame.Keeps.of_ok (keeps_onException h type c.handler) hhandler hm
  obtain ⟨-, rfl⟩ := modifyGet_eq_ok.mp hpop
  exact ⟨(tail_sublist _).length_le.trans hm₂.1, fun c hc => hm₂.2 c (drop_one ▸ hc)⟩

private theorem keeps_stop : (holding 0 P).Keeps stop := by
  refine keeps_bind keeps_current fun c => keeps_bind keeps_popContext fun _ => ?_
  cases c.handler with
  | outer => exact keeps_modify fun _ => rfl
  | call _ _ _ | create _ => exact keeps_push h _ _

private theorem keeps_onReturn (output : ByteString) (handler : Handler) :
    (holding 0 P).Keeps (handler.onReturn output) := by
  have hdata : L.Keeps (modify fun r => { r with returnData := output } : Local PUnit) :=
    Frame.keeps_modify fun r => h.returnData r output
  cases handler with
  | outer => exact keeps_modify fun _ => rfl
  | call offOut sizeOut parent =>
    exact keeps_atContext h _ fun _ => keeps_bind hdata fun _ =>
      keeps_bind (h.keeps_copyMemRaw _ _ _ _ _) fun _ => h.keeps_push _
  | create account =>
    exact keeps_bind (keeps_atContext h _ fun _ => hdata) fun _ =>
      keeps_bind (keeps_inWorld _) fun _ => keeps_push h _ _

private theorem keeps_popAccount : (holding 0 P).Keeps popAccount :=
  keeps_bind (keeps_atContext h _ fun _ => h.keeps_popAddr) fun _ => keeps_inWorld _

private theorem keeps_create (pf : Platform) (salted : Bool) :
    (holding 0 P).Keeps (create pf salted) := by
  refine keeps_bind keeps_refuseStatic fun _ => keeps_bind keeps_current fun c => ?_
  refine keeps_bind (keeps_atContext h _ fun _ => h.keeps_createArguments) fun args => ?_
  refine keeps_bind ?_ fun _ => keeps_bind (keeps_inWorld _) fun _ =>
    keeps_bind (keeps_inWorld _) fun _ => keeps_pushContext h rfl
  cases salted with
  | true =>
    exact keeps_bind (keeps_atContext h _ fun _ => h.keeps_pop) fun _ => keeps_inWorld _
  | false => exact keeps_bind (keeps_inWorld _) fun _ => keeps_pure _

private theorem keeps_call (kind : CallKind) : (holding 0 P).Keeps (call kind) := by
  refine keeps_bind keeps_current fun c => ?_
  refine keeps_bind (keeps_atContext h _ fun _ => h.keeps_callArguments kind) fun args => ?_
  refine keeps_ite (fun _ => keeps_throw _) fun _ => ?_
  refine keeps_bind (keeps_inWorld _) fun callee => keeps_bind (keeps_inWorld _)
    fun _ => keeps_bind (keeps_inWorld _) fun hasCode => ?_
  refine keeps_ite (fun _ => ?_) fun _ => keeps_push h _ _
  refine keeps_bind (keeps_atContext h _ fun _ => h.keeps_prepareMemAccess _ _) fun _ => ?_
  refine keeps_bind (keeps_atContext h _ fun _ => h.keeps_copyFromMem _ _) fun input => ?_
  have henter {account : AccountProxy} {caller : Address} {callValue : Word} {parent : Nat}
      {inStaticMode : Bool} : (holding 0 P).Keeps (do
        let code ← inWorld callee.getCode
        pushContext ⟨Regs.start, account, caller, input, callValue, code,
          .call args.offOut args.sizeOut parent, inStaticMode⟩) :=
    keeps_bind (keeps_inWorld _) fun _ => keeps_pushContext h rfl
  cases kind with
  | call | callcode | delegatecall => exact henter
  | staticcall => exact keeps_bind henter fun _ => henter

/-- Every operation keeps the property in all contexts, if moves of the current one do. -/
theorem keeps_exec {op : Opcode} (hmove : ∀ lop, op = .onRegs lop → lop.Moves →
      ∀ (r : Regs) (pc : Nat), L.rel r { r with pc := pc, pcChanged := true })
    (pf : Platform) (origin : Address) : (holding 0 P).Keeps (op.exec pf origin) := by
  have haccount {rest : AccountProxy → Run Unit} (hrest : ∀ p, (holding 0 P).Keeps (rest p)) :=
    keeps_bind (keeps_popAccount h) hrest
  have houtput := keeps_atContext h 0 fun _ : 0 ≤ 0 => h.keeps_popOutput
  cases op with
  | onRegs lop =>
    exact keeps_bind keeps_current fun c =>
      keeps_atContext h _ fun _ => h.keeps_exec (hmove lop rfl) origin c
  | sload =>
    exact keeps_bind keeps_current fun c =>
      keeps_bind (keeps_atContext h _ fun _ => h.keeps_pop) fun _ =>
        keeps_bind (keeps_inWorld _) fun _ => keeps_push h _ _
  | codesize | selfbalance =>
    exact keeps_bind keeps_current fun _ =>
      keeps_bind (keeps_inWorld _) fun _ => keeps_push h _ _
  | extcodesize | extcodehash | balance =>
    exact haccount fun _ => keeps_bind (keeps_inWorld _) fun _ => keeps_push h _ _
  | extcodecopy =>
    exact haccount fun _ => keeps_bind (keeps_inWorld _) fun _ =>
      keeps_atContext h _ fun _ => h.keeps_copyMem _ _
  | timestamp => exact keeps_bind (keeps_inWorld _) fun _ => keeps_push h _ _
  | sstore =>
    exact keeps_bind keeps_refuseStatic fun _ => keeps_bind keeps_current fun _ =>
      keeps_bind (keeps_atContext h _ fun _ => h.keeps_pop) fun _ =>
        keeps_bind (keeps_atContext h _ fun _ => h.keeps_pop) fun _ => keeps_inWorld _
  | log topics =>
    exact keeps_bind keeps_refuseStatic fun _ => keeps_bind keeps_current fun _ =>
      keeps_bind (keeps_atContext h _ fun _ => h.keeps_logEntry _ _) fun _ =>
        keeps_modify fun _ => rfl
  | revert =>
    exact keeps_bind houtput fun _ => keeps_throw _
  | return_ =>
    exact keeps_bind keeps_current fun c => keeps_bind houtput fun _ =>
      keeps_bind (keeps_onReturn h _ _) fun _ => keeps_popContext
  | stop => exact keeps_stop h
  | selfdestruct =>
    exact keeps_bind keeps_refuseStatic fun _ => keeps_bind keeps_current fun _ =>
      haccount fun _ => keeps_bind (keeps_inWorld _) fun _ =>
        keeps_bind (keeps_inWorld _) fun _ =>
          keeps_bind (keeps_modify fun _ => rfl) fun _ => keeps_stop h
  | create salted => exact keeps_create h pf salted
  | call kind => exact keeps_call h kind

/-- A round before its step: what operations keep in all contexts, or in all but the one that an
exception ends, holds in all of them. -/
theorem of_tryDispatch {pf : Platform} {origin : Address}
    (hrun : tryDispatch pf origin m = .ok () m')
    (hok : ∀ m₁, dispatch pf origin m = .ok () m₁ → AllBut 0 P m₁)
    (herror : ∀ e m₁, dispatch pf origin m = .error e m₁ → AllBut 1 P m₁) : AllBut 0 P m' := by
  cases hdispatch : dispatch pf origin m with
  | ok u m₁ =>
    rw [tryDispatch, tryCatch_of_ok hdispatch] at hrun
    cases hrun
    exact hok _ hdispatch
  | error e m₁ =>
    rw [tryDispatch, tryCatch_of_error hdispatch] at hrun
    cases e with
    | evm type => exact of_handleException h hrun (herror _ m₁ hdispatch)
    | _ => cases hrun

end AllBut

end CloakBridge.Evm
