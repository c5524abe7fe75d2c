import CloakBridge.Models.Evm.Operations
import CloakBridge.Models.Evm.Rlp

/-!
# The interpreter

`_Processor` keeps a stack of contexts, one for every nested call. When a context ends, a
handler set up by its caller passes the result on. An `eevm::Exception` ends the current
context only, and nothing that was written before it is taken back.

`STATICCALL` falls through to `CALL` and enters two contexts with the same caller; a
handler therefore names its caller by the number of contexts between them.
-/

namespace CloakBridge.Evm

open Tee EthereumState

/-- The operations that work on the current context alone. -/
inductive LocalOp where
  | pop | push (bytes : Nat) | dup (a : Nat) | swap (i : Nat)
  | add | mul | sub | div | sdiv | mod | smod | addmod | mulmod | exp | signextend
  | lt | gt | slt | sgt | eq | isZero | and | or | xor | not | byte | shl | shr | sar
  | sha3
  | address | origin | caller | callvalue | calldataload | calldatasize | calldatacopy
  | codecopy | gasprice | returndatasize | returndatacopy
  | blockhash | gas | unimplemented
  | mload | mstore | mstore8 | jump | jumpi | pc | msize | jumpdest
  deriving DecidableEq, Repr

/-- The ways to call another account. -/
inductive CallKind where
  | call
  | callcode
  | delegatecall
  | staticcall
  deriving DecidableEq, Repr

/-- `Opcode`, by what the operation has access to. -/
inductive Opcode where
  | onRegs (op : LocalOp)
  | sload | codesize | extcodesize | extcodecopy | extcodehash | balance | selfbalance | timestamp
  | sstore
  | log (topics : Nat)
  | revert
  | return_
  | stop
  | selfdestruct
  | create (salted : Bool)
  | call (kind : CallKind)
  deriving DecidableEq, Repr

/-- The operation of a byte, `none` for the bytes without one. -/
def Opcode.ofByte (b : UInt8) : Option Opcode :=
  let op := b.toNat
  if 0x5f ≤ op ∧ op ≤ 0x7f then some (.onRegs (.push (op - 0x5f)))
  else if 0x80 ≤ op ∧ op ≤ 0x8f then some (.onRegs (.dup (op - 0x80)))
  else if 0x90 ≤ op ∧ op ≤ 0x9f then some (.onRegs (.swap (op - 0x8f)))
  else if 0xa0 ≤ op ∧ op ≤ 0xa4 then some (.log (op - 0xa0))
  else match op with
    | 0x00 => some .stop
    | 0x01 => some (.onRegs .add)
    | 0x02 => some (.onRegs .mul)
    | 0x03 => some (.onRegs .sub)
    | 0x04 => some (.onRegs .div)
    | 0x05 => some (.onRegs .sdiv)
    | 0x06 => some (.onRegs .mod)
    | 0x07 => some (.onRegs .smod)
    | 0x08 => some (.onRegs .addmod)
    | 0x09 => some (.onRegs .mulmod)
    | 0x0a => some (.onRegs .exp)
    | 0x0b => some (.onRegs .signextend)
    | 0x10 => some (.onRegs .lt)
    | 0x11 => some (.onRegs .gt)
    | 0x12 => some (.onRegs .slt)
    | 0x13 => some (.onRegs .sgt)
    | 0x14 => some (.onRegs .eq)
    | 0x15 => some (.onRegs .isZero)
    | 0x16 => some (.onRegs .and)
    | 0x17 => some (.onRegs .or)
    | 0x18 => some (.onRegs .xor)
    | 0x19 => some (.onRegs .not)
    | 0x1a => some (.onRegs .byte)
    | 0x1b => some (.onRegs .shl)
    | 0x1c => some (.onRegs .shr)
    | 0x1d => some (.onRegs .sar)
    | 0x20 => some (.onRegs .sha3)
    | 0x30 => some (.onRegs .address)
    | 0x31 => some .balance
    | 0x32 => some (.onRegs .origin)
    | 0x33 => some (.onRegs .caller)
    | 0x34 => some (.onRegs .callvalue)
    | 0x35 => some (.onRegs .calldataload)
    | 0x36 => some (.onRegs .calldatasize)
    | 0x37 => some (.onRegs .calldatacopy)
    | 0x38 => some .codesize
    | 0x39 => some (.onRegs .codecopy)
    | 0x3a => some (.onRegs .gasprice)
    | 0x3b => some .extcodesize
    | 0x3c => some .extcodecopy
    | 0x3d => some (.onRegs .returndatasize)
    | 0x3e => some (.onRegs .returndatacopy)
    | 0x3f => some .extcodehash
    | 0x40 => some (.onRegs .blockhash)
    | 0x41 => some (.onRegs .unimplemented)
    | 0x42 => some .timestamp
    | 0x43 => some (.onRegs .unimplemented)
    | 0x44 => some (.onRegs .unimplemented)
    | 0x45 => some (.onRegs .unimplemented)
    | 0x46 => some (.onRegs .unimplemented)
    | 0x47 => some .selfbalance
    | 0x48 => some (.onRegs .unimplemented)
    | 0x50 => some (.onRegs .pop)
    | 0x51 => some (.onRegs .mload)
    | 0x52 => some (.onRegs .mstore)
    | 0x53 => some (.onRegs .mstore8)
    | 0x54 => some .sload
    | 0x55 => some .sstore
    | 0x56 => some (.onRegs .jump)
    | 0x57 => some (.onRegs .jumpi)
    | 0x58 => some (.onRegs .pc)
    | 0x59 => some (.onRegs .msize)
    | 0x5a => some (.onRegs .gas)
    | 0x5b => some (.onRegs .jumpdest)
    | 0xf0 => some (.create false)
    | 0xf1 => some (.call .call)
    | 0xf2 => some (.call .callcode)
    | 0xf3 => some .return_
    | 0xf4 => some (.call .delegatecall)
    | 0xf5 => some (.create true)
    | 0xfa => some (.call .staticcall)
    | 0xfd => some .revert
    | 0xfe => some .stop
    | 0xff => some .selfdestruct
    | _ => none

/-- Where the result of a context goes: the captures of its three handlers. `parent` counts the
contexts between a context and its caller. -/
inductive Handler where
  | outer
  | call (offOut sizeOut parent : Nat)
  | create (account : AccountProxy)
  deriving DecidableEq, Repr

/-- `Context` -/
structure Context extends Regs where
  account : AccountProxy
  caller : Address
  input : ByteString
  callValue : Word
  code : ByteString
  handler : Handler
  inStaticMode : Bool
  deriving DecidableEq, Repr

/-- `ExitReason`, with the type of the exception. -/
inductive Exit where
  | returned
  | halted
  | threw (type : ExceptionType)
  deriving DecidableEq, Repr

/-- `ExecResult` -/
structure ExecResult where
  exit : Exit
  output : ByteString
  deriving DecidableEq, Repr

/-- The processor in execution: the world, the log handler and the list of the transaction, the
contexts from the innermost on, and the result of the run. -/
structure Machine where
  world : World
  logs : List LogEntry
  selfdestructList : List Address
  ctxts : List Context
  result : ExecResult

/-- Code of the processor; an exception keeps the changes made before it. -/
abbrev Run := EStateM Error Machine

/-- Let code work on the world. -/
def inWorld {α : Type} (x : Exec α) : Run α := fun m =>
  match x m.world with
  | .ok a w => .ok a { m with world := w }
  | .error e w => .error e { m with world := w }

/-- Let code work on one of the contexts, counted from the innermost. -/
def atContext {α : Type} (i : Nat) (x : Local α) : Run α := fun m =>
  match m.ctxts[i]? with
  | none => .error .nullContext m
  | some c =>
    match x c.toRegs with
    | .ok a r => .ok a { m with ctxts := m.ctxts.set i { c with toRegs := r } }
    | .error e r => .error e { m with ctxts := m.ctxts.set i { c with toRegs := r } }

/-- `*ctxt` -/
def current : Run Context := do
  let m ← get
  match m.ctxts with
  | [] => throw .nullContext
  | c :: _ => pure c

/-- `push_context` -/
def pushContext (c : Context) : Run Unit := do
  let m ← get
  if 1024 ≤ m.ctxts.length then throw (.evm .outOfBounds)
  else set { m with ctxts := c :: m.ctxts }

/-- `pop_context` -/
def popContext : Run Unit := modify fun m => { m with ctxts := m.ctxts.tail }

/-- Set the result of the run. -/
def finish (f : ExecResult → ExecResult) : Run Unit :=
  modify fun m => { m with result := f m.result }

/-- `log_handler.handle` -/
def addLog (entry : LogEntry) : Run Unit := modify fun m => { m with logs := m.logs ++ [entry] }

/-- `selfdestruct_list.push_back` -/
def addSelfdestruct (address : Address) : Run Unit :=
  modify fun m => { m with selfdestructList := m.selfdestructList ++ [address] }

namespace Handler

/-- The return handler, called while the context is still there. -/
def onReturn (output : ByteString) : Handler → Run Unit
  | .outer => finish fun _ => ⟨.returned, output⟩
  | .call offOut sizeOut parent => atContext (parent + 1) do
    modify fun r => { r with returnData := output }
    copyMemRaw offOut 0 sizeOut output 0
    push 1
  | .create account => do
    atContext 1 (modify fun r => { r with returnData := output })
    inWorld (account.setCode output)
    atContext 1 (push account.address)

/-- The halt handler, called when the context is gone. -/
def onHalt : Handler → Run Unit
  | .outer => finish fun r => { r with exit := .halted }
  | .call _ _ parent => atContext parent (push 1)
  | .create _ => atContext 0 (push 0)

/-- The exception handler, called while the context is still there. -/
def onException (type : ExceptionType) : Handler → Run Unit
  | .outer => finish fun r => { r with exit := .threw type }
  | .call _ _ parent => atContext (parent + 1) (push 0)
  | .create _ => atContext 1 (push 0)

end Handler

/-- The operations on registers, with what they take from their context and the transaction, whose
gas price and gas limit are zero. -/
def LocalOp.exec (origin : Address) (c : Context) : LocalOp → Local Unit
  | .pop => do let _ ← Evm.pop
  | .push bytes => pushBytes c.code bytes
  | .dup a => dupStack a
  | .swap i => swapStack i
  | .add => binary (· + ·)
  | .mul => binary (· * ·)
  | .sub => binary (· - ·)
  | .div => binary Evm.div
  | .sdiv => binary Evm.sdiv
  | .mod => binary Evm.mod
  | .smod => binary Evm.smod
  | .addmod => ternary Evm.addmod
  | .mulmod => ternary Evm.mulmod
  | .exp => Evm.exp
  | .signextend => binary Evm.signextend
  | .lt => binary fun x y => ofBool (x < y)
  | .gt => binary fun x y => ofBool (y < x)
  | .slt => binary Evm.slt
  | .sgt => Evm.sgt
  | .eq => binary fun x y => ofBool (x = y)
  | .isZero => unary fun x => ofBool (x = 0)
  | .and => binary (· &&& ·)
  | .or => binary (· ||| ·)
  | .xor => binary (· ^^^ ·)
  | .not => unary (~~~ ·)
  | .byte => Evm.byte
  | .shl => binary Evm.shl
  | .shr => binary Evm.shr
  | .sar => binary Evm.sar
  | .sha3 => Evm.sha3
  | .address => Evm.push c.account.address
  | .origin => Evm.push origin
  | .caller => Evm.push c.caller
  | .callvalue => Evm.push c.callValue
  | .calldataload => Evm.calldataload c.input
  | .calldatasize => Evm.push (BitVec.ofNat 256 c.input.length)
  | .calldatacopy => copyMem c.input 0
  | .codecopy => copyMem c.code 0
  | .gasprice => Evm.push 0
  | .returndatasize => Evm.returndatasize
  | .returndatacopy => Evm.returndatacopy
  | .blockhash => Evm.blockhash
  | .gas => Evm.push 0
  | .unimplemented => raise .notImplemented
  | .mload => Evm.mload
  | .mstore => Evm.mstore
  | .mstore8 => Evm.mstore8
  | .jump => Evm.jump c.code
  | .jumpi => Evm.jumpi c.code
  | .pc => Evm.pc
  | .msize => Evm.msize
  | .jumpdest => pure ()

/-- `gs.get(pop_addr(..))` -/
def popAccount : Run AccountProxy := do
  let addr ← atContext 0 popAddr
  inWorld (get addr)

/-- `stop`, which also serves `INVALID` -/
def stop : Run Unit := do
  let c ← current
  popContext
  c.handler.onHalt

/-- `return_` -/
def return_ : Run Unit := do
  let c ← current
  let output ← atContext 0 popOutput
  c.handler.onReturn output
  popContext

/-- The check at the start of the operations that a static context may not perform. -/
def refuseStatic : Run Unit := do
  let c ← current
  if c.inStaticMode then throw (.evm .staticModeViolation) else pure ()

/-- `sstore` -/
def sstore (pf : Platform) : Run Unit := do
  refuseStatic
  let c ← current
  let k ← atContext 0 pop
  let v ← atContext 0 pop
  inWorld (c.account.sstore pf k v)

/-- `log` -/
def log (topics : Nat) : Run Unit := do
  refuseStatic
  let c ← current
  let entry ← atContext 0 (logEntry c.account.address topics)
  addLog entry

/-- `selfdestruct` -/
def selfdestruct : Run Unit := do
  refuseStatic
  let c ← current
  let recipient ← popAccount
  let balance ← inWorld c.account.getBalance
  inWorld (c.account.payTo recipient balance)
  addSelfdestruct c.account.address
  stop

/-- What `create_impl` takes from the stack and the memory: the endowment and the code to run. -/
def createArguments : Local (Word × ByteString) := do
  let contractValue ← pop
  let offset ← pop64
  let size ← pop64
  let initCode ← copyFromMem offset size
  pure (contractValue, initCode)

/-- The address of the account that `create_impl` makes. The nonce is not incremented. -/
def createAddress (pf : Platform) (account : AccountProxy) (salted : Bool) (initCode : ByteString) :
    Run Address :=
  if salted then do
    let salt ← atContext 0 pop
    inWorld (generateAddressForCreate2 pf account.address salt initCode)
  else do
    let nonce ← inWorld account.getNonce
    pure (generateAddress account.address nonce)

/-- The context that runs the code of a creation. -/
def creationContext (c : Context) (newAcc : AccountProxy) (initCode : ByteString) : Context where
  toRegs := Regs.start
  account := newAcc
  caller := c.account.address
  input := []
  callValue := 0
  code := initCode
  handler := .create newAcc
  inStaticMode := false

/-- The account of a creation is made, paid and entered. It starts with the endowment as its
balance and is paid the endowment as well. -/
def enterCreation (c : Context) (newAddress : Address) (contractValue : Word)
    (initCode : ByteString) : Run Unit := do
  let newAcc ← inWorld (create newAddress contractValue [])
  inWorld (c.account.payTo newAcc contractValue)
  pushContext (creationContext c newAcc initCode)

/-- `create_impl` -/
def create (pf : Platform) (salted : Bool) : Run Unit := do
  refuseStatic
  let c ← current
  let (contractValue, initCode) ← atContext 0 createArguments
  let newAddress ← createAddress pf c.account salted initCode
  enterCreation c newAddress contractValue initCode

/-- The operands of a call. -/
structure CallArguments where
  addr : Address
  value : Word
  offIn : Nat
  sizeIn : Nat
  offOut : Nat
  sizeOut : Nat
  deriving DecidableEq, Repr

/-- What `call` takes from the stack; the gas limit is not used. -/
def callArguments (kind : CallKind) : Local CallArguments := do
  let _ ← pop
  let addr ← popAddr
  let value ← match kind with
    | .delegatecall | .staticcall => pure 0
    | .call | .callcode => pop64
  let offIn ← pop64
  let sizeIn ← pop64
  let offOut ← pop64
  let sizeOut ← pop64
  pure ⟨addr, BitVec.ofNat 256 value, offIn, sizeIn, offOut, sizeOut⟩

/-- Enter the contexts of a call, each with the code that the callee has. -/
def enterCall (kind : CallKind) (c : Context) (callee : AccountProxy) (input : ByteString)
    (args : CallArguments) : Run Unit := do
  let enter (account : AccountProxy) (caller : Address) (callValue : Word) (parent : Nat)
      (inStaticMode : Bool) : Run Unit := do
    let code ← inWorld callee.getCode
    pushContext ⟨Regs.start, account, caller, input, callValue, code,
      .call args.offOut args.sizeOut parent, inStaticMode⟩
  match kind with
  | .staticcall => do
    enter callee c.account.address args.value 0 true
    enter callee callee.address args.value 1 false
  | .call => enter callee c.account.address args.value 0 false
  | .callcode => enter c.account c.account.address args.value 0 false
  | .delegatecall => enter c.account c.caller c.callValue 0 false

/-- `call` -/
def call (kind : CallKind) : Run Unit := do
  let c ← current
  let args ← atContext 0 (callArguments kind)
  if 1 ≤ args.addr ∧ args.addr ≤ 8 then throw (.evm .notImplemented)
  else do
    let callee ← inWorld (get args.addr)
    inWorld (c.account.payTo callee args.value)
    let hasCode ← inWorld callee.hasCode
    if hasCode then do
      atContext 0 (prepareMemAccess args.offOut args.sizeOut)
      let input ← atContext 0 (copyFromMem args.offIn args.sizeIn)
      enterCall kind c callee input args
    else atContext 0 (push 1)

/-- The cases of `dispatch` -/
def Opcode.exec (pf : Platform) (origin : Address) : Opcode → Run Unit
  | .onRegs op => do
    let c ← current
    atContext 0 (op.exec origin c)
  | .sload => do
    let c ← current
    let k ← atContext 0 pop
    let v ← inWorld (c.account.load pf k)
    atContext 0 (push v)
  | .codesize => do
    let c ← current
    let code ← inWorld c.account.getCode
    atContext 0 (push (BitVec.ofNat 256 code.length))
  | .extcodesize => do
    let account ← popAccount
    let code ← inWorld account.getCode
    atContext 0 (push (BitVec.ofNat 256 code.length))
  | .extcodecopy => do
    let account ← popAccount
    let code ← inWorld account.getCode
    atContext 0 (copyMem code 0)
  | .extcodehash => do
    let account ← popAccount
    let code ← inWorld account.getCode
    atContext 0 (push (wordOfBytes (keccak256 code)))
  | .balance => do
    let account ← popAccount
    let balance ← inWorld account.getBalance
    atContext 0 (push balance)
  | .selfbalance => do
    let c ← current
    let balance ← inWorld c.account.getBalance
    atContext 0 (push balance)
  | .timestamp => do
    let now ← inWorld (Exec.ask pf.timestamp)
    atContext 0 (push now)
  | .sstore => Evm.sstore pf
  | .log topics => Evm.log topics
  | .revert => do
    let output ← atContext 0 popOutput
    throw (revertError output)
  | .return_ => Evm.return_
  | .stop => Evm.stop
  | .selfdestruct => Evm.selfdestruct
  | .create salted => Evm.create pf salted
  | .call kind => Evm.call kind

/-- The operation a machine is about to perform. -/
def Machine.opcode (m : Machine) : Option Opcode :=
  m.ctxts.head?.bind fun c => c.code[c.pc]?.bind Opcode.ofByte

/-- `dispatch` -/
def dispatch (pf : Platform) (origin : Address) : Run Unit := do
  let m ← get
  match m.opcode with
  | some op => op.exec pf origin
  | none => throw (.evm .illegalInstruction)

/-- The `catch` block of `run`. -/
def handleException (type : ExceptionType) : Run Unit := do
  let c ← current
  c.handler.onException type
  popContext

/-- The `try` block of `run`, which catches `eevm::Exception` only. -/
def tryDispatch (pf : Platform) (origin : Address) : Run Unit :=
  tryCatch (dispatch pf origin) fun
    | .evm type => handleException type
    | e => throw e

/-- `Context::step` -/
def Context.step (c : Context) : Context :=
  if c.pcChanged then { c with pcChanged := false } else { c with pc := c.pc + 1 }

/-- One round of the loop of `run`: the current context steps, if there still is one. -/
def cycle (pf : Platform) (origin : Address) : Run Unit := do
  tryDispatch pf origin
  modify fun m => { m with ctxts := m.ctxts.modifyHead Context.step }

/-- The loop of `run`, and the `stop` behind it when a context ran off the end of its code. -/
def loop (pf : Platform) (origin : Address) : (fuel : Nat) → Run Unit
  | 0 => throw .outOfFuel
  | fuel + 1 => do
    let m ← get
    match m.ctxts with
    | [] => pure ()
    | c :: _ =>
      if c.pc < c.code.length then do
        cycle pf origin
        loop pf origin fuel
      else stop

/-- The machine with its first context. -/
def Machine.start (caller : Address) (callee : AccountProxy) (input code : ByteString)
    (callValue : Word) (w : World) : Machine where
  world := w
  logs := []
  selfdestructList := []
  ctxts := [⟨Regs.start, callee, caller, input, callValue, code, .outer, false⟩]
  result := ⟨.returned, []⟩

/-- Run the processor from a machine over the current world. -/
def execute (start : World → Machine) (x : Run Unit) : Exec Machine := fun w =>
  match x (start w) with
  | .ok _ m => .ok m m.world
  | .error e m => .error e m.world

/-- `Processor::run`, with the logs that were handed to the log handler. The transaction's origin
is the caller. -/
def run (pf : Platform) (fuel : Nat) (caller : Address) (callee : AccountProxy)
    (input : ByteString) (callValue : Word) : Exec (ExecResult × List LogEntry) := do
  let code ← callee.getCode
  let m ← execute (Machine.start caller callee input code callValue) (loop pf caller fuel)
  m.selfdestructList.forM remove
  pure (m.result, m.logs)

end CloakBridge.Evm
