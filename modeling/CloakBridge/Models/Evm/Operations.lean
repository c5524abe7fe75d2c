import CloakBridge.Models.Tee.TransactionSync

/-!
# The operations of one context

`Regs` is what an operation on a single context can change. The operations follow
`processor.cpp` and `stack.cpp`; an exception keeps the changes made before it. Lengths
and offsets are natural numbers, and a sum that would leave 64 bits is above the memory
limit in any case.
-/

namespace CloakBridge.Evm

open Tee (Error ExceptionType Address LogEntry)

/-- What an operation on one context can change. -/
structure Regs where
  pc : Nat
  pcChanged : Bool
  mem : ByteString
  stack : List Word
  returnData : ByteString
  deriving DecidableEq, Repr

/-- A context that did not execute anything yet. -/
def Regs.start : Regs := ⟨0, true, [], [], []⟩

/-- Code that works on one context. -/
abbrev Local := EStateM Error Regs

/-- `throw Exception(ET::.., ..)` -/
def raise {α : Type} (type : ExceptionType) : Local α := throw (.evm type)

/-- `Stack::MAX_SIZE` -/
def maxStackSize : Nat := 1024

/-- `Consts::MAX_MEM_SIZE` -/
def maxMemSize : Nat := 2 ^ 25

/-- `Stack::pop` -/
def pop : Local Word := do
  let r ← get
  match r.stack with
  | [] => raise .outOfBounds
  | val :: st => do
    set { r with stack := st }
    pure val

/-- `Stack::pop64` -/
def pop64 : Local Nat := do
  let val ← pop
  if 2 ^ 64 ≤ val.toNat then raise .outOfBounds else pure val.toNat

/-- `_Processor::pop_addr` -/
def popAddr : Local Address := do
  let val ← pop
  pure (val &&& (2 ^ 160 - 1))

/-- Several times `Stack::pop` -/
def popMany : Nat → Local (List Word)
  | 0 => pure []
  | n + 1 => do
    let val ← pop
    let rest ← popMany n
    pure (val :: rest)

/-- `Stack::push`; only a stack of exactly the maximal size is full. -/
def push (val : Word) : Local Unit := do
  let r ← get
  if r.stack.length = maxStackSize then raise .outOfBounds
  else set { r with stack := val :: r.stack }

/-- `Stack::swap` -/
def swapStack (i : Nat) : Local Unit := do
  let r ← get
  match r.stack[0]?, r.stack[i]? with
  | some x, some y => set { r with stack := (r.stack.set 0 y).set i x }
  | _, _ => raise .outOfBounds

/-- `Stack::dup`, which does not check the size of the stack. -/
def dupStack (a : Nat) : Local Unit := do
  let r ← get
  match r.stack[a]? with
  | some x => set { r with stack := x :: r.stack }
  | none => raise .outOfBounds

/-- Grow a vector to a size, filling up with zeros. -/
def growTo (size : Nat) (mem : ByteString) : ByteString :=
  mem ++ List.replicate (size - mem.length) 0

/-- Replace the bytes from an offset on. -/
def overwrite (mem : ByteString) (offset : Nat) (bytes : ByteString) : ByteString :=
  mem.take offset ++ bytes ++ mem.drop (offset + bytes.length)

/-- `copy_mem_raw` into the memory of the context. -/
def copyMemRaw (offDst offSrc size : Nat) (src : ByteString) (pad : UInt8) : Local Unit :=
  if size = 0 then pure ()
  else if maxMemSize < offDst + size then raise .outOfBounds
  else
    let available := (src.drop offSrc).take size
    let bytes := available ++ List.replicate (size - available.length) pad
    modify fun r => { r with mem := overwrite (growTo (offDst + size) r.mem) offDst bytes }

/-- `copy_mem` -/
def copyMem (src : ByteString) (pad : UInt8) : Local Unit := do
  let offDst ← pop64
  let offSrc ← pop64
  let size ← pop64
  copyMemRaw offDst offSrc size src pad

/-- `prepare_mem_access` -/
def prepareMemAccess (offset size : Nat) : Local Unit :=
  if maxMemSize < offset + size then raise .outOfBounds
  else modify fun r => { r with mem := growTo (offset + size) r.mem }

/-- `copy_from_mem` -/
def copyFromMem (offset size : Nat) : Local ByteString := do
  prepareMemAccess offset size
  let r ← get
  pure ((r.mem.drop offset).take size)

/-- `Context::set_pc` -/
def setPc (pc : Nat) : Local Unit := modify fun r => { r with pc := pc, pcChanged := true }

/-- `Program::compute_jump_dests`, from position `i` on after skipping `skip` immediate bytes. -/
def jumpDestsFrom : (skip i : Nat) → ByteString → List Nat
  | _, _, [] => []
  | skip + 1, i, _ :: code => jumpDestsFrom skip (i + 1) code
  | 0, i, op :: code =>
    if 0x60 ≤ op ∧ op ≤ 0x7f then jumpDestsFrom (op.toNat - 0x5f) (i + 1) code
    else if op = 0x5b then i :: jumpDestsFrom 0 (i + 1) code
    else jumpDestsFrom 0 (i + 1) code

/-- `jump_to` -/
def jumpTo (code : ByteString) (newPc : Nat) : Local Unit :=
  if newPc ∈ jumpDestsFrom 0 0 code then setPc newPc else raise .illegalInstruction

/-- `DIV`, with the zero divisor set apart -/
def div (x y : Word) : Word := if y = 0 then 0 else x / y

/-- The absolute value under the sign of `get_sign`. -/
def magnitude (v : Word) : Word := if v.msb then 0 - v else v

/-- `SDIV`. The comparison `y == -1` is one with the unsigned 64-bit number. -/
def sdiv (x y : Word) : Word :=
  if y = 0 then 0
  else if x = 2 ^ 255 ∧ y = 2 ^ 64 - 1 then x
  else
    let z := magnitude x / magnitude y
    if x.msb ≠ y.msb then 0 - z else z

/-- `MOD` -/
def mod (x m : Word) : Word := if m = 0 then 0 else x % m

/-- `SMOD` -/
def smod (x m : Word) : Word :=
  if m = 0 then 0
  else
    let z := magnitude x % magnitude m
    if x.msb then 0 - z else z

/-- `ADDMOD`; the sum is reduced to 256 bits first. -/
def addmod (x y m : Word) : Word := if m = 0 then 0 else (x + y) % m

/-- `MULMOD`; the product is reduced to 256 bits first. -/
def mulmod (x y m : Word) : Word := if m = 0 then m else (x * y) % m

/-- `SIGNEXTEND` -/
def signextend (x y : Word) : Word :=
  if 32 ≤ x then y
  else
    let idx := 8 * x.toNat + 7
    let sign := y.getLsbD idx
    let mask := BitVec.allOnes 256 >>> (256 - idx)
    ((if sign then BitVec.allOnes 256 else 0) <<< idx) ||| (y &&& mask)

/-- A truth value on the stack. -/
def ofBool (b : Bool) : Word := if b then 1 else 0

/-- `SLT` -/
def slt (x y : Word) : Word :=
  if x = y then 0
  else if x.msb ≠ y.msb then ofBool x.msb
  else ofBool (x < y)

/-- `SHL` -/
def shl (shift value : Word) : Word := value <<< shift.toNat

/-- `SHR` -/
def shr (shift value : Word) : Word := value >>> shift.toNat

/-- `SAR` -/
def sar (y x : Word) : Word :=
  let signMask := if x.msb then BitVec.allOnes 256 else 0
  let maskShift := if y < 256 then 256 - y.toNat else 0
  (x >>> y.toNat) ||| (signMask <<< maskShift)

/-- Operations with two operands. -/
def binary (f : Word → Word → Word) : Local Unit := do
  let x ← pop
  let y ← pop
  push (f x y)

/-- Operations with three operands. -/
def ternary (f : Word → Word → Word → Word) : Local Unit := do
  let x ← pop
  let y ← pop
  let m ← pop
  push (f x y m)

/-- Operations with one operand. -/
def unary (f : Word → Word) : Local Unit := do
  let x ← pop
  push (f x)

/-- `EXP` -/
def exp : Local Unit := do
  let b ← pop
  let e ← pop64
  push (b ^ e)

/-- `SGT`, which needs two operands to exchange. -/
def sgt : Local Unit := do
  swapStack 1
  binary slt

/-- `BYTE`; an index of 32 or more leaves the value on the stack. -/
def byte : Local Unit := do
  let idx ← pop
  if 32 ≤ idx then push 0
  else do
    let shift := 256 - 8 - 8 * idx.toNat
    let val ← pop
    push ((val &&& ((255 : Word) <<< shift)) >>> shift)

/-- `JUMP` -/
def jump (code : ByteString) : Local Unit := do
  let newPc ← pop64
  jumpTo code newPc

/-- `JUMPI` -/
def jumpi (code : ByteString) : Local Unit := do
  let newPc ← pop64
  let cond ← pop
  if cond ≠ 0 then jumpTo code newPc

/-- `PC` -/
def pc : Local Unit := do
  let r ← get
  push (BitVec.ofNat 256 r.pc)

/-- `MSIZE` -/
def msize : Local Unit := do
  let r ← get
  push (BitVec.ofNat 256 ((r.mem.length + 31) / 32 * 32))

/-- `MLOAD` -/
def mload : Local Unit := do
  let offset ← pop64
  let bytes ← copyFromMem offset 32
  push (wordOfBytes bytes)

/-- `MSTORE` -/
def mstore : Local Unit := do
  let offset ← pop64
  let word ← pop
  prepareMemAccess offset 32
  modify fun r => { r with mem := overwrite r.mem offset (wordBytes word) }

/-- `MSTORE8` -/
def mstore8 : Local Unit := do
  let offset ← pop64
  let word ← pop
  prepareMemAccess offset 1
  modify fun r => { r with mem := overwrite r.mem offset [UInt8.ofNat word.toNat] }

/-- `SHA3` -/
def sha3 : Local Unit := do
  let offset ← pop64
  let size ← pop64
  let bytes ← copyFromMem offset size
  push (wordOfBytes (Tee.keccak256 bytes))

/-- `RETURNDATASIZE` -/
def returndatasize : Local Unit := do
  let r ← get
  push (BitVec.ofNat 256 r.returnData.length)

/-- `RETURNDATACOPY` -/
def returndatacopy : Local Unit := do
  let r ← get
  copyMem r.returnData 0

/-- `CALLDATALOAD`. The overflow of `safeAdd` is no `eevm::Exception`. -/
def calldataload (input : ByteString) : Local Unit := do
  let offset ← pop64
  if 2 ^ 64 ≤ offset + 32 then throw .integerOverflow
  else push (wordOfBytes (growTo 32 ((input.drop offset).take 32)))

/-- `PUSH0` to `PUSH32` -/
def pushBytes (code : ByteString) (bytes : Nat) : Local Unit := do
  let r ← get
  if code.length ≤ r.pc + bytes then raise .outOfBounds
  else do
    push (BitVec.ofNat 256 (fromBigEndian ((code.drop (r.pc + 1)).take bytes)))
    setPc (r.pc + 1 + bytes)

/-- `BLOCKHASH`; `get_block_hash` is constantly zero. -/
def blockhash : Local Unit := do
  let _ ← pop64
  push 0

/-- The entry that `LOG0` to `LOG4` hand to the log handler. -/
def logEntry (address : Address) (n : Nat) : Local LogEntry := do
  let offset ← pop64
  let size ← pop64
  let topics ← popMany n
  let data ← copyFromMem offset size
  pure ⟨address, data, topics⟩

/-- The two operands of `RETURN` and `REVERT` with the memory they name. -/
def popOutput : Local ByteString := do
  let offset ← pop64
  let size ← pop64
  copyFromMem offset size

/-- What `REVERT` throws. Before its exception is made, `parse_revert` cuts the reason out of the
output: what is behind the selector and an offset is its length and its bytes. Neither is checked
against the size. The reason itself is not kept. -/
def revertError (output : ByteString) : Error :=
  let src := output.drop 36
  let offset := fromBigEndian (src.take 32) % 2 ^ 64
  if output = [] then .evm .revert
  else if output.length < 36 ∨ src.length < 32 + offset then .undefined
  else .evm .revert

end CloakBridge.Evm
