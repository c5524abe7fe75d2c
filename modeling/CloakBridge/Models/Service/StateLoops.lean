import CloakBridge.Core.Effect
import CloakBridge.Core.Memory
import CloakBridge.Models.Service.Ledger
import CloakBridge.Models.Service.StateStorage

/-!
# The loops of `StateStorage`

`generateStateHash` and `sstore` walk over arrays in memory by raw pointers, two cursors
in parallel, against an end that is computed in advance. Pointers are words and wrap
around. A loop is given the number of rounds that its gas pays for.
-/

namespace CloakBridge.Service.StateStorage

open List

/-- What the two functions work on. -/
structure CallState where
  memory : Memory
  storage : Word → Word

abbrev Yul := EStateM Revert CallState

def mload (p : Word) : Yul Word := do
  let f ← get
  pure (f.memory.load p.toNat)

def mstore (p value : Word) : Yul Unit :=
  modify fun f => { f with memory := f.memory.store p.toNat value }

def sload (slot : Word) : Yul Word := do
  let f ← get
  pure (f.storage slot)

/-- The operation `sstore`. -/
def storeSlot (slot value : Word) : Yul Unit :=
  modify fun f => { f with storage := Function.update f.storage slot value }

/-- Where the free memory pointer is kept. -/
def freePointer : Word := 0x40

/-- Multiplication of Solidity numbers. -/
def checkedMul (a b : Word) : Yul Word :=
  if a.toNat * b.toNat < 2 ^ 256 then pure (a * b) else throw (.panic 0x11)

/-- A size rounded up to whole words. -/
def roundUp (size : Word) : Word := (size + 31) / 32 * 32

/-- `new bytes(size)`: a length and zeros, behind everything allocated so far. -/
def newBytes (size : Word) : Yul Word := do
  if 0xffffffffffffffff < size then
    throw (.panic 0x41)
  else do
    let free ← mload freePointer
    let newFree := free + (roundUp size + 0x20)
    if 0xffffffffffffffff < newFree ∨ newFree < free then
      throw (.panic 0x41)
    else do
      mstore freePointer newFree
      mstore free size
      modify fun f => { f with
        memory := f.memory.write (free + 0x20).toNat (List.replicate (roundUp size).toNat 0) }
      pure free

/-- The loop of `generateStateHash` -/
def hashLoop (end_ : Word) : Nat → Word → Word → Yul Unit
  | 0, _, _ => throw .empty
  | gas + 1, keyPointer, valPointer =>
    if keyPointer < end_ then do
      let key ← mload keyPointer
      let value ← sload key
      mstore valPointer value
      hashLoop end_ gas (keyPointer + 0x20) (valPointer + 0x20)
    else pure ()

/-- The loop of `sstore` -/
def storeLoop (end_ : Word) : Nat → Word → Word → Yul Unit
  | 0, _, _ => throw .empty
  | gas + 1, keyPointer, valPointer =>
    if keyPointer < end_ then do
      let key ← mload keyPointer
      let value ← mload valPointer
      storeSlot key value
      storeLoop end_ gas (keyPointer + 0x20) (valPointer + 0x20)
    else pure ()

/-- `keccak256` of a byte string in memory -/
def keccak256 (p : Word) : Yul ByteString := do
  let f ← get
  pure (Keccak.keccak256 (f.memory.read (p.toNat + 0x20) (f.memory.load p.toNat).toNat))

def generateStateHash (gas : Nat) (keys : Word) : Yul ByteString := do
  let count ← mload keys
  if ¬(0 < count) then
    throw (.reason "State: length cannot be empty")
  else do
    let size ← checkedMul count 32
    let vals ← newBytes size
    let length ← mload keys
    hashLoop (keys + 0x20 + 0x20 * length) gas (keys + 0x20) (vals + 0x20)
    keccak256 vals

def sstore (gas : Nat) (keys vals : Word) : Yul Unit := do
  let count ← mload keys
  let count' ← mload vals
  if count ≠ count' then
    throw (.reason "State: length is unequal")
  else do
    let length ← mload keys
    storeLoop (keys + 0x20 + 0x20 * length) gas (keys + 0x20) (vals + 0x20)

/-- An array in memory: its length and its elements, in the part of memory that is allocated. -/
structure ArrayAt (m : Memory) (p : Word) (xs : List Word) : Prop where
  start : 0x60 ≤ p.toNat
  finish : p.toNat + 32 + 32 * xs.length ≤ (m.load freePointer.toNat).toNat
  length_eq : (m.load p.toNat).toNat = xs.length
  words_eq : m.words (p.toNat + 32) xs.length = xs

/-- The slots after a list of writes. -/
def writeSlots (storage : Word → Word) (entries : List (Word × Word)) : Word → Word :=
  entries.foldl (fun storage entry => Function.update storage entry.1 entry.2) storage

variable {slot value end_ keyPointer valPointer size : Word} {m : Memory} {n gas : Nat}
  {keys vals : List Word}

private theorem writeSlots_of_not_mem {entries : List (Word × Word)}
    (h : slot ∉ entries.map Prod.fst)
    (storage : Word → Word) : writeSlots storage entries slot = storage slot := by
  induction entries generalizing storage with
  | nil => rfl
  | cons entry entries ih =>
    rw [map_cons, mem_cons, not_or] at h
    obtain ⟨hne, hrest⟩ := h
    rw [writeSlots, foldl_cons]
    exact (ih hrest _).trans (Function.update_of_ne hne _ _)

private theorem writeSlots_of_last {before after : List (Word × Word)}
    (h : slot ∉ after.map Prod.fst)
    (storage : Word → Word) :
    writeSlots storage (before ++ (slot, value) :: after) slot = value := by
  rw [writeSlots, foldl_append, foldl_cons]
  exact (writeSlots_of_not_mem h _).trans (Function.update_self _ _ _)

private theorem storeLoop_of_lt (h : keyPointer < end_) (gas : Nat) (m : Memory)
    (storage : Word → Word) :
    storeLoop end_ (gas + 1) keyPointer valPointer ⟨m, storage⟩ =
      storeLoop end_ gas (keyPointer + 0x20) (valPointer + 0x20)
        ⟨m, Function.update storage (m.load keyPointer.toNat) (m.load valPointer.toNat)⟩ := by
  rw [storeLoop, if_pos h]
  rfl

/-- The loop of `sstore` writes the words behind the one cursor to the slots named behind the
other. -/
theorem storeLoop_eq (n : Nat) :
    ∀ (gas : Nat) (keyPointer valPointer : Word) (storage : Word → Word), n < gas →
      keyPointer.toNat + 32 * n = end_.toNat → valPointer.toNat + 32 * n < 2 ^ 256 →
        storeLoop end_ gas keyPointer valPointer ⟨m, storage⟩ = .ok () ⟨m, writeSlots storage
          ((m.words keyPointer.toNat n).zip (m.words valPointer.toNat n))⟩ := by
  induction n with
  | zero =>
    intro gas keyPointer valPointer storage hgas hend _
    obtain ⟨gas, rfl⟩ := Nat.exists_eq_add_one_of_ne_zero hgas.ne'
    rw [storeLoop, if_neg (by rw [BitVec.lt_def]; omega)]
    rfl
  | succ n ih =>
    intro gas keyPointer valPointer storage hgas hend hval
    obtain ⟨gas, rfl⟩ := Nat.exists_eq_add_one_of_ne_zero (Nat.ne_zero_of_lt hgas)
    have hkey := end_.isLt
    have hnextKey : (keyPointer + 0x20).toNat = keyPointer.toNat + 32 := by bv_omega
    have hnextVal : (valPointer + 0x20).toNat = valPointer.toNat + 32 := by bv_omega
    rw [storeLoop_of_lt (by rw [BitVec.lt_def]; omega),
      ih gas _ _ _ (by omega) (by omega) (by omega), hnextKey, hnextVal]
    rfl

private theorem hashLoop_of_lt (h : keyPointer < end_) (gas : Nat) (m : Memory)
    (storage : Word → Word) :
    hashLoop end_ (gas + 1) keyPointer valPointer ⟨m, storage⟩ =
      hashLoop end_ gas (keyPointer + 0x20) (valPointer + 0x20)
        ⟨m.store valPointer.toNat (storage (m.load keyPointer.toNat)), storage⟩ := by
  rw [hashLoop, if_pos h]
  rfl

/-- The loop of `generateStateHash` leaves the values of the slots behind the second cursor, if
that one starts beyond the keys. -/
theorem hashLoop_eq {storage : Word → Word} (n : Nat) :
    ∀ (gas : Nat) (keyPointer valPointer : Word) (m : Memory), n < gas →
      keyPointer.toNat + 32 * n = end_.toNat → end_ ≤ valPointer →
        valPointer.toNat + 32 * n < 2 ^ 256 → hashLoop end_ gas keyPointer valPointer ⟨m, storage⟩ =
            .ok () ⟨m.write valPointer.toNat ((m.words keyPointer.toNat n).flatMap fun key =>
              wordBytes (storage key)), storage⟩ := by
  induction n with
  | zero =>
    intro gas keyPointer valPointer m hgas hend _ _
    obtain ⟨gas, rfl⟩ := Nat.exists_eq_add_one_of_ne_zero hgas.ne'
    rw [hashLoop, if_neg (by rw [BitVec.lt_def]; omega), Memory.words, flatMap_nil,
      Memory.write_nil]
    rfl
  | succ n ih =>
    intro gas keyPointer valPointer m hgas hend hle hval
    obtain ⟨gas, rfl⟩ := Nat.exists_eq_add_one_of_ne_zero (Nat.ne_zero_of_lt hgas)
    rw [BitVec.le_def] at hle
    have hnextKey : (keyPointer + 0x20).toNat = keyPointer.toNat + 32 := by bv_omega
    have hnextVal : (valPointer + 0x20).toNat = valPointer.toNat + 32 := by bv_omega
    rw [hashLoop_of_lt (by rw [BitVec.lt_def]; omega),
      ih gas _ _ _ (by omega) (by omega) (by rw [BitVec.le_def]; omega) (by omega), hnextKey,
      hnextVal, Memory.store, Memory.words_write_of_disjoint (by omega), Memory.words,
      flatMap_cons, Memory.write_append, length_wordBytes]

/-- The memory behind an allocation: the new free pointer, and a length with zeros. -/
def allocated (m : Memory) (size : Word) : Memory :=
  let free := m.load freePointer.toNat
  ((m.store freePointer.toNat (free + (size + 0x20))).store free.toNat size).write
    (free.toNat + 32) (List.replicate size.toNat 0)

private theorem roundUp_of_dvd (hsize : size.toNat = 32 * n) (hlt : size.toNat < 2 ^ 64) :
    roundUp size = size := by
  apply BitVec.eq_of_toNat_eq
  have hsum : (size + 31).toNat = size.toNat + 31 := by bv_omega
  rw [roundUp, BitVec.toNat_mul, BitVec.toNat_udiv, hsum]
  have hthirtyTwo : (32 : Word).toNat = 32 := rfl
  rw [hthirtyTwo]
  omega

private theorem newBytes_eq (storage : Word → Word) (hsize : size.toNat = 32 * n)
    (hroom : (m.load freePointer.toNat).toNat + 32 + 32 * n < 2 ^ 64) : newBytes size ⟨m, storage⟩ =
      .ok (m.load freePointer.toNat) ⟨allocated m size, storage⟩ := by
  have hround := roundUp_of_dvd hsize (by omega)
  have hsmall : ¬0xffffffffffffffff < size := by
    rw [BitVec.lt_def]
    bv_omega
  have hfits : ¬(0xffffffffffffffff < m.load freePointer.toNat + (size + 0x20) ∨
      m.load freePointer.toNat + (size + 0x20) < m.load freePointer.toNat) := by
    bv_omega
  have hstart :
      (m.load freePointer.toNat + 0x20).toNat = (m.load freePointer.toNat).toNat + 32 := by
    bv_omega
  have hload : mload freePointer ⟨m, storage⟩ = .ok (m.load freePointer.toNat) ⟨m, storage⟩ := rfl
  rw [newBytes, if_neg hsmall, bind_of_ok hload, hround, if_neg hfits, hstart]
  rfl

variable {m : Memory} {p : Word} {xs : List Word}

private theorem ArrayAt.load_allocated (h : ArrayAt m p xs) (size : Word) :
    ((allocated m size).load p.toNat).toNat = xs.length := by
  have hstart := h.start
  have hfinish := h.finish
  have hfree : freePointer.toNat = 0x40 := rfl
  rw [allocated, Memory.load_write_of_disjoint (by omega), Memory.store,
    Memory.load_write_of_disjoint (by omega), Memory.store,
    Memory.load_write_of_disjoint (by rw [length_wordBytes]; omega), h.length_eq]

private theorem ArrayAt.words_allocated (h : ArrayAt m p xs) (size : Word) :
    (allocated m size).words (p.toNat + 32) xs.length = xs := by
  have hstart := h.start
  have hfinish := h.finish
  have hfree : freePointer.toNat = 0x40 := rfl
  rw [allocated, Memory.words_write_of_disjoint (by omega), Memory.store,
    Memory.words_write_of_disjoint (by omega), Memory.store,
    Memory.words_write_of_disjoint (by rw [length_wordBytes]; omega), h.words_eq]

private theorem ArrayAt.end_eq (h : ArrayAt m p xs) {length : Word}
    (hlength : length.toNat = xs.length) :
    (p + 0x20).toNat = p.toNat + 32 ∧
      (p + 0x20 + 0x20 * length).toNat = p.toNat + 32 + 32 * xs.length := by
  have hfinish := h.finish
  have hlt := (m.load freePointer.toNat).isLt
  have hpointer : (p + 0x20).toNat = p.toNat + 32 := by bv_omega
  refine ⟨hpointer, ?_⟩
  rw [BitVec.toNat_add, BitVec.toNat_mul, hpointer, hlength]
  have hthirtyTwo : (0x20 : Word).toNat = 32 := rfl
  rw [hthirtyTwo, Nat.mod_eq_of_lt (a := 32 * xs.length) (by omega), Nat.mod_eq_of_lt (by omega)]

private theorem length_copyStates (storage : Word → Word) (keys : List Word) :
    (copyStates storage keys).length = 32 * keys.length := by
  rw [copyStates_eq_flatMap, length_flatMap]
  simp [Nat.mul_comm]

private theorem ArrayAt.hashLoop_allocated (h : ArrayAt m p xs) (hgas : xs.length < gas)
    (hroom : (m.load freePointer.toNat).toNat + 32 + 32 * xs.length < 2 ^ 64) (size : Word)
    (storage : Word → Word) :
    hashLoop (p + 0x20 + 0x20 * (allocated m size).load p.toNat) gas (p + 0x20)
        (m.load freePointer.toNat + 0x20) ⟨allocated m size, storage⟩ =
      .ok () ⟨(allocated m size).write ((m.load freePointer.toNat).toNat + 32)
        (copyStates storage xs), storage⟩ := by
  have hfinish := h.finish
  obtain ⟨hpointer, hend⟩ := h.end_eq (h.load_allocated size)
  have hvals : (m.load freePointer.toNat + 0x20).toNat = (m.load freePointer.toNat).toNat + 32 := by
    bv_omega
  have hle : p + 0x20 + 0x20 * (allocated m size).load p.toNat ≤
      m.load freePointer.toNat + 0x20 := by
    rw [BitVec.le_def, hend, hvals]
    omega
  rw [hashLoop_eq xs.length gas _ _ _ hgas (by rw [hpointer, hend]) hle (by omega), hpointer, hvals,
    h.words_allocated, copyStates_eq_flatMap]

private theorem keccak256_written {bs : ByteString} (hsize : bs.length = size.toNat)
    (storage : Word → Word) :
    keccak256 (m.load freePointer.toNat)
        ⟨(allocated m size).write ((m.load freePointer.toNat).toNat + 32) bs, storage⟩ =
      .ok (Keccak.keccak256 bs)
        ⟨(allocated m size).write ((m.load freePointer.toNat).toNat + 32) bs, storage⟩ := by
  have hlength : ((allocated m size).write ((m.load freePointer.toNat).toNat + 32) bs).load
      (m.load freePointer.toNat).toNat = size := by
    rw [Memory.load_write_of_disjoint (Or.inl le_rfl), allocated,
      Memory.load_write_of_disjoint (Or.inl le_rfl), Memory.load_store_self]
  have hread := (allocated m size).read_write_self ((m.load freePointer.toNat).toNat + 32) bs
  rw [hsize] at hread
  have hrun : keccak256 (m.load freePointer.toNat)
      ⟨(allocated m size).write ((m.load freePointer.toNat).toNat + 32) bs, storage⟩ =
        .ok (Keccak.keccak256 (((allocated m size).write
          ((m.load freePointer.toNat).toNat + 32) bs).read
            ((m.load freePointer.toNat).toNat + 0x20)
              (((allocated m size).write ((m.load freePointer.toNat).toNat + 32) bs).load
                (m.load freePointer.toNat).toNat).toNat))
        ⟨(allocated m size).write ((m.load freePointer.toNat).toNat + 32) bs, storage⟩ := rfl
  rw [hrun, hlength, hread]

/-- `generateStateHash` hashes the values of the slots, in the order of the keys. -/
theorem generateStateHash_eq (h : ArrayAt m p xs) (hne : xs ≠ []) (hgas : xs.length < gas)
    (hroom : (m.load freePointer.toNat).toNat + 32 + 32 * xs.length < 2 ^ 64)
    (storage : Word → Word) : ∃ m', generateStateHash gas p ⟨m, storage⟩ =
      .ok (Keccak.keccak256 (copyStates storage xs)) ⟨m', storage⟩ := by
  have hcount := h.length_eq
  have hpos := length_pos_iff.mpr hne
  have hload : mload p ⟨m, storage⟩ = .ok (m.load p.toNat) ⟨m, storage⟩ := rfl
  have hnonempty : ¬¬0 < m.load p.toNat := by
    rw [not_not, BitVec.lt_def]
    exact hcount.symm ▸ hpos
  have hproduct : (m.load p.toNat).toNat * (32 : Word).toNat = 32 * xs.length := by
    rw [hcount, Nat.mul_comm]
    rfl
  have hmul : checkedMul (m.load p.toNat) 32 ⟨m, storage⟩ =
      .ok (m.load p.toNat * 32) ⟨m, storage⟩ := by
    rw [checkedMul, if_pos (by omega)]
    rfl
  have hsize : (m.load p.toNat * 32).toNat = 32 * xs.length := by
    rw [BitVec.toNat_mul, hproduct, Nat.mod_eq_of_lt (by omega)]
  have hreload : mload p ⟨allocated m (m.load p.toNat * 32), storage⟩ =
      .ok ((allocated m (m.load p.toNat * 32)).load p.toNat)
        ⟨allocated m (m.load p.toNat * 32), storage⟩ := rfl
  rw [generateStateHash, bind_of_ok hload, if_neg hnonempty, bind_of_ok hmul,
    bind_of_ok (newBytes_eq storage hsize hroom), bind_of_ok hreload,
    bind_of_ok (h.hashLoop_allocated hgas hroom _ storage)]
  exact ⟨_, keccak256_written ((length_copyStates storage xs).trans hsize.symm) storage⟩

variable {q : Word} {ys : List Word}

/-- `sstore` writes every value to the slot of its key, one after the other. -/
theorem sstore_eq (hx : ArrayAt m p xs) (hy : ArrayAt m q ys) (hlength : xs.length = ys.length)
    (hgas : xs.length < gas) (storage : Word → Word) :
    sstore gas p q ⟨m, storage⟩ = .ok () ⟨m, writeSlots storage (xs.zip ys)⟩ := by
  have hcount : ¬m.load p.toNat ≠ m.load q.toNat := by
    rw [not_not]
    exact BitVec.eq_of_toNat_eq ((hx.length_eq.trans hlength).trans hy.length_eq.symm)
  have hloadx : mload p ⟨m, storage⟩ = .ok (m.load p.toNat) ⟨m, storage⟩ := rfl
  have hloady : mload q ⟨m, storage⟩ = .ok (m.load q.toNat) ⟨m, storage⟩ := rfl
  have hfinish := hy.finish
  have hlt := (m.load freePointer.toNat).isLt
  obtain ⟨hpointer, hend⟩ := hx.end_eq hx.length_eq
  have hvals := (hy.end_eq hy.length_eq).1
  rw [sstore, bind_of_ok hloadx, bind_of_ok hloady, if_neg hcount, bind_of_ok hloadx,
    storeLoop_eq xs.length gas _ _ _ hgas (by rw [hpointer, hend]) (by omega), hpointer, hvals,
    hx.words_eq, hlength, hy.words_eq]

private theorem writeSlots_zip_of_last (hlength : keys.length = vals.length) {i : Nat} {key : Word}
    (hkey : keys[i]? = some key) (hvalue : vals[i]? = some value)
    (hlast : ∀ j, i < j → keys[j]? ≠ some key) (storage : Word → Word) :
    writeSlots storage (keys.zip vals) key = value := by
  have hentry : (keys.zip vals)[i]? = some (key, value) :=
    List.getElem?_zip_eq_some.mpr ⟨hkey, hvalue⟩
  obtain ⟨hi, hget⟩ := List.getElem?_eq_some_iff.mp hentry
  have hsplit : keys.zip vals = (keys.zip vals).take i ++ (key, value) ::
      (keys.zip vals).drop (i + 1) := by
    rw [← hget, getElem_cons_drop, take_append_drop]
  have hafter : key ∉ ((keys.zip vals).drop (i + 1)).map Prod.fst := by
    rw [map_drop, map_fst_zip hlength.le]
    intro hmem
    obtain ⟨j, hj⟩ := mem_iff_getElem?.mp hmem
    rw [List.getElem?_drop] at hj
    exact hlast _ (by omega) hj
  rw [hsplit, writeSlots_of_last hafter]

private theorem map_writeSlots_zip (hlength : keys.length = vals.length) (hdistinct : keys.Nodup)
    (storage : Word → Word) : keys.map (writeSlots storage (keys.zip vals)) = vals := by
  apply ext_getElem (by rw [length_map, hlength])
  intro i hi hvals
  rw [length_map] at hi
  rw [getElem_map]
  refine writeSlots_zip_of_last hlength (List.getElem?_eq_getElem hi)
    (List.getElem?_eq_getElem hvals) (fun j hij hj => ?_) storage
  obtain ⟨hjlt, hjget⟩ := List.getElem?_eq_some_iff.mp hj
  exact hij.ne (hdistinct.getElem_inj_iff.mp hjget.symm)

/-- `sstore` leaves every slot of its keys with the value paired last with it and all other slots
alone, `generateStateHash` hashes the current values in the order of the keys, and of distinct keys
that were just stored it hashes the values stored. -/
theorem sstore_then_generateStateHash {f : CallState} {keysAt valsAt : Word} {keys vals : List Word}
    {gas : Nat} (hkeys : ArrayAt f.memory keysAt keys) (hvals : ArrayAt f.memory valsAt vals)
    (hlength : keys.length = vals.length) (hgas : keys.length < gas)
    (hroom : (f.memory.load freePointer.toNat).toNat + 32 + 32 * keys.length < 2 ^ 64) :
    ∃ after, sstore gas keysAt valsAt f = .ok () ⟨f.memory, after⟩ ∧
      (∀ (i : Nat) (key value : Word), keys[i]? = some key → vals[i]? = some value →
        (∀ j, i < j → keys[j]? ≠ some key) → after key = value) ∧
      (∀ slot, slot ∉ keys → after slot = f.storage slot) ∧
      (keys ≠ [] → ∀ storage, ∃ m, generateStateHash gas keysAt ⟨f.memory, storage⟩ =
        .ok (Keccak.keccak256 (keys.flatMap fun key => wordBytes (storage key))) ⟨m, storage⟩) ∧
      (keys ≠ [] → keys.Nodup → ∃ m, generateStateHash gas keysAt ⟨f.memory, after⟩ =
        .ok (Keccak.keccak256 (vals.flatMap wordBytes)) ⟨m, after⟩) := by
  have hhash : keys ≠ [] → ∀ storage, ∃ m, generateStateHash gas keysAt ⟨f.memory, storage⟩ =
      .ok (Keccak.keccak256 (keys.flatMap fun key => wordBytes (storage key))) ⟨m, storage⟩ := by
    intro hne storage
    rw [← copyStates_eq_flatMap]
    exact generateStateHash_eq hkeys hne hgas hroom storage
  refine ⟨_, sstore_eq hkeys hvals hlength hgas f.storage, ?_, ?_, hhash, ?_⟩
  · intro i key value hkey hvalue hlast
    exact writeSlots_zip_of_last hlength hkey hvalue hlast f.storage
  · intro slot hslot
    refine writeSlots_of_not_mem ?_ f.storage
    rwa [map_fst_zip hlength.le]
  · intro hne hdistinct
    have hstored := map_writeSlots_zip hlength hdistinct f.storage
    obtain ⟨m', hrun⟩ := hhash hne (writeSlots f.storage (keys.zip vals))
    rw [← flatMap_map, hstored] at hrun
    exact ⟨m', hrun⟩

/-- Two arrays of two words each, below the free pointer. -/
def sampleMemory : Memory :=
  ((((((Memory.mk fun _ => 0).store 0x40 0x140).store 0x80 2).store 0xa0 7).store 0xc0 9).store
    0xe0 2).store 0x100 5 |>.store 0x120 6

private theorem sample_arrays :
    ArrayAt sampleMemory 0x80 [7, 9] ∧ ArrayAt sampleMemory 0xe0 [5, 6] :=
  ⟨⟨by decide, by decide, by decide, by decide⟩, ⟨by decide, by decide, by decide, by decide⟩⟩

/-- Two slots are stored and hashed. -/
theorem sstore_seven_nine : ∃ after,
    sstore 3 0x80 0xe0 ⟨sampleMemory, fun _ => 0⟩ = .ok () ⟨sampleMemory, after⟩ ∧
      after 9 = 6 ∧ after 8 = 0 ∧ ∃ m, generateStateHash 3 0x80 ⟨sampleMemory, after⟩ =
          .ok (Keccak.keccak256 (wordBytes 5 ++ wordBytes 6)) ⟨m, after⟩ := by
  obtain ⟨hkeys, hvals⟩ := sample_arrays
  obtain ⟨after, hrun, hlast, hother, -, hhash⟩ := sstore_then_generateStateHash
    (f := ⟨sampleMemory, fun _ => 0⟩) hkeys hvals rfl (show _ < 3 by decide) (by decide)
  refine ⟨after, hrun, ?_, hother 8 (by decide), hhash (by decide) (by decide)⟩
  refine hlast 1 9 6 rfl rfl fun j hj => ?_
  rw [List.getElem?_eq_none hj]
  exact Option.some_ne_none _ ∘ Eq.symm

end CloakBridge.Service.StateStorage
