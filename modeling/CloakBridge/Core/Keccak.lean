import CloakBridge.Core.Bytes

/-!
# The Keccak-256 hash

The sponge with rate 136 bytes over the 24-round permutation of 25 lanes, with the
original Keccak padding byte `0x01`. Every definition is structurally recursive, so the
kernel computes digests. Results about the hash never look inside: they use that a digest
has 32 bytes, and name a collision where one would be needed.
-/

namespace CloakBridge.Keccak

open List

/-- One 64-bit lane of the permutation state. -/
abbrev Lane := BitVec 64

/-- Lane `i`, with absent lanes read as zero. -/
def lane (A : List Lane) (i : Nat) : Lane := A.getD i 0

/-- Rotate a lane to the left. -/
def rotl (q : Lane) (n : Nat) : Lane := (q <<< n) ^^^ (q >>> (64 - n))

/-- Packed round constants: bit `j` of an entry selects bit `2 ^ j - 1` of the lane. -/
def roundInfo : List Nat :=
  [1, 26, 94, 112, 31, 33, 121, 85, 14, 12, 53, 38, 63, 79, 93, 83, 82, 72, 22, 102, 121, 88,
    33, 116]

/-- The cycle of lane positions followed by the pi step. -/
def piCycle : List Nat :=
  [1, 6, 9, 22, 14, 20, 2, 12, 13, 19, 23, 15, 4, 24, 21, 8, 16, 5, 3, 18, 17, 11, 7, 10]

/-- The rotation offsets of lanes `1` to `24`. -/
def rhoOffsets : List Nat :=
  [1, 62, 28, 27, 36, 44, 6, 55, 20, 3, 10, 43, 25, 39, 41, 45, 15, 21, 8, 18, 2, 61, 56, 14]

/-- The constant added to lane zero in one round. -/
def roundConstant (round : Nat) : Lane :=
  [(6, 63), (5, 31), (4, 15), (3, 7), (2, 3), (1, 1), (0, 0)].foldl
    (fun acc bit => if (roundInfo.getD round 0).testBit bit.1 then acc ||| (1 <<< bit.2) else acc) 0

/-- Column parities, one for each of the five columns. -/
def columns (A : List Lane) : List Lane :=
  (List.range 5).map fun i =>
    lane A i ^^^ lane A (i + 5) ^^^ lane A (i + 10) ^^^ lane A (i + 15) ^^^ lane A (i + 20)

/-- Add the parities of the two neighbouring columns to every lane. -/
def theta (A : List Lane) : List Lane :=
  let C := columns A
  let D := (List.range 5).map fun i => rotl (lane C ((i + 1) % 5)) 1 ^^^ lane C ((i + 4) % 5)
  A.mapIdx fun i a => a ^^^ lane D (i % 5)

/-- Rotate every lane but the first by its own offset. -/
def rho (A : List Lane) : List Lane :=
  A.mapIdx fun i a => if i = 0 then a else rotl a (rhoOffsets.getD (i - 1) 0)

/-- Move the lanes along the pi cycle. -/
def pi (A : List Lane) : List Lane :=
  ((List.range 23).foldl
    (fun B i => B.set (piCycle.getD i 0) (lane B (piCycle.getD (i + 1) 0))) A).set 10 (lane A 1)

/-- The nonlinear step, row by row. -/
def chi (A : List Lane) : List Lane :=
  A.mapIdx fun i a =>
    a ^^^ (~~~lane A (i / 5 * 5 + (i + 1) % 5) &&& lane A (i / 5 * 5 + (i + 2) % 5))

/-- Add the round constant to the first lane. -/
def iota (round : Nat) : List Lane → List Lane
  | [] => []
  | a :: A => (a ^^^ roundConstant round) :: A

/-- The 24-round permutation. -/
def permutation (A : List Lane) : List Lane :=
  (List.range 24).foldl (fun A round => iota round (chi (pi (rho (theta A))))) A

/-- A lane from at most eight little-endian bytes. -/
def laneOfBytes (bs : ByteString) : Lane :=
  bs.foldr (fun b acc => (acc <<< 8) ||| b.toBitVec.setWidth 64) 0

/-- The eight little-endian bytes of a lane. -/
def laneBytes (q : Lane) : ByteString :=
  (List.range 8).map fun i => UInt8.ofNat (q.toNat >>> (8 * i))

/-- Bytes absorbed by one application of the permutation. -/
def blockSize : Nat := 136

/-- Absorb one full block. -/
def processBlock (A : List Lane) (block : ByteString) : List Lane :=
  permutation (A.mapIdx fun i a =>
    if i < 17 then a ^^^ laneOfBytes ((block.drop (8 * i)).take 8) else a)

/-- The last block: the leftover bytes, the bit after them, and the final bit of the block. -/
def pad (rest : ByteString) : ByteString :=
  let block := rest ++ List.replicate (blockSize - rest.length) 0
  let block := block.set rest.length (block.getD rest.length 0 ||| 0x01)
  block.set (blockSize - 1) (block.getD (blockSize - 1) 0 ||| 0x80)

/-- Absorb the message block by block; `blocks` bounds the number of full blocks. -/
def absorb : (blocks : Nat) → List Lane → ByteString → List Lane
  | 0, A, msg => processBlock A (pad msg)
  | blocks + 1, A, msg =>
    if msg.length < blockSize then processBlock A (pad msg)
    else absorb blocks (processBlock A (msg.take blockSize)) (msg.drop blockSize)

/-- The Keccak-256 digest of a byte string. -/
def keccak256 (msg : ByteString) : ByteString :=
  ((absorb (msg.length / blockSize) (List.replicate 25 0) msg).take 4).flatMap laneBytes

private theorem length_theta (A : List Lane) : (theta A).length = A.length := by simp [theta]

private theorem length_rho (A : List Lane) : (rho A).length = A.length := by simp [rho]

private theorem length_foldl_set (ns : List Nat) (at_ : Nat → Nat) (val : List Lane → Nat → Lane)
    (A : List Lane) : (ns.foldl (fun B i => B.set (at_ i) (val B i)) A).length = A.length := by
  induction ns generalizing A with
  | nil => rfl
  | cons n ns ih => rw [foldl_cons, ih, length_set]

private theorem length_pi (A : List Lane) : (pi A).length = A.length := by
  rw [pi, length_set]
  exact length_foldl_set _ (fun i => piCycle.getD i 0)
    (fun B i => lane B (piCycle.getD (i + 1) 0)) A

private theorem length_chi (A : List Lane) : (chi A).length = A.length := by simp [chi]

private theorem length_iota (round : Nat) (A : List Lane) : (iota round A).length = A.length := by
  cases A <;> rfl

private theorem length_permutation (A : List Lane) : (permutation A).length = A.length := by
  rw [permutation]
  induction List.range 24 generalizing A with
  | nil => rfl
  | cons round rounds ih =>
    rw [foldl_cons, ih, length_iota, length_chi, length_pi, length_rho, length_theta]

private theorem length_processBlock (A : List Lane) (block : ByteString) :
    (processBlock A block).length = A.length := by
  rw [processBlock, length_permutation, length_mapIdx]

private theorem length_absorb (blocks : Nat) (A : List Lane) (msg : ByteString) :
    (absorb blocks A msg).length = A.length := by
  induction blocks generalizing A msg with
  | zero => exact length_processBlock A _
  | succ blocks ih =>
    rw [absorb]
    split
    · exact length_processBlock A _
    · rw [ih, length_processBlock]

private theorem length_flatMap_laneBytes (A : List Lane) :
    (A.flatMap laneBytes).length = 8 * A.length := by
  induction A with
  | nil => rfl
  | cons q A ih =>
    rw [flatMap_cons, length_append, ih, length_cons, laneBytes, length_map, length_range]
    omega

/-- Every digest has 32 bytes. -/
@[simp] theorem length_keccak256 (msg : ByteString) : (keccak256 msg).length = 32 := by
  rw [keccak256, length_flatMap_laneBytes, length_take, length_absorb, length_replicate]
  rfl

/-- Two different byte strings with one digest. -/
def Collides (x y : ByteString) : Prop := x ≠ y ∧ keccak256 x = keccak256 y

/-- Digests agree exactly for equal messages, up to a collision of the two. -/
theorem keccak256_eq_iff (x y : ByteString) : keccak256 x = keccak256 y ↔ x = y ∨ Collides x y := by
  constructor
  · intro h
    by_cases he : x = y
    · exact Or.inl he
    · exact Or.inr ⟨he, h⟩
  · rintro (rfl | h)
    · rfl
    · exact h.2

end CloakBridge.Keccak
