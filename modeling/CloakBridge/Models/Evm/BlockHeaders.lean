import CloakBridge.Core.KeccakRows
import CloakBridge.Models.Evm.RawTransactions

/-!
# Block headers

A header is read from its RLP encoding and hashed again after it was encoded anew. The
hash covers the first 32 bytes of the encoding only. A sequence of headers is accepted
unless a header with a parent follows a header whose hash is zero.

`blockHash` is never set by the constructor nor read and is left out.
-/

namespace CloakBridge.Evm

open List

open Tee (Error Address toByteString)

/-- `std::array<uint8_t, n>` -/
abbrev FixedBytes (n : Nat) := { bytes : ByteString // bytes.length = n }

/-- `from_bytes<std::array<uint8_t, N>>` -/
def Rlp.toFixedBytes (n : Nat) (bytes : ByteString) : Except Error (FixedBytes n) :=
  if h : bytes.length = n then pure ⟨bytes, h⟩ else throw .decodeError

/-- `BlockHeader1` -/
structure BlockHeader1 where
  parentHash : Word
  sha3Uncles : Word
  miner : Address
  stateRoot : Word
  transactionsRoot : Word
  receiptsRoot : Word
  logsBloom : FixedBytes 256
  difficulty : BitVec 64
  number : BitVec 64
  gasLimit : BitVec 64
  gasUsed : BitVec 64
  timestamp : BitVec 64
  extraData : ByteString
  mixHash : Word
  nonce : FixedBytes 8
  baseFeePerGas : BitVec 64
  deriving DecidableEq

namespace BlockHeader1

/-- The types of the sixteen items. -/
def kinds : List Rlp.Kind :=
  [.number 32, .number 32, .number 32, .number 32, .number 32, .number 32, .array 256, .number 8,
    .number 8, .number 8, .number 8, .number 8, .bytes, .number 32, .array 8, .number 8]

/-- The constructor from an encoding. -/
def ofBytes (encoded : ByteString) (beyond : Nat → UInt8) : Except Error BlockHeader1 := do
  match ← Rlp.decode kinds encoded beyond with
  | [parentHash, sha3Uncles, miner, stateRoot, transactionsRoot, receiptsRoot, logsBloom,
      difficulty, number, gasLimit, gasUsed, timestamp, extraData, mixHash, nonce, baseFeePerGas] =>
    return { parentHash := Rlp.word parentHash
             sha3Uncles := Rlp.word sha3Uncles
             miner := Rlp.word miner
             stateRoot := Rlp.word stateRoot
             transactionsRoot := Rlp.word transactionsRoot
             receiptsRoot := Rlp.word receiptsRoot
             logsBloom := ← Rlp.toFixedBytes 256 logsBloom
             difficulty := BitVec.ofNat 64 (fromBigEndian difficulty)
             number := BitVec.ofNat 64 (fromBigEndian number)
             gasLimit := BitVec.ofNat 64 (fromBigEndian gasLimit)
             gasUsed := BitVec.ofNat 64 (fromBigEndian gasUsed)
             timestamp := BitVec.ofNat 64 (fromBigEndian timestamp)
             extraData := extraData
             mixHash := Rlp.word mixHash
             nonce := ← Rlp.toFixedBytes 8 nonce
             baseFeePerGas := BitVec.ofNat 64 (fromBigEndian baseFeePerGas) }
  | _ => throw .decodeError

/-- The items in front of the nonce. -/
def itemsBeforeNonce (h : BlockHeader1) : List ByteString :=
  [toByteString h.parentHash, toByteString h.sha3Uncles, toByteString h.miner,
    toByteString h.stateRoot, toByteString h.transactionsRoot, toByteString h.receiptsRoot,
    h.logsBloom.val, Rlp.sizeBytes h.difficulty.toNat, Rlp.sizeBytes h.number.toNat,
    Rlp.sizeBytes h.gasLimit.toNat, Rlp.sizeBytes h.gasUsed.toNat, Rlp.sizeBytes h.timestamp.toNat,
    h.extraData, toByteString h.mixHash]

/-- The sixteen items. -/
def items (h : BlockHeader1) : List ByteString :=
  h.itemsBeforeNonce ++ [h.nonce.val, Rlp.sizeBytes h.baseFeePerGas.toNat]

/-- `encodeRLP` -/
def encodeRLP (h : BlockHeader1) : ByteString := Rlp.encode h.items

/-- The bytes that `hash` is taken over: 32 from the start of the encoding. -/
def hashed (h : BlockHeader1) : ByteString := h.encodeRLP.take 32

/-- `hash` -/
def hash (h : BlockHeader1) : Word := wordOfBytes (Tee.keccak256 h.hashed)

/-- `verifyHeader` -/
def verifyHeader (h : BlockHeader1) (parentHash : Word) : Bool :=
  if parentHash = 0 ∧ parentHash ≠ h.parentHash then false else true

end BlockHeader1

namespace BlocksValidator

/-- The exception of `validateBody`, with the hash in its text. -/
inductive Failure where
  /-- "Block validator failed, get 0x{}" -/
  | blockValidatorFailed (parentHash : Word)
  deriving DecidableEq, Repr

/-- The loop of `validateBody`. -/
def validateFrom (parentHash : Word) : List BlockHeader1 → Except Failure Bool
  | [] => pure true
  | block :: blocks =>
    if !block.verifyHeader parentHash then throw (.blockValidatorFailed parentHash)
    else validateFrom block.hash blocks

/-- `validateBody` -/
def validateBody : List BlockHeader1 → Except Failure Bool
  | [] => pure false
  | block :: blocks => validateFrom block.hash blocks

/-- Every block names the block before it. -/
def Linked (blocks : List BlockHeader1) : Prop :=
  ∀ i (h : i + 1 < blocks.length), blocks[i + 1].parentHash = blocks[i].hash

/-- A block that names a parent follows a block whose hash is zero. -/
def FollowsZero (blocks : List BlockHeader1) : Prop :=
  ∃ i, ∃ h : i + 1 < blocks.length, blocks[i].hash = 0 ∧ blocks[i + 1].parentHash ≠ 0

variable {block : BlockHeader1}

private theorem verifyHeader_eq_false {parentHash : Word} :
    block.verifyHeader parentHash = false ↔ parentHash = 0 ∧ block.parentHash ≠ 0 := by
  rw [BlockHeader1.verifyHeader]
  constructor
  · intro h
    split at h
    next hfails =>
      obtain ⟨rfl, hne⟩ := hfails
      exact ⟨rfl, hne.symm⟩
    next => cases h
  · rintro ⟨rfl, hne⟩
    rw [if_pos ⟨rfl, hne.symm⟩]

private theorem followsZero_cons_cons {next : BlockHeader1} {blocks : List BlockHeader1} :
    FollowsZero (block :: next :: blocks) ↔
      block.hash = 0 ∧ next.parentHash ≠ 0 ∨ FollowsZero (next :: blocks) := by
  constructor
  · rintro ⟨i, hi, hzero, hparent⟩
    cases i with
    | zero => exact .inl ⟨hzero, hparent⟩
    | succ i => exact .inr ⟨i, by simpa using hi, hzero, hparent⟩
  · rintro (⟨hzero, hparent⟩ | ⟨i, hi, hzero, hparent⟩)
    · exact ⟨0, by simp, hzero, hparent⟩
    · exact ⟨i + 1, by simpa using hi, hzero, hparent⟩

/-- The loop throws if a block that names a parent follows one whose hash is zero, and otherwise
returns `true`. -/
theorem validateFrom_eq (block : BlockHeader1) (blocks : List BlockHeader1) :
    (FollowsZero (block :: blocks) ∧
        validateFrom block.hash blocks = .error (.blockValidatorFailed 0)) ∨
      ¬FollowsZero (block :: blocks) ∧ validateFrom block.hash blocks = .ok true := by
  induction blocks generalizing block with
  | nil =>
    refine .inr ⟨?_, rfl⟩
    rintro ⟨i, hi, -⟩
    simp at hi
  | cons next blocks ih =>
    rw [followsZero_cons_cons, validateFrom]
    cases hverify : next.verifyHeader block.hash with
    | false =>
      obtain ⟨hzero, hparent⟩ := verifyHeader_eq_false.mp hverify
      refine .inl ⟨.inl ⟨hzero, hparent⟩, ?_⟩
      rw [hzero]
      rfl
    | true =>
      have hpasses : ¬(block.hash = 0 ∧ next.parentHash ≠ 0) := by
        rw [← verifyHeader_eq_false, hverify]
        exact Bool.true_eq_false_eq_False
      rw [or_iff_right hpasses]
      exact ih next

/-- A list that is not empty is validated as it should be: exactly the linked lists give `true`, and
the others an exception. -/
def ValidatesLinks (blocks : List BlockHeader1) : Prop :=
  (validateBody blocks = .ok true ↔ Linked blocks) ∧
    (¬Linked blocks → ∃ e, validateBody blocks = .error e)

/-- The validator does its work exactly on lists that are linked and on lists in which a block that
names a parent follows one whose hash is zero. -/
theorem validatesLinks_iff (blocks : List BlockHeader1) (hne : blocks ≠ []) :
    ValidatesLinks blocks ↔ Linked blocks ∨ FollowsZero blocks := by
  obtain ⟨block, rest, rfl⟩ := exists_cons_of_ne_nil hne
  have hunlinked : FollowsZero (block :: rest) → ¬Linked (block :: rest) := by
    rintro ⟨i, hi, hzero, hparent⟩ hlinked
    rw [hlinked i hi, hzero] at hparent
    exact hparent rfl
  rw [ValidatesLinks, validateBody]
  rcases validateFrom_eq block rest with ⟨hfollows, hrun⟩ | ⟨hpasses, hrun⟩
  · rw [hrun]
    refine iff_of_true ⟨iff_of_false ?_ (hunlinked hfollows), fun _ => ⟨_, rfl⟩⟩ (.inr hfollows)
    intro h
    cases h
  · rw [hrun, or_iff_left hpasses]
    constructor
    · rintro ⟨hiff, -⟩
      exact hiff.mp rfl
    · intro hlinked
      exact ⟨iff_of_true rfl hlinked, fun hnot => absurd hlinked hnot⟩

end BlocksValidator

/-- A header without contents. -/
def BlockHeader1.blank : BlockHeader1 where
  parentHash := 0
  sha3Uncles := 0
  miner := 0
  stateRoot := 0
  transactionsRoot := 0
  receiptsRoot := 0
  logsBloom := ⟨List.replicate 256 0, length_replicate⟩
  difficulty := 0
  number := 0
  gasLimit := 0
  gasUsed := 0
  timestamp := 0
  extraData := []
  mixHash := 0
  nonce := ⟨List.replicate 8 0, length_replicate⟩
  baseFeePerGas := 0

namespace BlocksValidator

open BlockHeader1 (blank)

/-- A blank header and one that names it. -/
theorem validatesLinks_two : ValidatesLinks [blank, { blank with parentHash := blank.hash }] ∧
      validateBody [blank, { blank with parentHash := blank.hash }] = .ok true := by
  have hlinked : Linked [blank, { blank with parentHash := blank.hash }] := by
    intro i hi
    obtain rfl : i = 0 := by
      simp only [length_cons, length_nil] at hi
      omega
    rfl
  have hvalidates := (validatesLinks_iff [blank, { blank with parentHash := blank.hash }]
    (cons_ne_nil _ _)).mpr (.inl hlinked)
  exact ⟨hvalidates, hvalidates.1.mpr hlinked⟩

private theorem hash_blank_ne_zero : blank.hash ≠ 0 := by
  rw [BlockHeader1.hash, Tee.keccak256, Keccak.keccak256_eq_digest]
  decide +kernel

/-- Two blank headers are accepted, although the second does not name the first. -/
theorem validateBody_unlinked :
    validateBody [blank, blank] = .ok true ∧ ¬Linked [blank, blank] := by
  constructor
  · rcases validateFrom_eq blank [blank] with ⟨⟨i, hi, hzero, -⟩, -⟩ | ⟨-, hrun⟩
    · obtain rfl : i = 0 := by
        simp only [length_cons, length_nil] at hi
        omega
      exact absurd hzero hash_blank_ne_zero
    · exact hrun
  · intro hlinked
    exact hash_blank_ne_zero (hlinked 0 (by simp)).symm

end BlocksValidator

variable {n : Nat}

namespace Rlp

private theorem take_prefixLength (short long : Nat) {front back back' : ByteString}
    (hfront : n ≤ front.length) (hback : back.length = back'.length) :
    (prefixLength short long (front ++ back)).take n =
      (prefixLength short long (front ++ back')).take n := by
  have hlength : (front ++ back).length = (front ++ back').length := by
    rw [length_append, length_append, hback]
  have htake : ∀ start : ByteString,
      (start ++ (front ++ back)).take n = (start ++ (front ++ back')).take n := by
    intro start
    have hstart : n ≤ (start ++ front).length := by
      rw [length_append]
      omega
    rw [← append_assoc, ← append_assoc, take_append_of_le_length hstart,
      take_append_of_le_length hstart]
  rw [prefixLength, prefixLength, hlength]
  split
  · exact htake [_]
  · exact htake (_ :: sizeBytes _)

private theorem length_le_length_encodeSingle (item : ByteString) :
    item.length ≤ (encodeSingle item).length := by
  rcases encodeSingle_cases item with hitem | ⟨b, -, rfl, hitem⟩ <;> rw [hitem]
  · rw [withLength, prefixLength]
    split
    · simp
    · simp
      omega

private theorem length_encodeSingle_of_eight {item : ByteString} (h : item.length = 8) :
    (encodeSingle item).length = 9 := by
  rcases encodeSingle_cases item with hitem | ⟨b, -, rfl, -⟩
  · rw [hitem, withLength, prefixLength, if_pos (by omega), length_cons, h]
  · cases h

end Rlp

namespace BlockHeader1

variable {h : BlockHeader1}

private theorem hashed_eq_of_nonce (h : BlockHeader1) (nonce : FixedBytes 8) :
    { h with nonce := nonce }.hashed = h.hashed := by
  have hbloom : 32 ≤ (h.itemsBeforeNonce.flatMap Rlp.encodeSingle).length := by
    have hitem := Rlp.length_le_length_encodeSingle h.logsBloom.val
    rw [h.logsBloom.property] at hitem
    simp only [itemsBeforeNonce, flatMap_cons, length_append]
    omega
  have hsplit : ∀ h' : BlockHeader1, h'.encodeRLP = Rlp.prefixLength 0xc0 0xf7
      (h'.itemsBeforeNonce.flatMap Rlp.encodeSingle ++ (Rlp.encodeSingle h'.nonce.val ++
        Rlp.encodeSingle (Rlp.sizeBytes h'.baseFeePerGas.toNat))) := by
    intro h'
    simp only [encodeRLP, Rlp.encode, items, flatMap_append, flatMap_cons, flatMap_nil, append_nil]
  rw [hashed, hashed, hsplit, hsplit h]
  apply Rlp.take_prefixLength 0xc0 0xf7 hbloom
  simp only [length_append, Rlp.length_encodeSingle_of_eight nonce.property,
    Rlp.length_encodeSingle_of_eight h.nonce.property]

/-- What the hash of an accepted header should be: that of its encoding, which is reproduced, and
over bytes in which every field counts. -/
structure HashesEncoding (raw : ByteString) (h : BlockHeader1) : Prop where
  hash_eq : h.hash = wordOfBytes (Keccak.keccak256 raw)
  encodeRLP_eq : h.encodeRLP = raw
  hashed_ne : ∀ h', h' ≠ h → h'.hashed ≠ h.hashed

/-- The claim on one input: what the constructor makes of it is hashed as it should be. -/
def HashesInput (raw : ByteString) (beyond : Nat → UInt8) : Prop :=
  ∀ h, ofBytes raw beyond = .ok h → HashesEncoding raw h

private theorem exists_nonce_ne (h : BlockHeader1) : ∃ nonce : FixedBytes 8, nonce ≠ h.nonce := by
  by_cases hzero : h.nonce = ⟨List.replicate 8 0, length_replicate⟩
  · refine ⟨⟨List.replicate 8 1, length_replicate⟩, ?_⟩
    rw [hzero]
    decide
  · exact ⟨_, Ne.symm hzero⟩

private theorem ne_of_nonce_ne {nonce : FixedBytes 8} (hnonce : nonce ≠ h.nonce) :
    { h with nonce := nonce } ≠ h :=
  fun heq => hnonce (congrArg BlockHeader1.nonce heq)

/-- No accepted header is hashed as it should be: another nonce is not noticed. -/
theorem not_hashesInput (raw : ByteString) (beyond : Nat → UInt8) (h : BlockHeader1)
    (haccepted : ofBytes raw beyond = .ok h) : ¬HashesInput raw beyond := by
  intro hhashes
  obtain ⟨nonce, hnonce⟩ := exists_nonce_ne h
  exact (hhashes h haccepted).hashed_ne _ (ne_of_nonce_ne hnonce) (h.hashed_eq_of_nonce nonce)

private theorem toFixedBytes_val (bytes : FixedBytes n) :
    Rlp.toFixedBytes n bytes.val = .ok bytes := by
  rw [Rlp.toFixedBytes, dif_pos bytes.property]
  rfl

private theorem ofNat_sizeBytes64 (x : BitVec 64) :
    BitVec.ofNat 64 (fromBigEndian (Rlp.sizeBytes x.toNat)) = x := by
  rw [Rlp.fromBigEndian_sizeBytes (x.isLt.trans (by norm_num)), BitVec.ofNat_toNat,
    BitVec.setWidth_eq]

/-- What was encoded is read back, whatever lies behind it. -/
theorem ofBytes_encodeRLP (hextra : h.extraData.length < 2 ^ 32)
    (hlength : h.encodeRLP.length < 2 ^ 64) (beyond : Nat → UInt8) :
    ofBytes h.encodeRLP beyond = .ok h := by
  have hsize (x : BitVec 64) : (Rlp.sizeBytes x.toNat).length ≤ 8 := Rlp.length_sizeBytes_le x.isLt
  have hkinds :
      List.Forall₂ (fun kind item => Rlp.Kind.Accepts kind item.length) kinds h.items := by
    simpa [kinds, items, itemsBeforeNonce, Rlp.Kind.Accepts, Rlp.length_toByteString_le, hsize,
      h.logsBloom.property, h.nonce.property] using hextra
  have hreads := Rlp.reads_encode hkinds beyond hlength
  refine except_bind_eq_ok.mpr ⟨h.items, Rlp.decode_eq_ok.mpr hreads, ?_⟩
  simp only [items, itemsBeforeNonce, cons_append, nil_append, Rlp.word_toByteString,
    toFixedBytes_val, ofNat_sizeBytes64]
  rfl

private theorem ofBytes_blank (beyond : Nat → UInt8) : ofBytes blank.encodeRLP beyond = .ok blank :=
  ofBytes_encodeRLP (by decide) (by decide +kernel) beyond

/-- The encoding of the blank header is not hashed as it should be. -/
theorem not_hashesInput_blank : ¬HashesInput blank.encodeRLP fun _ => 0 :=
  not_hashesInput _ _ blank (ofBytes_blank _)

/-- The blank header and the same with another nonce are read from different encodings and have the
same hash. -/
theorem hash_blank_of_nonce :
    ∃ nonce : FixedBytes 8, let h : BlockHeader1 := { blank with nonce := nonce }
      (∀ beyond, ofBytes h.encodeRLP beyond = .ok h) ∧
        (∀ beyond, ofBytes blank.encodeRLP beyond = .ok blank) ∧
        h.encodeRLP ≠ blank.encodeRLP ∧ h.hashed = blank.hashed ∧ h.hash = blank.hash := by
  refine ⟨⟨List.replicate 8 1, length_replicate⟩, ?_⟩
  intro h
  have hhashed : h.hashed = blank.hashed := blank.hashed_eq_of_nonce _
  refine ⟨ofBytes_encodeRLP (by decide) (by decide +kernel), ofBytes_blank, ?_, hhashed, ?_⟩
  · decide +kernel
  · rw [hash, hhashed, hash]

end BlockHeader1

end CloakBridge.Evm
