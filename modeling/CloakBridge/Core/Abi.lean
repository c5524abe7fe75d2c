import CloakBridge.Core.Keccak

/-!
# The contract ABI

Types of the contract ABI, their values, and the head and tail layout of a tuple. A
component placed in the tail leaves the offset of its encoding in the head. The encoding
is parameterised by the predicate that sends a type to the tail; the standard one is
`AbiType.isDynamic`.
-/

namespace CloakBridge.Abi

open List

/-- A type of the interface. A number of `0` bits has the default width. -/
inductive AbiType where
  | number (signed : Bool) (bits : Nat)
  | address
  | bool
  | string
  | bytes
  | fixedBytes (size : Nat)
  | array (element : AbiType)
  | staticArray (element : AbiType) (size : Nat)
  deriving DecidableEq, Repr

namespace AbiType

/-- The widths and sizes the interface admits. -/
def Valid : AbiType → Prop
  | number _ bits => bits % 8 = 0 ∧ bits ≤ 256
  | fixedBytes size => 0 < size ∧ size ≤ 32
  | array element => element.Valid
  | staticArray element size => element.Valid ∧ 0 < size
  | _ => True

/-- The values of a type. Numbers of every width are words. -/
@[reducible] def Value : AbiType → Type
  | number _ _ => Word
  | address => BitVec 160
  | bool => Bool
  | string | bytes => ByteString
  | fixedBytes size => { bs : ByteString // bs.length = size }
  | array element => List element.Value
  | staticArray element size => { vs : List element.Value // vs.length = size }

/-- Types whose encoding has no fixed length. -/
def isDynamic : AbiType → Bool
  | string | bytes | array _ => true
  | staticArray element _ => element.isDynamic
  | _ => false

end AbiType

/-- A component of a tuple: whether it goes to the tail, and its encoding. -/
structure Part where
  dynamic : Bool
  data : ByteString
  deriving DecidableEq, Repr

namespace Part

/-- The bytes a part takes in the head. -/
def headSize (p : Part) : Nat := if p.dynamic then 32 else p.data.length

/-- The bytes a part puts into the tail. -/
def tail (p : Part) : ByteString := if p.dynamic then p.data else []

end Part

/-- A length or an offset as a word. -/
def sizeWord (n : Nat) : ByteString := wordBytes (BitVec.ofNat 256 n)

/-- A number is a word of 32 bytes. -/
@[simp] theorem length_sizeWord (n : Nat) : (sizeWord n).length = 32 := length_wordBytes _

/-- The size of the head. -/
def headSize (ps : List Part) : Nat := (ps.map Part.headSize).sum

/-- The tail of the components, in order. -/
def tails (ps : List Part) : ByteString := ps.flatMap Part.tail

/-- The head of the components, where the first tail starts at `offset`. -/
def heads : Nat → List Part → ByteString
  | _, [] => []
  | offset, ⟨true, data⟩ :: ps => sizeWord offset ++ heads (offset + data.length) ps
  | offset, ⟨false, data⟩ :: ps => data ++ heads offset ps

/-- The encoding of a tuple from those of its components. -/
def tuple (ps : List Part) : ByteString := heads (headSize ps) ps ++ tails ps

@[simp] theorem headSize_nil : headSize [] = 0 := rfl

@[simp] theorem headSize_cons (p : Part) (ps : List Part) :
    headSize (p :: ps) = p.headSize + headSize ps := by
  simp [headSize]

@[simp] theorem headSize_append (ps qs : List Part) :
    headSize (ps ++ qs) = headSize ps + headSize qs := by
  simp [headSize]

@[simp] theorem tails_nil : tails [] = [] := rfl

@[simp] theorem tails_cons (p : Part) (ps : List Part) : tails (p :: ps) = p.tail ++ tails ps := by
  simp [tails]

@[simp] theorem tails_append (ps qs : List Part) : tails (ps ++ qs) = tails ps ++ tails qs := by
  simp [tails]

/-- The head has the size that was set aside for it. -/
@[simp] theorem length_heads (offset : Nat) (ps : List Part) :
    (heads offset ps).length = headSize ps := by
  induction ps generalizing offset with
  | nil => rfl
  | cons p ps ih =>
    obtain ⟨dynamic, data⟩ := p
    cases dynamic <;> simp [heads, ih, Part.headSize]

private theorem heads_append (offset : Nat) (ps qs : List Part) :
    heads offset (ps ++ qs) = heads offset ps ++ heads (offset + (tails ps).length) qs := by
  induction ps generalizing offset with
  | nil => simp [heads]
  | cons p ps ih =>
    obtain ⟨dynamic, data⟩ := p
    cases dynamic <;> simp [heads, ih, Part.tail, Nat.add_assoc]

/-- A tuple consists of its heads and its tails. -/
theorem length_tuple (ps : List Part) : (tuple ps).length = headSize ps + (tails ps).length := by
  simp [tuple]

/-- A component kept in the head stands behind the heads before it. -/
theorem drop_tuple_static (ps : List Part) (data : ByteString) (qs : List Part) :
    (tuple (ps ++ ⟨false, data⟩ :: qs)).drop (headSize ps) =
      data ++ (heads (headSize (ps ++ ⟨false, data⟩ :: qs) + (tails ps).length) qs ++
        tails (ps ++ ⟨false, data⟩ :: qs)) := by
  rw [tuple, heads_append, append_assoc, drop_left' (length_heads _ _)]
  simp [heads]

/-- The head of a component in the tail is the offset of its encoding. -/
theorem drop_tuple_offset (ps : List Part) (data : ByteString) (qs : List Part) :
    ∃ rest, (tuple (ps ++ ⟨true, data⟩ :: qs)).drop (headSize ps) =
      sizeWord (headSize (ps ++ ⟨true, data⟩ :: qs) + (tails ps).length) ++ rest := by
  rw [tuple, heads_append, append_assoc, drop_left' (length_heads _ _)]
  simp only [heads, append_assoc]
  exact ⟨_, rfl⟩

/-- A component in the tail starts at that offset. -/
theorem drop_tuple_dynamic (ps : List Part) (data : ByteString) (qs : List Part) :
    (tuple (ps ++ ⟨true, data⟩ :: qs)).drop
        (headSize (ps ++ ⟨true, data⟩ :: qs) + (tails ps).length) = data ++ tails qs := by
  have hlength : (heads (headSize (ps ++ ⟨true, data⟩ :: qs)) (ps ++ ⟨true, data⟩ :: qs) ++
      tails ps).length = headSize (ps ++ ⟨true, data⟩ :: qs) + (tails ps).length := by
    simp
  rw [tuple, tails_append, ← append_assoc, drop_left' hlength]
  simp [Part.tail]

/-- Zeros up to the next multiple of 32 bytes. -/
def padRight (bs : ByteString) : ByteString := bs ++ List.replicate ((32 - bs.length % 32) % 32) 0

/-- A byte string behind its length. -/
def lengthPrefixed (bs : ByteString) : ByteString := sizeWord bs.length ++ padRight bs

/-- Whole words are not padded. -/
theorem padRight_of_dvd {bs : ByteString} (h : 32 ∣ bs.length) : padRight bs = bs := by
  have hpad : (32 - bs.length % 32) % 32 = 0 := by omega
  rw [padRight, hpad, replicate_zero, append_nil]

/-- The part with its encoding brought to whole words. -/
def Part.padded (p : Part) : Part := ⟨p.dynamic, padRight p.data⟩

private theorem dvd_length_padRight (bs : ByteString) : 32 ∣ (padRight bs).length := by
  simp only [padRight, length_append, length_replicate]
  omega

private theorem dvd_length_tuple {ps : List Part} (h : ∀ p ∈ ps, 32 ∣ p.data.length) :
    32 ∣ (tuple ps).length := by
  rw [length_tuple]
  induction ps with
  | nil => simp
  | cons p ps ih =>
    have hp := h p mem_cons_self
    have hps := ih fun q hq => h q (mem_cons_of_mem p hq)
    obtain ⟨dynamic, data⟩ := p
    cases dynamic
    · simp only [headSize_cons, tails_cons, Part.headSize, Part.tail, length_append] at hp ⊢
      simp only [Bool.false_eq_true, if_false, length_nil] at hp ⊢
      omega
    · simp only [headSize_cons, tails_cons, Part.headSize, Part.tail, length_append] at hp ⊢
      simp only [if_true] at hp ⊢
      omega

/-- The encoding of a value, where `boxed` types go to the tail of the tuple they are part of. -/
def encodeWith (boxed : AbiType → Bool) : (t : AbiType) → t.Value → ByteString
  | .number _ _, w => wordBytes w
  | .address, a => wordBytes (a.setWidth 256)
  | .bool, b => sizeWord b.toNat
  | .string, s => lengthPrefixed s
  | .bytes, bs => lengthPrefixed bs
  | .fixedBytes _, bs => padRight bs.val
  | .array element, vs =>
    sizeWord vs.length ++ tuple (vs.map fun v => ⟨boxed element, encodeWith boxed element v⟩)
  | .staticArray element _, vs =>
    tuple (vs.val.map fun v => ⟨boxed element, encodeWith boxed element v⟩)

/-- An argument of a call. -/
structure Argument where
  type : AbiType
  value : type.Value

/-- An argument as a component of the argument tuple. -/
def Argument.part (boxed : AbiType → Bool) (a : Argument) : Part :=
  ⟨boxed a.type, encodeWith boxed a.type a.value⟩

/-- The encoding of an argument list. -/
def encodeArguments (args : List Argument) : ByteString :=
  tuple (args.map (Argument.part AbiType.isDynamic))

private theorem dvd_length_tuple_map {α : Type} (boxed : Bool) (encode : α → ByteString)
    (vs : List α) (h : ∀ v, 32 ∣ (encode v).length) :
    32 ∣ (tuple (vs.map fun v => ⟨boxed, encode v⟩)).length := by
  apply dvd_length_tuple
  intro p hp
  obtain ⟨v, -, rfl⟩ := mem_map.mp hp
  exact h v

/-- The characters of an ASCII text. -/
def ascii (text : String) : ByteString := text.toList.map fun c => UInt8.ofNat c.toNat

/-- The first four bytes of the digest of a function signature. -/
def selector (signature : String) : ByteString := (Keccak.keccak256 (ascii signature)).take 4

/-- The call data of a function. -/
def encodeCall (signature : String) (args : List Argument) : ByteString :=
  selector signature ++ encodeArguments args

/-- Every encoding is a whole number of words. -/
theorem dvd_length_encodeWith (boxed : AbiType → Bool) :
    ∀ (t : AbiType) (v : t.Value), 32 ∣ (encodeWith boxed t v).length
  | .number _ _, w => ⟨1, length_wordBytes w⟩
  | .address, a => ⟨1, length_wordBytes (a.setWidth 256)⟩ | .bool, b => ⟨1, length_sizeWord b.toNat⟩
  | .string, s | .bytes, s => by
    have h := dvd_length_padRight s
    simp only [encodeWith, lengthPrefixed, length_append, length_sizeWord]
    omega
  | .fixedBytes _, bs => dvd_length_padRight bs.val
  | .array element, vs => by
    have h := dvd_length_tuple_map (boxed element) _ vs (dvd_length_encodeWith boxed element)
    simp only [encodeWith, length_append, length_sizeWord]
    omega
  | .staticArray element _, vs =>
    dvd_length_tuple_map (boxed element) _ vs.val (dvd_length_encodeWith boxed element)

end CloakBridge.Abi
