import CloakBridge.Models.Abi.Decoder
import CloakBridge.Models.Abi.EncoderCorrect

/-!
# Decoding what was encoded

The decoder shares the coder's layout but not its arithmetic: elements of arrays, dynamic
arrays at the end of the input, booleans and strings in the head are not looked for where
they are or not read at all. Where none of this is met, decoding returns the encoded
values.
-/

namespace CloakBridge.Abicoder

open Abi Argument

/-- The coder that holds a value. -/
def Decoded.ofValue : (t : AbiType) → t.Value → Decoded
  | .number _ _, w => .scalar (.numeric w)
  | .address, a => .scalar (.address (wordBytes (a.setWidth 256)))
  | .bool, b => .scalar (.boolean b)
  | .string, s => .scalar (.utf8String s)
  | .bytes, bs => .scalar (.dynamicBytes bs)
  | .fixedBytes size, bs => .scalar (.bytes size bs.val)
  | .array element, vs => .array (vs.map (Decoded.ofValue element))
  | .staticArray element _, vs => .array (vs.val.map (Decoded.ofValue element))

/-- The words a type takes in the head when its coder is not dynamic. -/
def headWords : AbiType → Nat
  | .staticArray element size => size * headWords element
  | _ => 1

/-- A type that stands in the head and takes one word there. -/
def OneWord (element : AbiType) : Prop := boxed element = false ∧ headWords element = 1

/-- The value is read back from the start of a vector; `more` tells that another word follows
it. -/
def Readable : (t : AbiType) → t.Value → (more : Bool) → Prop
  | .bool, _, _ => False
  | .array element, vs, more =>
    (vs = [] → more = true) ∧
      (vs ≠ [] → boxed element = true ∧ (∀ v ∈ vs.dropLast, Readable element v true) ∧
          (∀ v ∈ vs.getLast?, Readable element v more) ∨
        OneWord element ∧ ∀ v ∈ vs, Readable element v false)
  | .staticArray element _, vs, _ => OneWord element ∧ ∀ v ∈ vs.val, Readable element v false
  | _, _, _ => True

/-- The decoder leaves the value's head where it ends. -/
def KeepsStride : (t : AbiType) → t.Value → Prop
  | .string, s | .bytes, s => 0 < s.length ∧ s.length ≤ 32
  | .staticArray element size, _ => boxed (.staticArray element size) = true → size = 1
  | _, _ => True

/-- An argument list that is read back: every argument is readable, and all but the last are
left in the right place. -/
def Decodable : List Argument → Prop
  | [] => True
  | a :: args => Readable a.type a.value (args.any fun b => boxed b.type) ∧
      (args ≠ [] → KeepsStride a.type a.value) ∧ Decodable args

variable {n first size offset : Nat} {inputs data rest value : ByteString} {t element : AbiType}
  {ps : List Part} {more : Bool} {next : TypeJson}
  {decodeNext : ByteString → Except Failure Decoded} {α : Type} {post args : List Argument}

private theorem fromBigEndian_sizeWord (h : n < 2 ^ 256) : fromBigEndian (sizeWord n) = n := by
  rw [sizeWord, fromBigEndian_wordBytes, BitVec.toNat_ofNat, Nat.mod_eq_of_lt h]

private theorem subVector_of_drop {last : Nat} (h : inputs.drop first = data ++ rest)
    (hfirst : first ≤ inputs.length) (hlast : last = first + data.length) :
    subVector inputs first last = .ok data := by
  have hlength := congrArg List.length h
  rw [List.length_drop, List.length_append] at hlength
  have htake : (inputs.take last).drop first = data := by
    rw [List.drop_take, h, hlast, Nat.add_sub_cancel_left, List.take_left' rfl]
  rw [subVector, if_neg (by omega), if_neg (by omega), htake]

private theorem decodeToUint64_of_drop (hn : n < 2 ^ 64)
    (h : inputs.drop first = sizeWord n ++ rest) :
    decodeToUint64 inputs first = .ok n := by
  have hfirst : first ≤ inputs.length := by
    have hlength := congrArg List.length h
    rw [List.length_drop, List.length_append, length_sizeWord] at hlength
    omega
  have hvalue : fromBigEndian (sizeWord n) = n := fromBigEndian_sizeWord (by omega)
  rw [decodeToUint64, subVector_of_drop h hfirst (by rw [length_sizeWord]), ok_bind, hvalue,
    if_neg (by omega)]

private theorem decodeBytes_lengthPrefixed (h : 32 + value.length < 2 ^ 64) :
    decodeBytes (lengthPrefixed value ++ rest) = .ok value := by
  have hheader : (lengthPrefixed value ++ rest).drop 0 =
      sizeWord value.length ++ (padRight value ++ rest) := by
    simp [lengthPrefixed]
  have hdata : (lengthPrefixed value ++ rest).drop 32 =
      value ++ (List.replicate ((32 - value.length % 32) % 32) 0 ++ rest) := by
    rw [lengthPrefixed, List.append_assoc, List.drop_left' (length_sizeWord _), padRight,
      List.append_assoc]
  have hlength : 32 ≤ (lengthPrefixed value ++ rest).length := by
    simp only [lengthPrefixed, List.length_append, length_sizeWord]
    omega
  rw [decodeBytes, if_neg (by omega), decodeToUint64_of_drop (by omega) hheader, ok_bind,
    subVector_of_drop hdata hlength (by rw [Nat.mod_eq_of_lt h])]

private theorem wordOfBytes_append (w : Word) (rest : ByteString) :
    wordOfBytes (wordBytes w ++ rest) = w := by
  rw [wordOfBytes, List.take_left' (length_wordBytes w), fromBigEndian_wordBytes]
  simp

private theorem decodeAs_scalar {type : BaseType} {blank coder : Scalar}
    (hblank : generateScalar type [] = .ok blank) (hdecode : blank.decode inputs = .ok coder) :
    decodeAs (.base type) inputs = .ok (.scalar coder) := by
  rw [decodeAs, hblank, ok_bind, hdecode, ok_bind]

private theorem generateScalar_number {bits : Nat} {signed : Bool} (h : bits % 8 = 0 ∧ bits ≤ 256) :
    generateScalar (.number bits signed) [] = .ok (.numeric 0) := by
  have hzero : toUint256 [] = .ok 0 := rfl
  rw [generateScalar, hzero, ok_bind, if_pos (isValidBitSize_of_valid h)]

private theorem generateScalar_bytes (h : 0 < size ∧ size ≤ 32) :
    generateScalar (.bytes size) [] = .ok (.bytes size (List.replicate size 0)) := by
  rw [generateScalar, if_neg (by omega), if_pos rfl,
    makeBytes_of_size h.1 h.2 (List.length_replicate ..)]

private theorem entryIdentity_typeJson (hvalid : t.Valid) (hbool : t ≠ .bool) :
    entryIdentity (typeJson t) = .ok () := by
  cases t with
  | number signed bits =>
    rw [typeJson, entryIdentity, generateScalar_number hvalid, ok_bind]
  | fixedBytes size =>
    rw [typeJson, entryIdentity, generateScalar_bytes hvalid, ok_bind]
  | bool => exact absurd rfl hbool
  | _ => rfl

private theorem dynamicType_typeJson (hvalid : t.Valid) : dynamicType (typeJson t) = boxed t := by
  cases t with
  | fixedBytes size => exact decide_eq_false (Nat.pos_iff_ne_zero.mp hvalid.1)
  | staticArray element size =>
    have hsize : decide (size = 0) = false := decide_eq_false (Nat.pos_iff_ne_zero.mp hvalid.2)
    simp only [typeJson, dynamicType, Option.getD_some, hsize, Bool.false_or, boxed]
  | _ => rfl

private theorem decode_bytes_padRight {bs : ByteString} (hvalid : 0 < size ∧ size ≤ 32)
    (hsize : bs.length = size) :
    (Scalar.bytes size (List.replicate size 0)).decode (padRight bs ++ rest) =
      .ok (.bytes size bs) := by
  have hlength : 32 ≤ (padRight bs ++ rest).length := by
    simp only [padRight, List.length_append, List.length_replicate]
    omega
  have htake : (padRight bs ++ rest).take size = bs := by
    rw [padRight, List.append_assoc, List.take_left' hsize]
  rw [Scalar.decode, if_neg (by omega), if_neg (by omega), htake]
  simp

private theorem le_length_encodeWith : ∀ {t : AbiType}, t.Valid → ∀ v : t.Value,
    32 ≤ (encodeWith boxed t v).length := by
  intro t hvalid
  induction t with
  | number signed bits => exact fun w => (length_wordBytes w).ge
  | address => exact fun a => (length_wordBytes _).ge
  | bool => exact fun b => (length_sizeWord _).ge
  | string | bytes =>
    intro bs
    simp only [encodeWith, lengthPrefixed, List.length_append, length_sizeWord]
    omega
  | fixedBytes size =>
    intro bs
    have hsize := bs.property
    obtain ⟨hpos, hle⟩ := hvalid
    simp only [encodeWith, padRight, List.length_append, List.length_replicate]
    omega
  | array element ih =>
    intro vs
    simp only [encodeWith, List.length_append, length_sizeWord]
    omega
  | staticArray element size ih =>
    rintro ⟨vs, hvs⟩
    obtain ⟨hvalid, hpos⟩ := hvalid
    obtain ⟨v, vs, rfl⟩ := List.exists_cons_of_length_pos (show 0 < vs.length by omega)
    have hv := ih hvalid v
    simp only [encodeWith, List.map_cons, length_tuple, headSize_cons, Part.headSize]
    split <;> omega

private theorem boxed_of_checkDynamic (h : checkDynamic (typeJson t) = false) :
    boxed t = false := by
  cases t with
  | string | bytes | array element => simp [typeJson, checkDynamic] at h
  | staticArray element size => exact h
  | _ => rfl

private theorem headSize_uniform (h : ∀ p ∈ ps, p.headSize = n) : headSize ps = n * ps.length := by
  rw [headSize, List.map_congr_left h]
  simp [Nat.mul_comm]

private theorem tails_static (h : ∀ p ∈ ps, p.dynamic = false) : tails ps = [] := by
  rw [tails, List.flatMap_eq_nil_iff]
  intro p hp
  simp [Part.tail, h p hp]

private theorem length_encodeWith_static : ∀ {t : AbiType}, t.Valid → boxed t = false →
    ∀ v : t.Value, (encodeWith boxed t v).length = 32 * headWords t := by
  intro t hvalid hboxed
  induction t with
  | number signed bits => exact fun w => length_wordBytes w
  | address => exact fun a => length_wordBytes _
  | bool => exact fun b => length_sizeWord _
  | string | bytes | array element => simp [boxed] at hboxed
  | fixedBytes size =>
    intro bs
    have hsize := bs.property
    obtain ⟨hpos, hle⟩ := hvalid
    simp only [encodeWith, padRight, List.length_append, List.length_replicate, headWords]
    omega
  | staticArray element size ih =>
    intro vs
    have hparts : ∀ p ∈ vs.val.map fun v => (⟨boxed element, encodeWith boxed element v⟩ : Part),
        p.dynamic = false ∧ p.headSize = 32 * headWords element := by
      intro p hp
      obtain ⟨v, -, rfl⟩ := List.mem_map.mp hp
      have helement := boxed_of_checkDynamic hboxed
      exact ⟨helement, by simp [Part.headSize, helement, ih hvalid.1 helement v]⟩
    simp only [encodeWith, length_tuple, headSize_uniform fun p hp => (hparts p hp).2,
      tails_static fun p hp => (hparts p hp).1, List.length_map, vs.property, headWords,
      List.length_nil, Nat.add_zero]
    ring

private theorem ne_bool_of_readable {v : t.Value} (h : Readable t v more) : t ≠ .bool := by
  rintro rfl
  exact h

private theorem fromIndex_of_le {index : Nat} (h : index ≤ inputs.length) :
    fromIndex inputs index = .ok (inputs.drop index) := by
  rw [fromIndex, if_pos h]

private theorem basicDecode_dynamic {target : Nat} (hentry : entryIdentity next = .ok ())
    (hdynamic : dynamicType next = true) (htarget : target + 32 ≤ inputs.length)
    (hsize : inputs.length < 2 ^ 64)
    (hhead : ∃ rest, inputs.drop offset = sizeWord target ++ rest) :
    basicDecode next decodeNext inputs offset = decodeNext (inputs.drop (target + 32)) := by
  obtain ⟨rest, hrest⟩ := hhead
  simp only [basicDecode, hentry, ok_bind, hdynamic, if_true,
    decodeToUint64_of_drop (by omega) hrest, fromIndex_of_le htarget]

private theorem basicDecode_static (hentry : entryIdentity next = .ok ())
    (hdynamic : dynamicType next = false) (hlength : data.length = 32)
    (hdata : inputs.drop offset = data ++ rest) :
    basicDecode next decodeNext inputs offset = decodeNext data := by
  have hoffset : offset ≤ inputs.length := by
    have h := congrArg List.length hdata
    rw [List.length_drop, List.length_append] at h
    omega
  simp only [basicDecode, hentry, ok_bind, hdynamic, Bool.false_eq_true, if_false,
    subVector_of_drop hdata hoffset (by rw [hlength])]

private theorem mapM_range {f : Nat → Except Failure Decoded} {g : α → Decoded} {xs : List α}
    (h : ∀ pre x post, xs = pre ++ x :: post → f pre.length = .ok (g x)) :
    (List.range xs.length).mapM f = .ok (xs.map g) := by
  apply mapM_ok_of_forall₂
  rw [List.forall₂_iff_get]
  refine ⟨by simp, fun i hi hrange => ?_⟩
  have hsplit : xs = xs.take i ++ xs[i] :: xs.drop (i + 1) := by
    rw [← List.drop_eq_getElem_cons hi, List.take_append_drop]
  have hrun := h _ _ _ hsplit
  rw [List.length_take, Nat.min_eq_left hi.le] at hrun
  simpa using hrun

private theorem drop_front {front middle rest : ByteString} {k : Nat} (h : k ≤ middle.length) :
    (front ++ (middle ++ rest)).drop (front.length + k) = middle.drop k ++ rest := by
  rw [← List.drop_drop, List.drop_left' rfl, List.drop_append_of_le_length h]

section Elements

variable {element : AbiType} {front rest : ByteString}

/-- The elements of an array as components of a tuple. -/
def elements (element : AbiType) (vs : List element.Value) : List Part :=
  vs.map fun v => ⟨boxed element, encodeWith boxed element v⟩

@[simp] theorem length_elements (vs : List element.Value) :
    (elements element vs).length = vs.length := by
  simp [elements]

private theorem elements_append (pre : List element.Value) (v : element.Value)
    (post : List element.Value) :
    elements element (pre ++ v :: post) = elements element pre ++
      ⟨boxed element, encodeWith boxed element v⟩ :: elements element post := by
  simp [elements]

private theorem headSize_elements (hvalid : element.Valid)
    (h : boxed element = true ∨ OneWord element)
    (vs : List element.Value) : headSize (elements element vs) = 32 * vs.length := by
  rw [headSize_uniform (n := 32), length_elements]
  intro p hp
  obtain ⟨v, -, rfl⟩ := List.mem_map.mp hp
  rcases h with hboxed | ⟨hboxed, hwords⟩
  · simp [Part.headSize, hboxed]
  · simp [Part.headSize, hboxed, length_encodeWith_static hvalid hboxed, hwords]

/-- An element that takes one word is read from its place in the head. -/
theorem basicDecode_oneWord (front rest : ByteString) (hvalid : element.Valid)
    (hbool : element ≠ .bool) (hword : OneWord element)
    (decodeNext : ByteString → Except Failure Decoded)
    (pre : List element.Value) (v : element.Value) (post : List element.Value) :
    basicDecode (typeJson element) decodeNext
        (front ++ (tuple (elements element (pre ++ v :: post)) ++ rest))
        (front.length + 32 * pre.length) = decodeNext (encodeWith boxed element v) := by
  obtain ⟨hboxed, hwords⟩ := hword
  have hhead := headSize_elements hvalid (Or.inr ⟨hboxed, hwords⟩) pre
  have hlength : (encodeWith boxed element v).length = 32 := by
    rw [length_encodeWith_static hvalid hboxed, hwords]
  have hdrop := drop_tuple_static (elements element pre) (encodeWith boxed element v)
    (elements element post)
  have hsplit := elements_append pre v post
  rw [hboxed] at hsplit
  rw [← hsplit, hhead] at hdrop
  have hle : 32 * pre.length ≤ (tuple (elements element (pre ++ v :: post))).length := by
    rw [hsplit, length_tuple, headSize_append, hhead]
    omega
  apply basicDecode_static (entryIdentity_typeJson hvalid hbool)
    ((dynamicType_typeJson hvalid).trans hboxed) hlength
  rw [drop_front hle, hdrop, List.append_assoc]

/-- An element of a dynamic array that is dynamic itself is read from the tail. -/
theorem basicDecode_boxed (hvalid : element.Valid) (hboxed : boxed element = true)
    (decodeNext : ByteString → Except Failure Decoded) (hfront : front.length = 32)
    (pre : List element.Value) (v : element.Value) (post : List element.Value)
    (hsize : (front ++ (tuple (elements element (pre ++ v :: post)) ++ rest)).length < 2 ^ 64) :
    basicDecode (typeJson element) decodeNext
        (front ++ (tuple (elements element (pre ++ v :: post)) ++ rest))
        (front.length + 32 * pre.length) =
      decodeNext (encodeWith boxed element v ++ (tails (elements element post) ++ rest)) := by
  have hhead := headSize_elements hvalid (Or.inl hboxed) pre
  have hbool : element ≠ .bool := by
    rintro rfl
    simp [boxed] at hboxed
  have hoffset := drop_tuple_offset (elements element pre) (encodeWith boxed element v)
    (elements element post)
  have hdata := drop_tuple_dynamic (elements element pre) (encodeWith boxed element v)
    (elements element post)
  have hsplit := elements_append pre v post
  rw [hboxed] at hsplit
  rw [← hsplit] at hdata
  rw [← hsplit, hhead] at hoffset
  obtain ⟨after, hafter⟩ := hoffset
  have htarget : headSize (elements element (pre ++ v :: post)) +
      (tails (elements element pre)).length ≤
        (tuple (elements element (pre ++ v :: post))).length := by
    rw [length_tuple, hsplit, tails_append, List.length_append]
    omega
  have hle : 32 * pre.length ≤ (tuple (elements element (pre ++ v :: post))).length := by
    rw [hsplit, length_tuple, headSize_append, hhead]
    omega
  have hread := @drop_front front _ rest _ htarget
  rw [hdata, hfront, Nat.add_comm 32, List.append_assoc] at hread
  rw [basicDecode_dynamic (entryIdentity_typeJson hvalid hbool)
    ((dynamicType_typeJson hvalid).trans hboxed) _ hsize
    ⟨after ++ rest, by rw [drop_front hle, hafter, List.append_assoc]⟩, hread]
  simp only [List.length_append, hfront]
  omega

end Elements

/-- A dynamic array whose elements are read is read itself, if a word follows its length. -/
theorem decodeAs_dynamicArray {g : α → Decoded} {vs : List α} {body : ByteString}
    (hsize : (sizeWord vs.length ++ body).length < 2 ^ 64) (hbody : 32 ≤ body.length)
    (hfit : 32 * vs.length ≤ body.length) (hitems : ∀ pre v post, vs = pre ++ v :: post →
      basicDecode next (decodeAs next) (sizeWord vs.length ++ body) (32 + 32 * pre.length) =
        .ok (g v)) :
    decodeAs (.array next none) (sizeWord vs.length ++ body) = .ok (.array (vs.map g)) := by
  have hlength : (sizeWord vs.length ++ body).length = 32 + body.length := by
    rw [List.length_append, length_sizeWord]
  rw [hlength] at hsize
  have hheader : decodeToUint64 (sizeWord vs.length ++ body) 0 = .ok vs.length :=
    decodeToUint64_of_drop (by omega) (List.drop_zero ..)
  have hmap := mapM_range (f := fun i =>
    basicDecode next (decodeAs next) (sizeWord vs.length ++ body) (32 + 32 * i)) hitems
  simp only [decodeAs, Option.getD_none, if_true, hlength, hheader, ok_bind]
  rw [if_neg (by omega), if_neg (by omega), hmap, ok_bind]

/-- A static array whose elements are read is read itself. -/
theorem decodeAs_staticArray {g : α → Decoded} {vs : List α} (hpos : 0 < vs.length)
    (hlength : 32 ≤ inputs.length) (hitems : ∀ pre v post, vs = pre ++ v :: post →
      basicDecode next (decodeAs next) inputs (32 * pre.length) = .ok (g v)) :
    decodeAs (.array next (some vs.length)) inputs = .ok (.array (vs.map g)) := by
  have hmap := mapM_range (f := fun i => basicDecode next (decodeAs next) inputs (32 * i)) hitems
  simp only [decodeAs, Option.getD_some]
  rw [if_neg (by omega), if_neg (by omega), hmap, ok_bind]

private theorem le_length_tails (hvalid : element.Valid) (hboxed : boxed element = true)
    {vs : List element.Value} (h : vs ≠ []) : 32 ≤ (tails (elements element vs)).length := by
  obtain ⟨v, vs, rfl⟩ := List.exists_cons_of_ne_nil h
  have hv := le_length_encodeWith hvalid v
  simp only [elements, List.map_cons, tails_cons, Part.tail, hboxed, if_true, List.length_append]
  omega

private theorem length_lt_of_lengthPrefixed (h : (lengthPrefixed value ++ rest).length < 2 ^ 64) :
    32 + value.length < 2 ^ 64 := by
  simp only [lengthPrefixed, padRight, List.length_append, length_sizeWord] at h
  omega

/-- The readable elements of a dynamic array, when they are dynamic too. -/
theorem decodeAs_boxedElements (element : AbiType) (hvalid : element.Valid)
    (hboxed : boxed element = true) {vs : List element.Value} (hne : vs ≠ [])
    (hrest : more = true → 32 ≤ rest.length)
    (hsize : (encodeWith boxed (.array element) vs ++ rest).length < 2 ^ 64)
    (hitems : ∀ {v : element.Value} {more : Bool} {rest : ByteString}, Readable element v more →
      (more = true → 32 ≤ rest.length) → (encodeWith boxed element v ++ rest).length < 2 ^ 64 →
      decodeAs (typeJson element) (encodeWith boxed element v ++ rest) = .ok (.ofValue element v))
    (hinit : ∀ v ∈ vs.dropLast, Readable element v true)
    (hlast : ∀ v ∈ vs.getLast?, Readable element v more) :
    decodeAs (typeJson (.array element)) (encodeWith boxed (.array element) vs ++ rest) =
      .ok (.ofValue (.array element) vs) := by
  have hinputs : encodeWith boxed (.array element) vs ++ rest =
      sizeWord vs.length ++ (tuple (elements element vs) ++ rest) := by
    rw [encodeWith, List.append_assoc]
    rfl
  have htuple := le_length_tails hvalid hboxed hne
  have hhead := headSize_elements hvalid (Or.inl hboxed) vs
  have hlength : (tuple (elements element vs) ++ rest).length =
      32 * vs.length + (tails (elements element vs)).length + rest.length := by
    rw [List.length_append, length_tuple, hhead]
  rw [hinputs] at hsize ⊢
  apply decodeAs_dynamicArray hsize (by omega) (by omega)
  rintro pre v post rfl
  have hstep := basicDecode_boxed hvalid hboxed (decodeAs (typeJson element))
    (length_sizeWord _) pre v post hsize
  rw [length_sizeWord] at hstep
  rw [hstep]
  have hshort : (encodeWith boxed element v ++ (tails (elements element post) ++ rest)).length <
      2 ^ 64 := by
    refine lt_of_le_of_lt ?_ hsize
    rw [List.length_append, List.length_append, List.length_append, hlength, elements_append,
      tails_append, tails_cons, Part.tail, hboxed, if_pos rfl]
    simp only [List.length_append]
    omega
  cases post with
  | nil => exact hitems (hlast v (by simp)) (by simpa [elements] using hrest) hshort
  | cons w post =>
    have hmem : v ∈ (pre ++ v :: w :: post).dropLast := by
      rw [List.dropLast_append_of_ne_nil (List.cons_ne_nil _ _)]
      simp
    have hmore := le_length_tails hvalid hboxed (List.cons_ne_nil w post)
    refine hitems (hinit v hmem) (fun _ => ?_) hshort
    rw [List.length_append]
    omega

/-- The readable elements of a dynamic array, when they are one word each. -/
theorem decodeAs_wordElements (element : AbiType) (hvalid : element.Valid) (hword : OneWord element)
    {vs : List element.Value} (hne : vs ≠ [])
    (hsize : (encodeWith boxed (.array element) vs ++ rest).length < 2 ^ 64)
    (hitems : ∀ v ∈ vs, decodeAs (typeJson element) (encodeWith boxed element v) =
      .ok (.ofValue element v)) (hbool : element ≠ .bool) :
    decodeAs (typeJson (.array element)) (encodeWith boxed (.array element) vs ++ rest) =
      .ok (.ofValue (.array element) vs) := by
  have hinputs : encodeWith boxed (.array element) vs ++ rest =
      sizeWord vs.length ++ (tuple (elements element vs) ++ rest) := by
    rw [encodeWith, List.append_assoc]
    rfl
  have hhead := headSize_elements hvalid (Or.inr hword) vs
  have hpos : 0 < vs.length := List.length_pos_iff.mpr hne
  have hlength : (tuple (elements element vs) ++ rest).length =
      32 * vs.length + (tails (elements element vs)).length + rest.length := by
    rw [List.length_append, length_tuple, hhead]
  rw [hinputs] at hsize ⊢
  apply decodeAs_dynamicArray hsize (by omega) (by omega)
  rintro pre v post rfl
  have hstep := basicDecode_oneWord (sizeWord (pre ++ v :: post).length) rest hvalid hbool hword
    (decodeAs (typeJson element)) pre v post
  rw [length_sizeWord] at hstep
  rw [hstep]
  exact hitems v (by simp)

private theorem decodeAs_oneWord (element : AbiType) (hvalid : element.Valid)
    (hword : OneWord element)
    (hitems : ∀ {v : element.Value} {more : Bool} {rest : ByteString}, Readable element v more →
      (more = true → 32 ≤ rest.length) → (encodeWith boxed element v ++ rest).length < 2 ^ 64 →
      decodeAs (typeJson element) (encodeWith boxed element v ++ rest) = .ok (.ofValue element v))
    {v : element.Value} (hreadable : Readable element v false) :
    decodeAs (typeJson element) (encodeWith boxed element v) = .ok (.ofValue element v) := by
  have hlength : (encodeWith boxed element v ++ []).length < 2 ^ 64 := by
    rw [List.append_nil, length_encodeWith_static hvalid hword.1, hword.2]
    omega
  have hread := @hitems v false [] hreadable (by simp) hlength
  rwa [List.append_nil] at hread

private theorem decodeAs_emptyArray (next : TypeJson) (hrest : 32 ≤ rest.length) :
    decodeAs (.array next none) (sizeWord 0 ++ rest) = .ok (.array []) := by
  have hlength : (sizeWord 0 ++ rest).length = 32 + rest.length := by
    rw [List.length_append, length_sizeWord]
  have hheader : decodeToUint64 (sizeWord 0 ++ rest) 0 = .ok 0 :=
    decodeToUint64_of_drop (by omega) (List.drop_zero ..)
  simp only [decodeAs, Option.getD_none, if_true, hlength, hheader, ok_bind]
  rw [if_neg (by omega), if_neg (by omega), List.range_zero, List.mapM_nil]
  rfl

private theorem encodeWith_nil (element : AbiType) :
    encodeWith boxed (.array element) [] = sizeWord 0 := by
  simp [encodeWith, tuple, heads]

/-- The readable elements of a static array. -/
theorem decodeAs_staticElements (hvalid : element.Valid) (hword : OneWord element) (hpos : 0 < size)
    (vs : (AbiType.staticArray element size).Value)
    (hitems : ∀ v ∈ vs.val, decodeAs (typeJson element) (encodeWith boxed element v) =
      .ok (.ofValue element v)) (hbool : element ≠ .bool) :
    decodeAs (typeJson (.staticArray element size))
        (encodeWith boxed (.staticArray element size) vs ++ rest) =
      .ok (.ofValue (.staticArray element size) vs) := by
  obtain ⟨vs, rfl⟩ := vs
  have hinputs : encodeWith boxed (.staticArray element vs.length) ⟨vs, rfl⟩ ++ rest =
      [] ++ (tuple (elements element vs) ++ rest) := rfl
  have hhead := headSize_elements hvalid (Or.inr hword) vs
  have hlength : 32 ≤ ([] ++ (tuple (elements element vs) ++ rest)).length := by
    rw [List.nil_append, List.length_append, length_tuple, hhead]
    omega
  rw [hinputs]
  apply decodeAs_staticArray hpos hlength
  rintro pre v post rfl
  have hstep := basicDecode_oneWord [] rest hvalid hbool hword (decodeAs (typeJson element)) pre v
    post
  rw [List.length_nil, Nat.zero_add] at hstep
  rw [hstep]
  exact hitems v (by simp)

/-- A readable value is read back from the start of a vector. -/
theorem decodeAs_encodeWith (hvalid : t.Valid) :
    ∀ {v : t.Value} {more : Bool} {rest : ByteString}, Readable t v more →
      (more = true → 32 ≤ rest.length) → (encodeWith boxed t v ++ rest).length < 2 ^ 64 →
      decodeAs (typeJson t) (encodeWith boxed t v ++ rest) = .ok (.ofValue t v) := by
  induction t with
  | number signed bits =>
    intro w more rest _ _ _
    have hlength : ¬(wordBytes w ++ rest).length < 32 := by simp
    apply decodeAs_scalar (generateScalar_number hvalid)
    simp only [encodeWith, Scalar.decode, hlength, if_false, wordOfBytes_append]
  | address =>
    intro a more rest _ _ _
    have hlength : ¬(wordBytes (a.setWidth 256) ++ rest).length < 32 := by simp
    apply decodeAs_scalar (show generateScalar _ [] = .ok (.address (List.replicate 32 0)) from rfl)
    simp only [encodeWith, Scalar.decode, hlength, if_false,
      List.take_left' (length_wordBytes (a.setWidth 256))]
  | bool =>
    intro b more rest hreadable
    exact absurd hreadable id
  | string =>
    intro s more rest _ _ hsize
    apply decodeAs_scalar (show generateScalar _ [] = .ok (.utf8String []) from rfl)
    simp only [encodeWith, Scalar.decode,
      decodeBytes_lengthPrefixed (length_lt_of_lengthPrefixed hsize), ok_bind]
  | bytes =>
    intro bs more rest _ _ hsize
    apply decodeAs_scalar (show generateScalar _ [] = .ok (.dynamicBytes []) from rfl)
    simp only [encodeWith, Scalar.decode,
      decodeBytes_lengthPrefixed (length_lt_of_lengthPrefixed hsize), ok_bind]
  | fixedBytes size =>
    intro bs more rest _ _ _
    apply decodeAs_scalar (generateScalar_bytes hvalid)
    exact decode_bytes_padRight hvalid bs.property
  | array element ih =>
    rintro vs more rest ⟨hempty, hreadable⟩ hrest hsize
    by_cases hne : vs = []
    · subst hne
      rw [encodeWith_nil]
      exact decodeAs_emptyArray (typeJson element) (hrest (hempty rfl))
    · rcases hreadable hne with ⟨hboxed, hinit, hlast⟩ | ⟨hword, hall⟩
      · exact decodeAs_boxedElements element hvalid hboxed hne hrest hsize (ih hvalid) hinit hlast
      · obtain ⟨v, hv⟩ := List.exists_mem_of_ne_nil vs hne
        refine decodeAs_wordElements element hvalid hword hne hsize (fun v hv => ?_)
          (ne_bool_of_readable (hall v hv))
        exact decodeAs_oneWord element hvalid hword (ih hvalid) (hall v hv)
  | staticArray element size ih =>
    rintro vs more rest ⟨hword, hall⟩ hrest hsize
    obtain ⟨v, hv⟩ := List.exists_mem_of_length_pos (show 0 < vs.val.length by
      rw [vs.property]
      exact hvalid.2)
    refine decodeAs_staticElements hvalid.1 hword hvalid.2 vs (fun v hv => ?_)
      (ne_bool_of_readable (hall v hv))
    exact decodeAs_oneWord element hvalid.1 hword (ih hvalid.1) (hall v hv)

private theorem headStride_eq (hvalid : t.Valid) {v : t.Value} (hreadable : Readable t v more)
    (hstride : KeepsStride t v) :
    headStride (typeJson t) (.ofValue t v) = (part boxed ⟨t, v⟩).headSize := by
  have hstatic : boxed t = false → (part boxed ⟨t, v⟩).headSize = 32 * headWords t := by
    intro hboxed
    simp [part, Part.headSize, hboxed, length_encodeWith_static hvalid hboxed]
  cases t with
  | bool => exact absurd hreadable id
  | number _ _ | address | fixedBytes _ => exact (hstatic rfl).symm
  | array element => rfl
  | string | bytes =>
    obtain ⟨hpos, hle⟩ := hstride
    simp only [typeJson, Decoded.ofValue, headStride, alignSize, part, Part.headSize,
      boxed, if_true]
    omega
  | staticArray element size =>
    have hsize : size ≠ 0 := Nat.pos_iff_ne_zero.mp hvalid.2
    simp only [typeJson, headStride, Option.getD_some, hsize, if_false]
    cases hboxed : boxed (.staticArray element size) with
    | true =>
      have hone : size = 1 := hstride hboxed
      rw [part, Part.headSize, if_pos hboxed]
      omega
    | false =>
      rw [hstatic hboxed, headWords, hreadable.1.2]
      ring

private theorem le_length_tails_of_any (args : List Argument) (hvalid : ∀ a ∈ args, a.type.Valid)
    (h : (args.any fun a => boxed a.type) = true) :
    32 ≤ (tails (args.map (part boxed))).length := by
  obtain ⟨a, ha, hboxed⟩ := List.any_eq_true.mp h
  obtain ⟨pre, post, rfl⟩ := List.append_of_mem ha
  have hlength := le_length_encodeWith (hvalid a ha) a.value
  simp only [List.map_append, List.map_cons, tails_append, tails_cons, List.length_append,
    Part.tail, part, hboxed, if_true]
  omega

private theorem decodeAt_argument {pre : List Argument} {a : Argument}
    (hvalid : ∀ b ∈ a :: post, b.type.Valid)
    (hreadable : Readable a.type a.value (post.any fun b => boxed b.type))
    (hsize : (tuple ((pre ++ a :: post).map (part boxed))).length < 2 ^ 64) :
    decodeAt (tuple ((pre ++ a :: post).map (part boxed))) (typeJson a.type)
      (headSize (pre.map (part boxed))) = .ok (.ofValue a.type a.value) := by
  have ha := hvalid a List.mem_cons_self
  have htails := le_length_tails_of_any post fun b hb =>
    hvalid b (List.mem_cons_of_mem a hb)
  have hinputs : (pre ++ a :: post).map (part boxed) = pre.map (part boxed) ++
      ⟨boxed a.type, encodeWith boxed a.type a.value⟩ :: post.map (part boxed) := by
    simp [part]
  rw [hinputs] at hsize ⊢
  rw [decodeAt, dynamicType_typeJson ha]
  generalize pre.map (part boxed) = heading at hsize ⊢
  generalize post.map (part boxed) = following at hsize htails ⊢
  cases hboxed : boxed a.type with
  | true =>
    rw [hboxed] at hsize
    obtain ⟨after, hafter⟩ := drop_tuple_offset heading (encodeWith boxed a.type a.value) following
    have hdata := drop_tuple_dynamic heading (encodeWith boxed a.type a.value) following
    have hle : headSize (heading ++ ⟨true, encodeWith boxed a.type a.value⟩ :: following) +
        (tails heading).length ≤
          (tuple (heading ++ ⟨true, encodeWith boxed a.type a.value⟩ :: following)).length := by
      rw [length_tuple, tails_append, List.length_append]
      omega
    have hlength := congrArg List.length hdata
    rw [List.length_drop] at hlength
    have htarget := decodeToUint64_of_drop (by omega) hafter
    simp only [if_true, htarget, ok_bind, fromIndex_of_le hle, hdata]
    exact decodeAs_encodeWith ha hreadable htails (by omega)
  | false =>
    rw [hboxed] at hsize
    have hdata := drop_tuple_static heading (encodeWith boxed a.type a.value) following
    have hle : headSize heading ≤
        (tuple (heading ++ ⟨false, encodeWith boxed a.type a.value⟩ :: following)).length := by
      rw [length_tuple, headSize_append]
      omega
    have hlength := congrArg List.length hdata
    rw [List.length_drop] at hlength
    simp only [Bool.false_eq_true, if_false, ok_bind, fromIndex_of_le hle, hdata]
    refine decodeAs_encodeWith ha hreadable (fun hmore => ?_) (by omega)
    have hfollowing := htails hmore
    simp only [List.length_append, tails_append, tails_cons]
    omega

/-- The loop reads the arguments that are left. -/
theorem decodeLoop_eq (hvalid : ∀ a ∈ post, a.type.Valid) (hdecodable : Decodable post)
    (pre : List Argument) (hsize : (tuple ((pre ++ post).map (part boxed))).length < 2 ^ 64) :
    decodeLoop (tuple ((pre ++ post).map (part boxed)))
        (post.map fun a => typeJson a.type) (headSize (pre.map (part boxed))) =
      .ok (post.map fun a => .ofValue a.type a.value) := by
  induction post generalizing pre with
  | nil => rfl
  | cons a post ih =>
    obtain ⟨hreadable, hstride, hrest⟩ := hdecodable
    have hread := decodeAt_argument hvalid hreadable hsize
    rw [List.map_cons, List.map_cons, decodeLoop, hread, ok_bind]
    cases post with
    | nil => rfl
    | cons b post =>
      have hnext := ih (fun c hc => hvalid c (List.mem_cons_of_mem a hc)) hrest (pre ++ [a])
        (by simpa using hsize)
      have hhead : headSize ((pre ++ [a]).map (part boxed)) = headSize (pre.map (part boxed)) +
            headStride (typeJson a.type) (.ofValue a.type a.value) := by
        rw [headStride_eq (hvalid a List.mem_cons_self) hreadable
          (hstride (List.cons_ne_nil b post))]
        simp
      rw [hhead, List.append_assoc, List.singleton_append] at hnext
      rw [hnext, ok_bind]

private theorem decodable_ne_bool (h : Decodable args) : ∀ a ∈ args, a.type ≠ .bool := by
  induction args with
  | nil => simp
  | cons a args ih =>
    intro b hb
    rcases List.mem_cons.mp hb with rfl | hb
    · exact ne_bool_of_readable h.1
    · exact ih h.2.2 b hb

private theorem forM_entryIdentity (h : ∀ a ∈ args, entryIdentity (typeJson a.type) = .ok ()) :
    (args.map fun a => typeJson a.type).forM entryIdentity = .ok () := by
  induction args with
  | nil => rfl
  | cons a args ih =>
    rw [List.map_cons, List.forM, h a List.mem_cons_self, ok_bind]
    exact ih fun b hb => h b (List.mem_cons_of_mem a hb)

/-- The encoding of a decodable argument list is decoded to the arguments. -/
theorem decode_encode (args : List Argument) (inputs : List Input)
    (hvalid : ∀ a ∈ args, a.type.Valid)
    (hinputs : List.Forall₂ (fun a input => input.type = typeJson a.type ∧
      Literal a.type a.value input.value) args inputs)
    (hsize : (tuple (args.map (part boxed))).length < 2 ^ 64) (hdecodable : Decodable args) :
    ∃ data, encode inputs = .ok data ∧ decode (inputs.map Input.type) data =
      .ok (args.map fun a => .ofValue a.type a.value) := by
  obtain ⟨htypes, hencode⟩ := encode_eq_tuple hvalid hinputs
  have hentries := forM_entryIdentity fun a ha =>
    entryIdentity_typeJson (hvalid a ha) (decodable_ne_bool hdecodable a ha)
  have hloop := decodeLoop_eq hvalid hdecodable [] hsize
  refine ⟨_, hencode, ?_⟩
  rw [decode, htypes, hentries, ok_bind]
  exact hloop

/-- A number, a short byte string and a dynamic array of byte strings. -/
def readableArguments : List Argument :=
  [⟨.number false 256, (5 : Word)⟩, ⟨.bytes, ([1, 2] : ByteString)⟩,
    ⟨.array .bytes, [([] : ByteString), ([7] : ByteString)]⟩]

/-- The same arguments as they are added to an encoder. -/
def readableInputs : List Input :=
  [⟨"uint256", .base (.number 256 false), .text [53]⟩,
    ⟨"bytes", .base (.bytes 0), .text (hexPrefix ++ [48, 49, 48, 50])⟩,
    ⟨"bytes[]", .array (.base (.bytes 0)) none, .list [.text hexPrefix,
      .text (hexPrefix ++ [48, 55])]⟩]

/-- The sample arguments are read back. -/
theorem decode_encode_readableInputs :
    ∃ data, encode readableInputs = .ok data ∧ decode (readableInputs.map Input.type) data =
      .ok (readableArguments.map fun a => .ofValue a.type a.value) := by
  apply decode_encode
  · simp [readableArguments, AbiType.Valid]
  · have hnumber : NumberLiteral 5 [53] := Or.inr (by decide)
    have hpair : BytesLiteral [1, 2] (hexPrefix ++ [48, 49, 48, 50]) :=
      ⟨[48, 49, 48, 50], by decide⟩
    have hempty : BytesLiteral [] hexPrefix := ⟨[], by decide⟩
    have hseven : BytesLiteral [7] (hexPrefix ++ [48, 55]) := ⟨[48, 55], by decide⟩
    refine .cons ⟨rfl, _, rfl, hnumber⟩ (.cons ⟨rfl, _, rfl, hpair⟩ (.cons ⟨rfl, _, rfl, ?_⟩ .nil))
    exact .cons ⟨_, rfl, hempty⟩ (.cons ⟨_, rfl, hseven⟩ .nil)
  · decide +kernel
  · simp [readableArguments, Decodable, Readable, KeepsStride, boxed]

/-- An empty byte string in front of a number. -/
def emptyBytesArguments : List Argument :=
  [⟨.bytes, ([] : ByteString)⟩, ⟨.number false 256, (5 : Word)⟩]

/-- The same arguments as they are added to an encoder. -/
def emptyBytesInputs : List Input :=
  [⟨"bytes", .base (.bytes 0), .text hexPrefix⟩,
    ⟨"uint256", .base (.number 256 false), .text [53]⟩]

/-- The number a decoded list ends with. -/
def lastNumber : Except Failure (List Decoded) → Option Word
  | .ok coders =>
    match coders.getLast? with
    | some (.scalar (.numeric w)) => some w
    | _ => none
  | .error _ => none

/-- Behind an empty byte string a number is read from the head of the byte string. -/
theorem decode_emptyBytesInputs : List.Forall₂ (fun a input => input.type = typeJson a.type ∧
        Literal a.type a.value input.value) emptyBytesArguments emptyBytesInputs ∧
      ¬ ∃ data, encode emptyBytesInputs = .ok data ∧ decode (emptyBytesInputs.map Input.type) data =
          .ok (emptyBytesArguments.map fun a => .ofValue a.type a.value) := by
  have hnumber : NumberLiteral 5 [53] := Or.inr (by decide)
  have hempty : BytesLiteral [] hexPrefix := ⟨[], by decide⟩
  refine ⟨.cons ⟨rfl, _, rfl, hempty⟩ (.cons ⟨rfl, _, rfl, hnumber⟩ .nil), ?_⟩
  rintro ⟨data, hencode, hdecode⟩
  have hnumber : lastNumber (encode emptyBytesInputs >>= fun data =>
      decode (emptyBytesInputs.map Input.type) data) = some 64 := by
    decide +kernel
  rw [hencode, ok_bind, hdecode] at hnumber
  exact absurd hnumber (by decide)

/-- A list of byte strings as it is added to an encoder. -/
def bytesArrayInput (items : List ByteString) : Input :=
  ⟨"bytes[]", makeBytesArray, .list (items.map fun bs => .text (toHexString bs))⟩

private theorem literal_bytesArray (items : List ByteString) :
    Literal (.array .bytes) items (bytesArrayInput items).value := by
  refine ⟨_, rfl, ?_⟩
  rw [List.forall₂_map_right_iff]
  exact List.forall₂_same.mpr fun bs _ => ⟨_, rfl, bytesLiteral_toHexString bs⟩

private theorem decodable_bytesArray {items : List ByteString} (h : items ≠ []) :
    Decodable [⟨.array .bytes, items⟩] := by
  refine ⟨⟨fun hnil => absurd hnil h, fun _ => Or.inl ⟨rfl, ?_, ?_⟩⟩, fun hnil => absurd rfl hnil,
    trivial⟩
  · exact fun _ _ => trivial
  · exact fun _ _ => trivial

/-- The filled coder of a list of byte strings. -/
theorem ofValue_bytesArray (items : List ByteString) : Decoded.ofValue (.array .bytes) items =
      .array (items.map fun bs => .scalar (.dynamicBytes bs)) := rfl

/-- `decode_bytes_array` returns the byte strings that were encoded, each as its literal. -/
theorem decodeBytesArray_encode (items : List ByteString) (hitems : items ≠ []) :
    ∃ data, encode [bytesArrayInput items] = .ok data ∧
      (data.length < 2 ^ 64 → decodeBytesArray data = .ok (items.map toHexString)) := by
  have hinputs : List.Forall₂ (fun (a : Argument) input => input.type = typeJson a.type ∧
      Literal a.type a.value input.value) [⟨.array .bytes, items⟩] [bytesArrayInput items] :=
    .cons ⟨rfl, literal_bytesArray items⟩ .nil
  have hvalid : ∀ a ∈ [(⟨.array .bytes, items⟩ : Argument)], a.type.Valid := by
    intro a ha
    rw [List.mem_singleton.mp ha]
    trivial
  obtain ⟨-, hencode⟩ := encode_eq_tuple hvalid hinputs
  refine ⟨_, hencode, fun hsize => ?_⟩
  obtain ⟨data, hdata, hdecode⟩ :=
    decode_encode _ _ hvalid hinputs hsize (decodable_bytesArray hitems)
  obtain rfl : _ = data := Except.ok.inj (hencode.symm.trans hdata)
  have htypes : [bytesArrayInput items].map Input.type = [makeBytesArray] := rfl
  rw [htypes] at hdecode
  rw [decodeBytesArray, hdecode, ok_bind]
  simp only [List.map_cons, List.map_nil, List.head?_cons, ofValue_bytesArray, List.map_map]
  rfl

private theorem length_encode_two :
    (encode [bytesArrayInput [[], [7, 8]]]).map List.length = .ok 224 := by
  decide +kernel

/-- An empty byte string and another one. -/
theorem decodeBytesArray_encode_two :
    ∃ data, encode [bytesArrayInput [[], [7, 8]]] = .ok data ∧ data.length = 224 ∧
      decodeBytesArray data = .ok ([[], [7, 8]].map toHexString) := by
  obtain ⟨data, hencode, hdecode⟩ := decodeBytesArray_encode [[], [7, 8]] (List.cons_ne_nil _ _)
  have hlength : data.length = 224 := by
    have hmap := length_encode_two
    rw [hencode] at hmap
    exact Except.ok.inj hmap
  exact ⟨data, hencode, hlength, hdecode (by omega)⟩

end CloakBridge.Abicoder
