import CloakBridge.Core.Effect
import CloakBridge.Models.Abi.Encoder

/-!
# Correctness of the ABI encoder

The writing loop of `basic_pack` fills a vector of zeros from two places at once; on
components of whole words it leaves the head and tail layout, in which the coder's own
`dynamicType` decides what goes to the tail. That predicate is the standard one unless a
static array bottoms out in bytes of a fixed length.
-/

namespace CloakBridge.Abicoder

open Abi Argument

variable {a c value s bs : ByteString} {offset size bits : Nat} {w : Word} {t : AbiType}

private theorem length_padRight (bs : ByteString) : (padRight bs).length = alignSize bs.length := by
  rw [padRight, List.length_append, List.length_replicate, alignSize]
  omega

private theorem toArray_middle {b : ByteString} (hoffset : a.length = offset)
    (hlength : b.length = value.length) :
    toArray (a ++ (b ++ c)) value offset = .ok (a ++ (value ++ c)) := by
  subst hoffset
  have hdrop : (a ++ (b ++ c)).drop (a.length + value.length) = c := by
    rw [List.drop_append, List.drop_eq_nil_of_le (by omega), List.nil_append,
      Nat.add_sub_cancel_left, List.drop_left' hlength]
  rw [toArray, if_pos (Or.inr (by simp; omega)), hdrop, List.take_left' rfl, List.append_assoc]

private theorem toArray_zeros (hoffset : a.length = offset) :
    toArray (a ++ (List.replicate (padRight value).length 0 ++ c)) value offset =
      .ok (a ++ (padRight value ++ c)) := by
  rw [padRight, List.length_append, List.length_replicate, List.replicate_add, List.append_assoc,
    List.append_assoc]
  exact toArray_middle hoffset List.length_replicate

/-- The loop writes the rest of the heads behind `head` and the rest of the tails behind
`tail`. -/
theorem packLoop_eq (parts : List Part) (head tail : ByteString) :
    packLoop parts head.length (head.length + headSize (parts.map Part.padded) + tail.length)
      (head ++ (List.replicate (headSize (parts.map Part.padded)) 0 ++
        (tail ++ List.replicate (tails (parts.map Part.padded)).length 0))) =
      .ok (head ++ (heads (head.length + headSize (parts.map Part.padded) + tail.length)
        (parts.map Part.padded) ++ (tail ++ tails (parts.map Part.padded)))) := by
  induction parts generalizing head tail with
  | nil => simp [packLoop, heads]
  | cons p parts ih =>
    obtain ⟨dynamic, data⟩ := p
    rw [List.map_cons]
    cases dynamic with
    | false =>
      have hstep := ih (head ++ padRight data) tail
      simp only [List.length_append, List.append_assoc] at hstep
      simp only [packLoop, headSize_cons, tails_cons, Part.padded, Part.headSize, Part.tail, heads,
        Bool.false_eq_true, if_false, List.nil_append, List.append_assoc, ← length_padRight,
        List.replicate_add]
      rw [toArray_zeros rfl, ok_bind, ← Nat.add_assoc, hstep]
    | true =>
      have hoffset : (head ++ (sizeWord (head.length + (32 + headSize (parts.map Part.padded)) +
          tail.length) ++ (List.replicate (headSize (parts.map Part.padded)) 0 ++ tail))).length =
          head.length + (32 + headSize (parts.map Part.padded)) + tail.length := by
        simp only [List.length_append, length_sizeWord, List.length_replicate]
        omega
      have hsecond : toArray _ data _ = _ :=
        toArray_zeros (c := List.replicate (tails (parts.map Part.padded)).length 0) hoffset
      have hstep := ih (head ++ sizeWord (head.length +
        (32 + headSize (parts.map Part.padded)) + tail.length)) (tail ++ padRight data)
      have hposition : head.length + 32 + headSize (parts.map Part.padded) +
          (tail.length + (padRight data).length) = head.length +
            (32 + headSize (parts.map Part.padded)) + tail.length + (padRight data).length := by
        omega
      simp only [List.length_append, length_sizeWord, List.append_assoc, hposition] at hstep
      simp only [List.append_assoc] at hsecond
      simp only [packLoop, headSize_cons, tails_cons, Part.padded, Part.headSize, Part.tail, heads,
        if_true, List.append_assoc, ← length_padRight, List.replicate_add, List.length_append]
      rw [toArray_middle rfl (by simp), ok_bind, hsecond, ok_bind, hstep]

private theorem staticSize_eq (parts : List Part) :
    staticSize parts = headSize (parts.map Part.padded) := by
  rw [staticSize, headSize, List.map_map]
  congr 1
  apply List.map_congr_left
  intro p _
  rw [Function.comp_apply, Part.headSize, Part.padded, length_padRight]

private theorem dynamicSize_eq (parts : List Part) :
    dynamicSize parts = (tails (parts.map Part.padded)).length := by
  rw [dynamicSize, tails, List.length_flatMap, List.map_map]
  congr 1
  apply List.map_congr_left
  intro p _
  rw [Function.comp_apply, Part.tail, Part.padded, ← length_padRight]
  split <;> rfl

/-- `Coder::pack` is the head and tail layout of the padded components. -/
theorem pack_eq (parts : List Part) : pack parts = .ok (tuple (parts.map Part.padded)) := by
  have hloop := packLoop_eq parts [] []
  rw [pack, staticSize_eq, dynamicSize_eq, List.replicate_add]
  simpa [tuple] using hloop

/-- Components of whole words need no padding. -/
theorem pack_eq_tuple {parts : List Part} (h : ∀ p ∈ parts, 32 ∣ p.data.length) :
    pack parts = .ok (tuple parts) := by
  have hpadded : parts.map Part.padded = parts.map id := by
    apply List.map_congr_left
    intro p hp
    rw [Part.padded, padRight_of_dvd (h p hp), id]
  rw [pack_eq, hpadded, List.map_id]

/-- The JSON a type is given in. -/
def typeJson : AbiType → TypeJson
  | .number signed bits => .base (.number bits signed)
  | .address => .base .address
  | .bool => .base .bool
  | .string => .base .string
  | .bytes => .base (.bytes 0)
  | .fixedBytes size => .base (.bytes size)
  | .array element => .array (typeJson element) none
  | .staticArray element size => .array (typeJson element) (some size)

/-- The types whose coder has `dynamicType`. -/
def boxed : AbiType → Bool
  | .string | .bytes | .array _ => true
  | .staticArray element _ => checkDynamic (typeJson element)
  | _ => false

/-- `width` hexadecimal digits of value `n`, behind the prefix. -/
def HexLiteral (width n : Nat) (s : ByteString) : Prop :=
  ∃ digits, s = hexPrefix ++ digits ∧ IsHex digits ∧ digits.length = width ∧ hexValue digits = n

/-- A number of at most 64 hexadecimal or 78 decimal digits. -/
def NumberLiteral (w : Word) (s : ByteString) : Prop :=
  (∃ width ≤ 64, HexLiteral width w.toNat s) ∨
    IsDec s ∧ s.length ≤ 78 ∧ decValue 0 s = w.toNat

/-- Two hexadecimal digits for each byte, behind the prefix. -/
def BytesLiteral (bs s : ByteString) : Prop := HexLiteral (2 * bs.length) (fromBigEndian bs) s

/-- The JSON a value is given in. -/
def Literal : (t : AbiType) → t.Value → Json → Prop
  | .number _ _, w, j => ∃ s, j = .text s ∧ NumberLiteral w s
  | .address, a, j => ∃ s, j = .text s ∧ HexLiteral 40 a.toNat s
  | .bool, b, j => j = .text (hexPrefix ++ [cond b 49 48])
  | .string, text, j => j = .text text
  | .bytes, bs, j => ∃ s, j = .text s ∧ BytesLiteral bs s
  | .fixedBytes _, bs, j => ∃ s, j = .text s ∧ BytesLiteral bs.val s
  | .array element, vs, j => ∃ js, j = .list js ∧ List.Forall₂ (Literal element) vs js
  | .staticArray element _, vs, j => ∃ js, j = .list js ∧ List.Forall₂ (Literal element) vs.val js

private theorem toUint256_of_literal (h : NumberLiteral w s) : toUint256 s = .ok w := by
  rcases h with ⟨width, hwidth, digits, rfl, hhex, rfl, hvalue⟩ | ⟨hdec, hlength, hvalue⟩
  · rw [toUint256_hexPrefix hhex hwidth, hvalue, BitVec.ofNat_toNat, BitVec.setWidth_eq]
  · have hlt := w.isLt
    rw [toUint256_of_isDec hdec hlength (by omega), hvalue, BitVec.ofNat_toNat, BitVec.setWidth_eq]

private theorem bytesStrip_of_literal (h : BytesLiteral bs s) : bytesStrip s = bs := by
  obtain ⟨digits, rfl, hhex, hlength, hvalue⟩ := h
  rw [bytesStrip_hexPrefix hhex hlength, hvalue, toBigEndian_fromBigEndian]

/-- Bytes are written as the literal they are read from. -/
theorem bytesLiteral_toHexString (bs : ByteString) : BytesLiteral bs (toHexString bs) :=
  ⟨hexOfBytes bs, rfl, isHex_hexOfBytes bs, length_hexOfBytes bs, hexValue_hexOfBytes bs⟩

/-- Different bytes have different texts. -/
theorem toHexString_injective : Function.Injective toHexString := by
  intro bs cs h
  rw [← bytesStrip_of_literal (bytesLiteral_toHexString bs), h,
    bytesStrip_of_literal (bytesLiteral_toHexString cs)]

/-- Numbers are written as the literal they are read from. -/
theorem numberLiteral_numberToHexString (w : Word) : NumberLiteral w (numberToHexString w) :=
  Or.inl ⟨_, length_hexDigits_le w, hexDigits w, rfl, isHex_hexDigits w, rfl, hexValue_hexDigits w⟩

private theorem ne_nil_of_bytesLiteral (h : BytesLiteral bs s) : s ≠ [] := by
  obtain ⟨digits, rfl, -⟩ := h
  exact List.cons_ne_nil _ _

private theorem encodeBytes_eq (value : ByteString) :
    Scalar.encodeBytes value = lengthPrefixed value := by
  have hpad : alignSize value.length - value.length = (32 - value.length % 32) % 32 := by
    rw [alignSize]
    omega
  rw [Scalar.encodeBytes, lengthPrefixed, padRight, hpad, List.append_assoc]

private theorem encode_bytes_eq (length : Nat) (value : ByteString) :
    (Scalar.bytes length value).encode = padRight value := by
  rw [Scalar.encode, padRight]
  split
  next h =>
    rw [Nat.mod_eq_of_lt (show 32 - value.length % 32 < 32 by omega)]
  next h =>
    have hzero : value.length % 32 = 0 := by omega
    simp [hzero]

/-- Bytes of the right size are accepted. -/
theorem makeBytes_of_size (hpos : 0 < size) (hle : size ≤ 32) (h : value.length = size) :
    makeBytes size value = .ok (.bytes size value) := by
  rw [makeBytes, if_pos (by omega)]

/-- A loop returns what its rounds return. -/
theorem mapM_ok_of_forall₂ {α β γ : Type} {f : α → Except Failure β} {g : γ → β} {ys : List γ}
    {xs : List α} (h : List.Forall₂ (fun y x => f x = .ok (g y)) ys xs) :
    xs.mapM f = .ok (ys.map g) := by
  rw [mapM_eq_ok, List.forall₂_map_right_iff]
  exact h.flip

/-- The coder of an array packs its elements. -/
theorem packParams_array {next : TypeJson} {len : Option Nat} {js : List Json} {parts : List Part}
    (hsize : len.getD 0 = 0 ∨ js.length = len.getD 0)
    (hitems : js.mapM (packParams next) = .ok parts) (hlength : parts.length = js.length)
    (haligned : ∀ p ∈ parts, 32 ∣ p.data.length) : packParams (.array next len) (.list js) =
      .ok ⟨len.getD 0 = 0 || checkDynamic next,
        if len.getD 0 = 0 then sizeWord js.length ++ tuple parts else tuple parts⟩ := by
  have hcheck : ¬(len.getD 0 ≠ 0 ∧ js.length ≠ len.getD 0) := by tauto
  simp only [packParams, Json.getArray, ok_bind, hcheck, if_false]
  cases js with
  | nil =>
    obtain rfl : parts = [] := List.length_eq_zero_iff.mp hlength
    have hzero : len.getD 0 = 0 := by
      rcases hsize with h | h
      · exact h
      · exact h.symm
    simp only [List.isEmpty_nil, if_true, hzero]
    rfl
  | cons j js =>
    simp only [List.isEmpty_cons, Bool.false_eq_true, if_false, hitems, ok_bind,
      pack_eq_tuple haligned]

/-- An array of literals is packed as the layout of its elements. -/
theorem packParams_elements {element : AbiType} (len : Option Nat) {vs : List element.Value}
    {js : List Json} (hsize : len.getD 0 = 0 ∨ js.length = len.getD 0)
    (hitems : List.Forall₂ (fun v j => packParams (typeJson element) j =
      .ok ⟨boxed element, encodeWith boxed element v⟩) vs js) :
    packParams (.array (typeJson element) len) (.list js) =
      .ok ⟨len.getD 0 = 0 || checkDynamic (typeJson element), if len.getD 0 = 0 then
          sizeWord vs.length ++ tuple (vs.map fun v =>
            ⟨boxed element, encodeWith boxed element v⟩)
        else tuple (vs.map fun v => ⟨boxed element, encodeWith boxed element v⟩)⟩ := by
  have hlength : vs.length = js.length := hitems.length_eq
  have haligned : ∀ p ∈ vs.map fun v => (⟨boxed element, encodeWith boxed element v⟩ : Part),
      32 ∣ p.data.length := by
    intro p hp
    obtain ⟨v, -, rfl⟩ := List.mem_map.mp hp
    exact dvd_length_encodeWith boxed element v
  rw [packParams_array hsize (mapM_ok_of_forall₂ hitems) (by simpa using hlength) haligned, hlength]

private theorem bool_literal (b : Bool) :
    generateScalar .bool (hexPrefix ++ [cond b 49 48]) = .ok (.boolean b) := by
  cases b <;> decide

private theorem encode_boolean (b : Bool) : (Scalar.boolean b).encode = sizeWord b.toNat := by
  cases b <;> decide

/-- The widths of the interface are accepted. -/
theorem isValidBitSize_of_valid (h : bits % 8 = 0 ∧ bits ≤ 256) : isValidBitSize bits = true := by
  simp only [isValidBitSize, Bool.and_eq_true, decide_eq_true_eq]
  split <;> omega

/-- A text is packed as its coder encodes it. -/
theorem packParams_scalar {type : BaseType} {text data : ByteString} {coder : Scalar}
    (h : generateScalar type text = .ok coder) (hencode : coder.encode = data) :
    packParams (.base type) (.text text) = .ok ⟨coder.dynamicType, data⟩ := by
  simp only [packParams, Json.getString, ok_bind, h, hencode]

private theorem number_literal {signed : Bool} (hvalid : bits % 8 = 0 ∧ bits ≤ 256)
    (h : NumberLiteral w s) :
    generateScalar (.number bits signed) s = .ok (.numeric w) := by
  simp only [generateScalar, toUint256_of_literal h, ok_bind, isValidBitSize_of_valid hvalid,
    if_true]

private theorem address_literal {a : BitVec 160} (h : HexLiteral 40 a.toNat s) :
    generateScalar .address s = .ok (.address (wordBytes (a.setWidth 256))) := by
  obtain ⟨digits, rfl, hhex, hlength, hvalue⟩ := h
  rw [generateScalar, toBytes_forty hhex hlength, ok_bind, hvalue, BitVec.ofNat_toNat]

private theorem bytes_literal (h : BytesLiteral bs s) :
    generateScalar (.bytes 0) s = .ok (.dynamicBytes bs) := by
  rw [generateScalar, if_pos rfl, bytesStrip_of_literal h]

private theorem fixedBytes_literal (hvalid : 0 < size ∧ size ≤ 32) (hsize : bs.length = size)
    (h : BytesLiteral bs s) : generateScalar (.bytes size) s = .ok (.bytes size bs) := by
  rw [generateScalar, if_neg (by omega), if_neg (ne_nil_of_bytesLiteral h),
    bytesStrip_of_literal h, makeBytes_of_size hvalid.1 hvalid.2 hsize]

/-- The coder of a literal encodes its value, placing elements by their `dynamicType`. -/
theorem packParams_of_literal (hvalid : t.Valid) : ∀ {v : t.Value} {j : Json}, Literal t v j →
      packParams (typeJson t) j = .ok ⟨boxed t, encodeWith boxed t v⟩ := by
  induction t with
  | number signed bits =>
    rintro w _ ⟨s, rfl, hs⟩
    exact packParams_scalar (number_literal hvalid hs) rfl
  | address =>
    rintro a _ ⟨s, rfl, hs⟩
    exact packParams_scalar (address_literal hs) rfl
  | bool =>
    rintro b _ rfl
    exact packParams_scalar (bool_literal b) (encode_boolean b)
  | string =>
    rintro text _ rfl
    have hcoder : generateScalar .string text = .ok (.utf8String text) := rfl
    exact packParams_scalar hcoder (encodeBytes_eq text)
  | bytes =>
    rintro bs _ ⟨s, rfl, hs⟩
    exact packParams_scalar (bytes_literal hs) (encodeBytes_eq bs)
  | fixedBytes size =>
    rintro bs _ ⟨s, rfl, hs⟩
    exact packParams_scalar (fixedBytes_literal hvalid bs.property hs) (encode_bytes_eq size bs.val)
  | array element ih =>
    rintro vs _ ⟨js, rfl, hjs⟩
    exact packParams_elements none (Or.inl rfl) (hjs.imp fun v j hj => ih hvalid hj)
  | staticArray element size ih =>
    rintro vs _ ⟨js, rfl, hjs⟩
    have hsize : js.length = size := hjs.length_eq.symm.trans vs.property
    have hpack := packParams_elements (some size) (Or.inr hsize)
      (hjs.imp fun v j hj => ih hvalid.1 hj)
    simp only [Option.getD_some, Nat.pos_iff_ne_zero.mp hvalid.2, if_false, decide_false,
      Bool.false_or] at hpack
    exact hpack

/-- The types and the layout of inputs in the expected form. -/
theorem encode_eq_tuple {args : List Argument} {inputs : List Input}
    (hvalid : ∀ a ∈ args, a.type.Valid)
    (hinputs : List.Forall₂ (fun a input => input.type = typeJson a.type ∧
      Literal a.type a.value input.value) args inputs) :
    inputs.map Input.type = args.map (fun a => typeJson a.type) ∧
      encode inputs = .ok (tuple (args.map (part boxed))) := by
  have htypes : inputs.map Input.type = args.map fun a => typeJson a.type := by
    induction hinputs with
    | nil => rfl
    | cons hinput _ ih =>
      rw [List.map_cons, List.map_cons, hinput.1,
        ih fun b hb => hvalid b (List.mem_cons_of_mem _ hb)]
  have hparts : List.Forall₂ (fun a input => packParams input.type input.value =
      .ok (part boxed a)) args inputs := by
    clear htypes
    induction hinputs with
    | nil => exact .nil
    | @cons a input args inputs hinput _ ih =>
      refine .cons ?_ (ih fun b hb => hvalid b (List.mem_cons_of_mem a hb))
      rw [hinput.1]
      exact packParams_of_literal (hvalid a List.mem_cons_self) hinput.2
  have haligned : ∀ p ∈ args.map (part boxed), 32 ∣ p.data.length := by
    intro p hp
    obtain ⟨a, -, rfl⟩ := List.mem_map.mp hp
    exact dvd_length_encodeWith _ a.type a.value
  exact ⟨htypes, by rw [encode, mapM_ok_of_forall₂ hparts, ok_bind, pack_eq_tuple haligned]⟩

/-- Bytes of a fixed length below static arrays only. -/
def bottomsInBytes : AbiType → Bool
  | .fixedBytes _ => true
  | .staticArray element _ => bottomsInBytes element
  | _ => false

/-- No static array of the type bottoms out, through static arrays only, in bytes of a fixed
length. -/
def Plain : AbiType → Prop
  | .array element => Plain element
  | .staticArray element _ => bottomsInBytes element = false ∧ Plain element
  | _ => True

private theorem checkDynamic_typeJson (h : bottomsInBytes t = false) :
    checkDynamic (typeJson t) = t.isDynamic := by
  induction t with
  | fixedBytes size => simp [bottomsInBytes] at h
  | staticArray element size ih => exact ih h
  | _ => rfl

private theorem boxed_eq_isDynamic (h : Plain t) : boxed t = t.isDynamic := by
  cases t with
  | staticArray element size => exact checkDynamic_typeJson h.1
  | _ => rfl

/-- On plain types the coder's layout is the standard one. -/
theorem encodeWith_boxed : ∀ {t : AbiType}, Plain t → ∀ v : t.Value,
    encodeWith boxed t v = encodeWith AbiType.isDynamic t v
  | .number _ _, _, _ | .address, _, _ | .bool, _, _ | .string, _, _ | .bytes, _, _
  | .fixedBytes _, _, _ => rfl | .array element, h, vs => by
    simp only [encodeWith, boxed_eq_isDynamic (t := element) h, encodeWith_boxed (t := element) h]
  | .staticArray element _, h, vs => by
    simp only [encodeWith, boxed_eq_isDynamic h.2, encodeWith_boxed h.2]

/-- A new encoder with inputs in the expected form returns the encoding of the tuple. -/
theorem encode_eq_encodeArguments (args : List Argument) (inputs : List Input)
    (htypes : ∀ a ∈ args, a.type.Valid ∧ Plain a.type)
    (hinputs : List.Forall₂ (fun a input => input.type = typeJson a.type ∧
      Literal a.type a.value input.value) args inputs) :
    encode inputs = .ok (encodeArguments args) := by
  have hencode := (encode_eq_tuple (fun a ha => (htypes a ha).1) hinputs).2
  have hparts : args.map (part boxed) = args.map (part AbiType.isDynamic) := by
    apply List.map_congr_left
    intro a ha
    have hplain := (htypes a ha).2
    rw [part, part, boxed_eq_isDynamic hplain, encodeWith_boxed hplain]
  rw [hencode, hparts, encodeArguments]

/-- A number, two byte strings in a dynamic array, and two static rows of booleans. -/
def mixedArguments : List Argument :=
  [⟨.number false 256, (5 : Word)⟩, ⟨.array .bytes, [([1, 2] : ByteString), ([] : ByteString)]⟩,
    ⟨.staticArray (.staticArray .bool 1) 2, ⟨[⟨[true], rfl⟩, ⟨[false], rfl⟩], rfl⟩⟩]

/-- The same arguments as they are added to an encoder. -/
def mixedInputs : List Input :=
  [⟨"uint256", .base (.number 256 false), .text [53]⟩,
    ⟨"bytes[]", .array (.base (.bytes 0)) none, .list [.text (hexPrefix ++ [48, 49, 48, 50]),
      .text hexPrefix]⟩,
    ⟨"bool[1][2]", .array (.array (.base .bool) (some 1)) (some 2),
      .list [.list [.text (hexPrefix ++ [49])], .list [.text (hexPrefix ++ [48])]]⟩]

/-- Arguments of several kinds are laid out as the interface says. -/
theorem encode_mixedInputs : encode mixedInputs = .ok (encodeArguments mixedArguments) := by
  apply encode_eq_encodeArguments
  · simp [mixedArguments, AbiType.Valid, Plain, bottomsInBytes]
  · have hnumber : NumberLiteral 5 [53] := Or.inr (by decide)
    have hpair : BytesLiteral [1, 2] (hexPrefix ++ [48, 49, 48, 50]) :=
      ⟨[48, 49, 48, 50], by decide⟩
    have hempty : BytesLiteral [] hexPrefix := ⟨[], by decide⟩
    refine .cons ⟨rfl, _, rfl, hnumber⟩ (.cons ⟨rfl, _, rfl, ?_⟩ (.cons ⟨rfl, _, rfl, ?_⟩ .nil))
    · exact .cons ⟨_, rfl, hpair⟩ (.cons ⟨_, rfl, hempty⟩ .nil)
    · exact .cons ⟨_, rfl, .cons rfl .nil⟩ (.cons ⟨_, rfl, .cons rfl .nil⟩ .nil)

end CloakBridge.Abicoder
