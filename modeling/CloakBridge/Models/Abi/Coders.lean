import CloakBridge.Models.Abi.DecoderBounds
import CloakBridge.Models.Abi.EncoderCorrect

/-!
# The coders as objects

`encode` and `decode` change the coder they are called on. The coder of an array keeps the
coders of its elements and adds new ones in every call; the coder of bytes of a fixed
length is left with its padding. A new coder behaves as the functions of the encoder and
the decoder say.
-/

namespace CloakBridge.Abicoder

open Abi

/-- The members of an `ArrayType` whose elements have coders `C`. -/
structure ArrayCoder (C : Type) where
  value : List Json
  parameters : List C

/-- The coder objects of a type. -/
@[reducible] def Coder : TypeJson → Type
  | .base _ => Scalar
  | .array next _ => ArrayCoder (Coder next)

/-- The coder of bytes of a fixed length pads its own value. -/
def Scalar.encoded : Scalar → Scalar
  | bytes length value => .bytes length (bytes length value).encode
  | coder => coder

variable {type : TypeJson}

namespace Coder

/-- `generate_coders` -/
def generate : (type : TypeJson) → Json → Except Failure (Coder type)
  | .base type, value => do
    let text ← value.getString
    generateScalar type text
  | .array _ len, value => do
    let items ← value.getArray
    if len.getD 0 ≠ 0 ∧ items.length ≠ len.getD 0 then
      .error (.arraySize (len.getD 0) items.length)
    else .ok ⟨items, []⟩

/-- `entry_identity` -/
def blank : (type : TypeJson) → Except Failure (Coder type)
  | .base type => generateScalar type []
  | .array _ _ => .ok ⟨[], []⟩

/-- `dynamicType()` -/
def dynamicType : (type : TypeJson) → Coder type → Bool
  | .base _, coder => Scalar.dynamicType coder
  | .array next len, _ => len.getD 0 = 0 || checkDynamic next

/-- `get_value()` -/
def getValue : (type : TypeJson) → Coder type → ByteString
  | .base _, coder => Scalar.getValue coder
  | .array next _, coder => coder.parameters.flatMap (getValue next)

/-- `offset()` -/
def offset : (type : TypeJson) → Coder type → Nat
  | .base _, .dynamicBytes value => alignSize value.length
  | .base _, .utf8String value => alignSize value.length
  | .base _, _ => 32
  | .array _ len, _ => if len.getD 0 = 0 then 32 else len.getD 0 * 32

/-- `encode()`, with the coder it leaves behind when it returns. -/
def encode : (type : TypeJson) → Coder type → Except Failure (ByteString × Coder type)
  | .base _, coder => .ok (Scalar.encode coder, Scalar.encoded coder)
  | .array next len, coder =>
    if coder.value.isEmpty then .ok (List.replicate 32 0, coder)
    else do
      let added ← coder.value.mapM (generate next)
      let encoded ← (coder.parameters ++ added).mapM fun parameter => do
        let result ← encode next parameter
        .ok ((⟨dynamicType next parameter, result.1⟩ : Part), result.2)
      let data ← pack (encoded.map Prod.fst)
      .ok (if len.getD 0 = 0 then sizeWord coder.value.length ++ data else data,
        ⟨coder.value, encoded.map Prod.snd⟩)

/-- `basic_decode` of the element at `offset`, with the `decode` of its coder -/
def basicDecode (next : TypeJson)
    (decodeNext : Coder next → ByteString → Except Failure (Coder next))
    (inputs : ByteString) (offset : Nat) : Except Failure (Coder next) := do
  let parameter ← blank next
  if dynamicType next parameter then do
    let offDst ← decodeToUint64 inputs offset
    let rest ← fromIndex inputs (offDst + 32)
    decodeNext parameter rest
  else do
    let word ← subVector inputs offset (offset + 32)
    decodeNext parameter word

/-- `decode(..)` -/
def decode : (type : TypeJson) → Coder type → ByteString → Except Failure (Coder type)
  | .base _, coder, inputs => Scalar.decode coder inputs
  | .array next len, coder, inputs =>
    if len.getD 0 = 0 then
      if inputs.length / 32 < 2 then .error .minimumLength
      else do
        let header ← decodeToUint64 inputs 0
        if inputs.length / 32 - 1 < header then
          .error (.lengthMismatch (inputs.length / 32 - 1) header)
        else do
          let added ← (List.range header).mapM fun i =>
            basicDecode next (decode next) inputs (32 + 32 * i)
          .ok ⟨coder.value, coder.parameters ++ added⟩
    else if inputs.length / 32 < 1 then .error .minimumLength
    else do
      let added ← (List.range (len.getD 0)).mapM fun i =>
        basicDecode next (decode next) inputs (32 * i)
      .ok ⟨coder.value, coder.parameters ++ added⟩

/-- What a coder holds. -/
def held : (type : TypeJson) → Coder type → Decoded
  | .base _, coder => .scalar coder
  | .array next _, coder => .array (coder.parameters.map (held next))

variable {value : Json} {next : TypeJson} {len : Option Nat} {part : Part}

private theorem dynamicType_generateScalar {type : BaseType} {text : ByteString} {coder : Scalar}
    (h : generateScalar type text = .ok coder) :
    coder.dynamicType = Abicoder.dynamicType (.base type) := by
  cases type with
  | number bitSize signed =>
    obtain ⟨value, -, h⟩ := except_bind_eq_ok.mp h
    split at h
    next => exact Except.ok.inj h ▸ rfl
    next => cases h
  | address =>
    obtain ⟨value, -, h⟩ := except_bind_eq_ok.mp h
    exact Except.ok.inj h ▸ rfl
  | string => exact Except.ok.inj h ▸ rfl
  | bool =>
    rw [generateScalar, makeBoolean] at h
    split at h
    next => cases h
    next =>
      split at h
      next => cases h
      next => exact Except.ok.inj h ▸ rfl
    next => cases h
  | bytes len =>
    have hfixed : ∀ value, len ≠ 0 → makeBytes len value = .ok coder →
        coder.dynamicType = decide (len = 0) := by
      intro value hzero h
      rw [makeBytes] at h
      split at h
      next => exact Except.ok.inj h ▸ (decide_eq_false hzero).symm
      next => cases h
    rw [generateScalar] at h
    split at h
    next hzero => exact Except.ok.inj h ▸ (decide_eq_true hzero).symm
    next hzero =>
      split at h
      next => exact hfixed _ hzero h
      next => exact hfixed _ hzero h

private theorem dynamicType_generate {coder : Coder type} (h : generate type value = .ok coder) :
    dynamicType type coder = Abicoder.dynamicType type := by
  cases type with
  | base type =>
    obtain ⟨text, -, h⟩ := except_bind_eq_ok.mp h
    exact dynamicType_generateScalar h
  | array next len => rfl

/-- A new coder is dynamic as its type says. -/
theorem dynamicType_blank {coder : Coder type} (h : blank type = .ok coder) :
    dynamicType type coder = Abicoder.dynamicType type := by
  cases type with
  | base type => exact dynamicType_generateScalar h
  | array next len => rfl

/-- The coder of an array with a value. -/
theorem generate_array {coder : Coder (.array next len)}
    (h : generate (.array next len) value = .ok coder) :
    ∃ items, value = .list items ∧ coder = ⟨items, []⟩ ∧
      (len.getD 0 ≠ 0 → items.length = len.getD 0) := by
  obtain ⟨items, hitems, h⟩ := except_bind_eq_ok.mp h
  cases value with
  | text s => cases hitems
  | list items' =>
    obtain rfl := Except.ok.inj hitems
    split at h
    next => cases h
    next hsize =>
      refine ⟨items', rfl, (Except.ok.inj h).symm, fun hlen => ?_⟩
      by_contra hne
      exact hsize ⟨hlen, hne⟩

/-- What `pack` is given for a parameter, and the parameter afterwards. -/
def encodePart (type : TypeJson) (parameter : Coder type) :
    Except Failure (Part × Coder type) := do
  let result ← encode type parameter
  .ok (⟨dynamicType type parameter, result.1⟩, result.2)

/-- A part is what its coder encodes to. -/
theorem encodePart_eq_ok {parameter : Coder type} {parameter' : Coder type} :
    encodePart type parameter = .ok (part, parameter') ↔
      encode type parameter = .ok (part.data, parameter') ∧
        part.dynamic = dynamicType type parameter := by
  rw [encodePart, except_bind_eq_ok]
  constructor
  · rintro ⟨⟨data, after⟩, hencode, h⟩
    obtain ⟨rfl, rfl⟩ := Prod.mk.inj (Except.ok.inj h)
    exact ⟨hencode, rfl⟩
  · rintro ⟨hencode, hdynamic⟩
    refine ⟨_, hencode, ?_⟩
    rw [← hdynamic]

/-- The coder of an array with items packs its parameters and the coders of the items. -/
theorem encode_array_eq_ok {coder coder' : Coder (.array next len)} {data : ByteString}
    (hvalue : coder.value ≠ []) : encode (.array next len) coder = .ok (data, coder') ↔
      ∃ added encoded packed, coder.value.mapM (generate next) = .ok added ∧
        (coder.parameters ++ added).mapM (encodePart next) = .ok encoded ∧
        pack (encoded.map Prod.fst) = .ok packed ∧
        data = (if len.getD 0 = 0 then sizeWord coder.value.length ++ packed else packed) ∧
        coder' = ⟨coder.value, encoded.map Prod.snd⟩ := by
  have hempty : coder.value.isEmpty = false := List.isEmpty_eq_false_iff.mpr hvalue
  have hrun : encode (.array next len) coder = coder.value.mapM (generate next) >>= fun added =>
        (coder.parameters ++ added).mapM (encodePart next) >>= fun encoded =>
          pack (encoded.map Prod.fst) >>= fun packed =>
            .ok (if len.getD 0 = 0 then sizeWord coder.value.length ++ packed else packed,
              ⟨coder.value, encoded.map Prod.snd⟩) := by
    rw [encode, hempty]
    rfl
  rw [hrun]
  constructor
  · intro h
    obtain ⟨added, hadded, h⟩ := except_bind_eq_ok.mp h
    obtain ⟨encoded, hencoded, h⟩ := except_bind_eq_ok.mp h
    obtain ⟨packed, hpacked, h⟩ := except_bind_eq_ok.mp h
    obtain ⟨rfl, rfl⟩ := Prod.mk.inj (Except.ok.inj h)
    exact ⟨added, encoded, packed, hadded, hencoded, hpacked, rfl, rfl⟩
  · rintro ⟨added, encoded, packed, hadded, hencoded, hpacked, rfl, rfl⟩
    rw [hadded, ok_bind, hencoded, ok_bind, hpacked, ok_bind]

private theorem mapM_packParams
    (h : ∀ {value part}, packParams next value = .ok part ↔ ∃ coder data coder',
      generate next value = .ok coder ∧ encode next coder = .ok (data, coder') ∧
        part = ⟨dynamicType next coder, data⟩) (items : List Json) (parts : List Part) :
    items.mapM (packParams next) = .ok parts ↔
      ∃ added encoded, items.mapM (generate next) = .ok added ∧
        added.mapM (encodePart next) = .ok encoded ∧ parts = encoded.map Prod.fst := by
  simp only [mapM_eq_ok]
  induction items generalizing parts with
  | nil =>
    constructor
    · rintro ⟨⟩
      exact ⟨[], [], .nil, .nil, rfl⟩
    · rintro ⟨_, _, ⟨⟩, ⟨⟩, rfl⟩
      exact .nil
  | cons item items ih =>
    constructor
    · rintro (_ | ⟨hpart, hparts⟩)
      obtain ⟨coder, data, coder', hcoder, hencode, rfl⟩ := h.mp hpart
      obtain ⟨added, encoded, hadded, hencoded, rfl⟩ := (ih _).mp hparts
      exact ⟨coder :: added, (_, coder') :: encoded, .cons hcoder hadded,
        .cons (encodePart_eq_ok.mpr ⟨hencode, rfl⟩) hencoded, rfl⟩
    · rintro ⟨_, _, _ | ⟨hcoder, hadded⟩, _ | ⟨hencode, hencoded⟩, rfl⟩
      obtain ⟨hencode, hdynamic⟩ := encodePart_eq_ok.mp hencode
      refine .cons (h.mpr ⟨_, _, _, hcoder, hencode, ?_⟩) ((ih _).mpr ⟨_, _, hadded, hencoded, rfl⟩)
      rw [← hdynamic]

/-- A new coder encodes to what `pack` is given for its value. -/
theorem packParams_eq_ok :
    packParams type value = .ok part ↔ ∃ coder data coder', generate type value = .ok coder ∧
      encode type coder = .ok (data, coder') ∧ part = ⟨dynamicType type coder, data⟩ := by
  induction type generalizing value part with
  | base type =>
    cases value with
    | list items =>
      constructor
      · intro h
        cases h
      · rintro ⟨_, _, _, h, _⟩
        cases h
    | text text =>
      have hpack : packParams (.base type) (.text text) = generateScalar type text >>= fun coder =>
          .ok ⟨coder.dynamicType, coder.encode⟩ := rfl
      rw [hpack, except_bind_eq_ok]
      constructor
      · rintro ⟨coder, hcoder, h⟩
        exact ⟨coder, _, _, hcoder, rfl, (Except.ok.inj h).symm⟩
      · rintro ⟨coder, data, coder', hcoder, hencode, rfl⟩
        obtain ⟨rfl, -⟩ := Prod.mk.inj (Except.ok.inj hencode)
        exact ⟨coder, hcoder, rfl⟩
  | array next len ih =>
    cases value with
    | text text =>
      constructor
      · intro h
        cases h
      · rintro ⟨_, _, _, h, _⟩
        cases h
    | list items =>
      have hgenerate : generate (.array next len) (.list items) =
          if len.getD 0 ≠ 0 ∧ items.length ≠ len.getD 0 then
            .error (.arraySize (len.getD 0) items.length) else .ok ⟨items, []⟩ := rfl
      simp only [packParams, Json.getArray, ok_bind, hgenerate]
      by_cases hsize : len.getD 0 ≠ 0 ∧ items.length ≠ len.getD 0
      · rw [if_pos hsize, if_pos hsize]
        constructor
        · intro h
          cases h
        · rintro ⟨_, _, _, h, _⟩
          cases h
      · rw [if_neg hsize, if_neg hsize]
        cases items with
        | nil =>
          constructor
          · intro h
            exact ⟨_, _, _, rfl, rfl, (Except.ok.inj h).symm⟩
          · rintro ⟨coder, data, coder', hcoder, hencode, rfl⟩
            obtain rfl := Except.ok.inj hcoder
            obtain ⟨rfl, -⟩ := Prod.mk.inj (Except.ok.inj hencode)
            rfl
        | cons item items =>
          rw [List.isEmpty_cons, if_neg Bool.false_ne_true, except_bind_eq_ok]
          constructor
          · rintro ⟨parts, hparts, h⟩
            obtain ⟨packed, hpacked, hpart⟩ := except_bind_eq_ok.mp h
            obtain ⟨added, encoded, hadded, hencoded, rfl⟩ := (mapM_packParams ih _ _).mp hparts
            refine ⟨_, _, ⟨item :: items, encoded.map Prod.snd⟩, rfl, ?_,
              (Except.ok.inj hpart).symm⟩
            exact (encode_array_eq_ok (List.cons_ne_nil _ _)).mpr
              ⟨added, encoded, packed, hadded, hencoded, hpacked, rfl, rfl⟩
          · rintro ⟨coder, data, coder', hcoder, hencode, rfl⟩
            obtain rfl := Except.ok.inj hcoder
            obtain ⟨added, encoded, packed, hadded, hencoded, hpacked, rfl, -⟩ :=
              (encode_array_eq_ok (List.cons_ne_nil _ _)).mp hencode
            refine ⟨_, (mapM_packParams ih _ _).mpr ⟨added, encoded, hadded, hencoded, rfl⟩, ?_⟩
            rw [hpacked]
            rfl

private theorem entryIdentity_eq (type : TypeJson) :
    entryIdentity type = blank type >>= fun _ => .ok () := by
  cases type <;> rfl

private theorem basicDecode_eq
    (h : ∀ inputs, decodeAs next inputs = (blank next >>= fun coder => decode next coder inputs) >>=
      fun coder => .ok (held next coder)) (inputs : ByteString) (offset : Nat) :
    Abicoder.basicDecode next (decodeAs next) inputs offset =
      basicDecode next (decode next) inputs offset >>= fun coder => .ok (held next coder) := by
  rw [Abicoder.basicDecode, basicDecode, entryIdentity_eq]
  cases hblank : blank next with
  | error failure => rfl
  | ok parameter =>
    have hnext : ∀ rest, decodeAs next rest =
        decode next parameter rest >>= fun coder => .ok (held next coder) := by
      intro rest
      rw [h, hblank]
      rfl
    simp only [ok_bind, dynamicType_blank hblank]
    split
    next =>
      cases decodeToUint64 inputs offset with
      | error failure => rfl
      | ok offDst =>
        simp only [ok_bind]
        cases fromIndex inputs (offDst + 32) with
        | error failure => rfl
        | ok rest => exact hnext rest
    next =>
      cases subVector inputs offset (offset + 32) with
      | error failure => rfl
      | ok word => exact hnext word

/-- A blank coder that is filled holds what the decoder returns. -/
theorem decodeAs_eq (type : TypeJson) (inputs : ByteString) :
    decodeAs type inputs = (blank type >>= fun coder => decode type coder inputs) >>=
      fun coder => .ok (held type coder) := by
  induction type generalizing inputs with
  | base type =>
    rw [decodeAs, blank, bind_assoc]
    rfl
  | array next len ih =>
    have hloop : ∀ (offsets : Nat → Nat) (n : Nat), ((List.range n).mapM fun i =>
          Abicoder.basicDecode next (decodeAs next) inputs (offsets i)) =
        ((List.range n).mapM fun i => basicDecode next (decode next) inputs (offsets i)) >>=
          fun added => .ok (added.map (held next)) := by
      intro offsets n
      simp only [basicDecode_eq ih]
      exact mapM_map _ _ _
    rw [decodeAs, blank, ok_bind, decode]
    split
    next =>
      split
      next => rfl
      next =>
        cases decodeToUint64 inputs 0 with
        | error failure => rfl
        | ok header =>
          simp only [ok_bind]
          split
          next => rfl
          next =>
            rw [hloop]
            cases (List.range header).mapM fun i =>
              basicDecode next (decode next) inputs (32 + 32 * i) <;> rfl
    next =>
      split
      next => rfl
      next =>
        rw [hloop]
        cases (List.range (len.getD 0)).mapM fun i =>
          basicDecode next (decode next) inputs (32 * i) <;> rfl

/-- The stride is that of what the coder holds. -/
theorem headStride_held (type : TypeJson) (coder : Coder type) :
    headStride type (held type coder) = offset type coder := by
  cases type with
  | base type => cases coder <;> rfl
  | array next len => rfl

/-- A coder that `generate_coders` or `entry_identity` builds for the type. -/
def Built (type : TypeJson) (coder : Coder type) : Prop :=
  (∃ value, generate type value = .ok coder) ∨ blank type = .ok coder

private theorem dynamicType_of_built {coder : Coder type} (h : Built type coder) :
    dynamicType type coder = Abicoder.dynamicType type := by
  rcases h with ⟨value, h⟩ | h
  · exact dynamicType_generate h
  · exact dynamicType_blank h

end Coder

/-- A `Decoder`: the coders of its parameters. -/
abbrev Decoder := List ((type : TypeJson) × Coder type)

namespace Decoder

/-- A decoder to which parameters of these types were added. -/
def new : List TypeJson → Except Failure Decoder
  | [] => .ok []
  | type :: types => do
    let coder ← Coder.blank type
    let decoder ← new types
    .ok (⟨type, coder⟩ :: decoder)

/-- `Decoder::decode`, from the parameter whose head is at `offset` on -/
def decode (inputs : ByteString) : Decoder → Nat → Except Failure Decoder
  | [], _ => .ok []
  | ⟨type, coder⟩ :: decoder, offset => do
    let start ← if Coder.dynamicType type coder then decodeToUint64 inputs offset else .ok offset
    let rest ← fromIndex inputs start
    let coder ← Coder.decode type coder rest
    let decoder ← decode inputs decoder (offset + Coder.offset type coder)
    .ok (⟨type, coder⟩ :: decoder)

/-- What the coders of a decoder hold. -/
def values (decoder : Decoder) : List Decoded :=
  decoder.map fun parameter => Coder.held parameter.1 parameter.2

variable {types : List TypeJson} {decoder : Decoder}

/-- A decoder is built type by type. -/
theorem new_cons_eq_ok :
    new (type :: types) = .ok decoder ↔ ∃ coder rest, Coder.blank type = .ok coder ∧
      new types = .ok rest ∧ decoder = ⟨type, coder⟩ :: rest := by
  rw [new, except_bind_eq_ok]
  constructor
  · rintro ⟨coder, hcoder, h⟩
    obtain ⟨rest, hrest, h⟩ := except_bind_eq_ok.mp h
    exact ⟨coder, rest, hcoder, hrest, (Except.ok.inj h).symm⟩
  · rintro ⟨coder, rest, hcoder, hrest, rfl⟩
    exact ⟨coder, hcoder, except_bind_eq_ok.mpr ⟨rest, hrest, rfl⟩⟩

/-- The parameters of a new decoder are filled as the decoder's loop says. -/
theorem decodeLoop_eq (h : new types = .ok decoder) (inputs : ByteString) (offset : Nat) :
    decodeLoop inputs types offset =
      decode inputs decoder offset >>= fun decoder => .ok (values decoder) := by
  induction types generalizing decoder offset with
  | nil =>
    obtain rfl := Except.ok.inj h
    rfl
  | cons type types ih =>
    obtain ⟨blank, rest, hblank, hrest, rfl⟩ := new_cons_eq_ok.mp h
    have hnext : ∀ data, decodeAs type data =
        Coder.decode type blank data >>= fun coder => .ok (Coder.held type coder) := by
      intro data
      rw [Coder.decodeAs_eq, hblank, ok_bind]
    have hfilled : ∀ data, (decodeAs type data >>= fun coder =>
          decodeLoop inputs types (offset + headStride type coder) >>= fun coders =>
            .ok (coder :: coders)) =
        (Coder.decode type blank data >>= fun coder =>
          decode inputs rest (offset + Coder.offset type coder) >>= fun decoder =>
            .ok (⟨type, coder⟩ :: decoder)) >>= fun decoder => .ok (values decoder) := by
      intro data
      rw [hnext]
      cases Coder.decode type blank data with
      | error failure => rfl
      | ok coder =>
        simp only [ok_bind, Coder.headStride_held, ih hrest]
        cases decode inputs rest (offset + Coder.offset type coder) <;> rfl
    rw [decodeLoop, decode, decodeAt, Coder.dynamicType_blank hblank]
    by_cases hdynamic : Abicoder.dynamicType type = true
    · simp only [hdynamic, if_true]
      cases decodeToUint64 inputs offset with
      | error failure => rfl
      | ok start =>
        simp only [ok_bind]
        cases fromIndex inputs start with
        | error failure => rfl
        | ok data => exact hfilled data
    · simp only [hdynamic, Bool.false_eq_true, if_false, ok_bind]
      cases fromIndex inputs offset with
      | error failure => rfl
      | ok data => exact hfilled data

private theorem forM_entryIdentity_eq (types : List TypeJson) :
    types.forM entryIdentity = new types >>= fun _ => .ok () := by
  induction types with
  | nil => rfl
  | cons type types ih =>
    rw [List.forM, ih, Coder.entryIdentity_eq, new]
    cases Coder.blank type with
    | error failure => rfl
    | ok coder => cases new types <;> rfl

/-- A new decoder returns coders that hold what the decoder's function returns. -/
theorem decode_eq (types : List TypeJson) (inputs : ByteString) :
    Abicoder.decode types inputs = (new types >>= fun decoder => decode inputs decoder 0) >>=
      fun decoder => .ok (values decoder) := by
  rw [Abicoder.decode, forM_entryIdentity_eq]
  cases hnew : new types with
  | error failure => rfl
  | ok decoder => exact decodeLoop_eq hnew inputs 0

end Decoder

/-- The dynamic types of the interface: strings, byte strings, arrays without a length, and arrays
of dynamic types. -/
def solidityDynamic : TypeJson → Bool
  | .base .string => true
  | .base (.bytes len) => len = 0
  | .base _ => false
  | .array _ none => true
  | .array next (some _) => solidityDynamic next

/-- The type below the arrays with a length. -/
def core : TypeJson → TypeJson
  | .array next (some _) => core next
  | type => type

/-- The type has, below its arrays with a length, no bytes of a fixed length, and it is no array of
length zero with static contents. -/
def Uniform (type : TypeJson) : Prop :=
  (∀ len, core type = .base (.bytes len) → len = 0) ∧
    ∀ next, type = .array next (some 0) → solidityDynamic next = true

/-- `check_dynamic`, the coders and the interface agree on whether the type is dynamic. -/
structure OneNotion (type : TypeJson) : Prop where
  check : checkDynamic type = solidityDynamic type
  coders : ∀ coder, Coder.Built type coder → Coder.dynamicType type coder = solidityDynamic type

/-- `check_dynamic` is right unless the type bottoms out in bytes of a fixed length. -/
theorem checkDynamic_eq_iff (type : TypeJson) :
    checkDynamic type = solidityDynamic type ↔ ∀ len, core type = .base (.bytes len) → len = 0 := by
  induction type with
  | base type =>
    cases type with
    | _ => simp [checkDynamic, solidityDynamic, core]
  | array next len ih =>
    cases len with
    | none => simp [checkDynamic, solidityDynamic, core]
    | some size => exact ih

/-- The three notions agree exactly on the uniform types. -/
theorem oneNotion_iff (type : TypeJson) : OneNotion type ↔ Uniform type := by
  constructor
  · rintro ⟨hcheck, hcoders⟩
    refine ⟨(checkDynamic_eq_iff type).mp hcheck, ?_⟩
    rintro next rfl
    -- the coder of an array of length zero is that of an array without a length
    have hblank : Coder.Built (.array next (some 0)) ⟨[], []⟩ := Or.inr rfl
    exact (hcoders _ hblank).symm
  · rintro ⟨hcore, hzero⟩
    have hcheck := (checkDynamic_eq_iff type).mpr hcore
    refine ⟨hcheck, fun coder hbuilt => ?_⟩
    rw [Coder.dynamicType_of_built hbuilt]
    cases type with
    | base type => cases type <;> rfl
    | array next len =>
      cases len with
      | none => rfl
      | some size =>
        by_cases hsize : size = 0
        · subst hsize
          exact (hzero next rfl).symm
        · have hnext : checkDynamic next = solidityDynamic next := hcheck
          simp [dynamicType, solidityDynamic, hsize, hnext]

/-- Two elements of 32 bytes: `check_dynamic` calls the array dynamic. -/
theorem not_oneNotion_bytes32 : ¬OneNotion (.array (.base (.bytes 32)) (some 2)) :=
  fun h => absurd h.check (by decide)

end CloakBridge.Abicoder
