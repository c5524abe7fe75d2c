import CloakBridge.Models.Abi.Coders

/-!
# Encoding and decoding again

A coder that is no array encodes to the same bytes every time. The coder of an
array with items has twice as many parameters in the second call as in the
first, so that the second result is longer. A decoder is left with the elements
that its arrays read, and reads them a second time behind the first.
-/

namespace CloakBridge.Abicoder

open Abi List

variable {after data inputs : ByteString} {parts : List Part} {coder : Scalar}
  {type next : TypeJson} {len : Option Nat}

private theorem length_toArray {result value : ByteString} {offset : Nat}
    (h : toArray result value offset = .ok after) : after.length = result.length := by
  unfold toArray at h
  split at h
  next hfits =>
    rw [← Except.ok.inj h]
    simp only [length_append, length_take, length_drop]
    rcases hfits with rfl | hfits
    · simp only [length_nil]
      omega
    · omega
  next => cases h

private theorem length_packLoop {offset dynamicOffset : Nat}
    (h : packLoop parts offset dynamicOffset data = .ok after) : after.length = data.length := by
  induction parts generalizing offset dynamicOffset data with
  | nil => rw [← Except.ok.inj h]
  | cons part parts ih =>
    rw [packLoop] at h
    split at h
    next =>
      obtain ⟨first, hfirst, h⟩ := except_bind_eq_ok.mp h
      obtain ⟨second, hsecond, h⟩ := except_bind_eq_ok.mp h
      rw [ih h, length_toArray hsecond, length_toArray hfirst]
    next =>
      obtain ⟨first, hfirst, h⟩ := except_bind_eq_ok.mp h
      rw [ih h, length_toArray hfirst]

/-- The room `basic_pack` sets aside for one part. -/
def partSize (part : Part) : Nat :=
  if part.dynamic then 32 + alignSize part.data.length else alignSize part.data.length

private theorem length_pack (h : pack parts = .ok data) :
    data.length = (parts.map partSize).sum := by
  have hsum : staticSize parts + dynamicSize parts = (parts.map partSize).sum := by
    clear h
    induction parts with
    | nil => rfl
    | cons part parts ih =>
      simp only [staticSize, dynamicSize, map_cons, sum_cons] at ih ⊢
      rw [← ih, partSize]
      split <;> omega
  rw [length_packLoop h, length_replicate, hsum]

private theorem partSize_pos {part : Part} (h : part.data ≠ []) : 0 < partSize part := by
  have hlength : 0 < part.data.length := length_pos_iff.mpr h
  unfold partSize alignSize
  split <;> omega

namespace Scalar

/-- The coders that are built have a value to encode. -/
def Filled : Scalar → Prop
  | address value | bytes _ value => value ≠ []
  | _ => True

private theorem filled_encoded (h : coder.Filled) : coder.encoded.Filled := by
  cases coder with
  | bytes length value =>
    change (bytes length value).encode ≠ []
    rw [encode]
    split
    next => exact append_ne_nil_of_left_ne_nil h _
    next => exact h
  | _ => exact h

private theorem encode_ne_nil (h : coder.Filled) : coder.encode ≠ [] := by
  have hsized : ∀ {bs : ByteString}, 0 < bs.length → bs ≠ [] := length_pos_iff.mp
  cases coder with
  | address value => exact h
  | numeric _ | boolean _ => exact hsized (by simp [encode])
  | bytes length value => exact filled_encoded h
  | dynamicBytes _ | utf8String _ => exact hsized (by simp [encode, encodeBytes])

private theorem encode_encoded (coder : Scalar) : coder.encoded.encode = coder.encode := by
  cases coder with
  | bytes length value =>
    change (bytes length (bytes length value).encode).encode = _
    have haligned : (bytes length value).encode.length % 32 = 0 := by
      rw [encode]
      split
      next hmod =>
        rw [length_append, length_replicate]
        omega
      next hmod => omega
    generalize (bytes length value).encode = padded at haligned ⊢
    rw [encode, if_neg (by omega)]
  | _ => rfl

private theorem encoded_encoded (coder : Scalar) : coder.encoded.encoded = coder.encoded := by
  cases coder with
  | bytes length value => exact congrArg (bytes length) (encode_encoded (bytes length value))
  | _ => rfl

private theorem filled_generateScalar {type : BaseType} {text : ByteString}
    (h : generateScalar type text = .ok coder) : coder.Filled := by
  cases type with
  | number bitSize signed =>
    obtain ⟨value, -, h⟩ := except_bind_eq_ok.mp h
    split at h
    next => exact Except.ok.inj h ▸ trivial
    next => cases h
  | address =>
    obtain ⟨value, hvalue, h⟩ := except_bind_eq_ok.mp h
    obtain rfl := Except.ok.inj h
    rw [toBytes] at hvalue
    split at hvalue
    next => cases hvalue
    next =>
      split at hvalue
      next => cases hvalue
      next =>
        rw [← Except.ok.inj hvalue]
        exact length_pos_iff.mp (by simp)
  | string => exact Except.ok.inj h ▸ trivial
  | bool =>
    rw [generateScalar, makeBoolean] at h
    split at h
    next => cases h
    next =>
      split at h
      next => cases h
      next => exact Except.ok.inj h ▸ trivial
    next => cases h
  | bytes len =>
    have hfixed : ∀ value, makeBytes len value = .ok coder → coder.Filled := by
      intro value h
      rw [makeBytes] at h
      split at h
      next hsize => exact Except.ok.inj h ▸ length_pos_iff.mp hsize.1
      next => cases h
    rw [generateScalar] at h
    split at h
    next => exact Except.ok.inj h ▸ trivial
    next =>
      split at h
      next => exact hfixed _ h
      next => exact hfixed _ h

end Scalar

namespace Coder

/-- The coder has something to encode; the coder of an array always does. -/
def Filled : (type : TypeJson) → Coder type → Prop
  | .base _, coder => Scalar.Filled coder
  | .array _ _, _ => True

variable {value : Json} {items : List Json}

private theorem filled_generate {coder : Coder type} (h : generate type value = .ok coder) :
    Filled type coder := by
  cases type with
  | base type =>
    obtain ⟨text, -, h⟩ := except_bind_eq_ok.mp h
    exact Scalar.filled_generateScalar h
  | array next len => trivial

private theorem filled_encode {coder coder' : Coder type} (hfilled : Filled type coder)
    (h : encode type coder = .ok (data, coder')) : Filled type coder' := by
  cases type with
  | base type =>
    obtain ⟨-, rfl⟩ := Prod.mk.inj (Except.ok.inj h)
    exact Scalar.filled_encoded hfilled
  | array next len => trivial

private theorem sum_partSize_pos
    (h : ∀ {coder coder' : Coder next} {data : ByteString}, Filled next coder →
      encode next coder = .ok (data, coder') → data ≠ []) {parameters : List (Coder next)}
    {encoded : List (Part × Coder next)} (hne : parameters ≠ [])
    (hfilled : ∀ parameter ∈ parameters, Filled next parameter)
    (hencoded : parameters.mapM (encodePart next) = .ok encoded) :
    0 < ((encoded.map Prod.fst).map partSize).sum := by
  rcases mapM_eq_ok.mp hencoded with _ | @⟨parameter, ⟨part, after⟩, _, _, hpart, -⟩
  · exact absurd rfl hne
  · have hdata := h (hfilled parameter mem_cons_self) (encodePart_eq_ok.mp hpart).1
    have hpos := partSize_pos hdata
    simp only [map_cons, sum_cons]
    omega

private theorem filled_of_mapM_generate {added : List (Coder next)}
    (h : items.mapM (generate next) = .ok added) : ∀ parameter ∈ added, Filled next parameter := by
  intro parameter hmem
  obtain ⟨value, -, hvalue⟩ := exists_of_mem_mapM h hmem
  exact filled_generate hvalue

private theorem encode_ne_nil {coder coder' : Coder type} (hfilled : Filled type coder)
    (h : encode type coder = .ok (data, coder')) : data ≠ [] := by
  induction type generalizing data with
  | base type =>
    obtain ⟨rfl, -⟩ := Prod.mk.inj (Except.ok.inj h)
    exact Scalar.encode_ne_nil hfilled
  | array next len ih =>
    by_cases hvalue : coder.value = []
    · rw [encode, if_pos (isEmpty_iff.mpr hvalue)] at h
      obtain ⟨rfl, -⟩ := Prod.mk.inj (Except.ok.inj h)
      exact cons_ne_nil _ _
    · obtain ⟨added, encoded, packed, hadded, hencoded, hpacked, rfl, -⟩ :=
        (encode_array_eq_ok hvalue).mp h
      obtain ⟨before, new, hbefore, hnew, rfl⟩ := mapM_append_eq_ok.mp hencoded
      have hne : added ≠ [] := by
        rintro rfl
        have hlength := (mapM_eq_ok.mp hadded).length_eq
        exact hvalue (length_eq_zero_iff.mp hlength)
      have hpos := sum_partSize_pos ih hne (filled_of_mapM_generate hadded) hnew
      have hlength := length_pack hpacked
      rw [map_append, map_append, sum_append] at hlength
      have hpacked : packed ≠ [] := length_pos_iff.mp (by omega)
      split
      next => exact append_ne_nil_of_right_ne_nil _ hpacked
      next => exact hpacked

/-- The value has no elements. -/
def NoItems : TypeJson → Json → Prop
  | .base _, _ => True
  | .array _ _, value => value = .list []

/-- Encoding a second time, after a first call left the coder `coder'`, gives the same bytes and
leaves its value. -/
def EncodesAgain (type : TypeJson) (coder' : Coder type) (data : ByteString) : Prop :=
  ∃ coder'', encode type coder' = .ok (data, coder'') ∧
    getValue type coder'' = getValue type coder'

/-- The second call on an array with items has more to pack than the first. -/
theorem not_encodesAgain {coder' : Coder (.array next len)} (hitems : items ≠ [])
    (h : encode (.array next len) ⟨items, []⟩ = .ok (data, coder')) :
    ¬EncodesAgain (.array next len) coder' data := by
  obtain ⟨added, encoded, packed, hadded, hencoded, hpacked, rfl, rfl⟩ :=
    (encode_array_eq_ok hitems).mp h
  rintro ⟨coder'', hagain, -⟩
  obtain ⟨added', encoded', packed', hadded', hencoded', hpacked', hdata, -⟩ :=
    (encode_array_eq_ok hitems).mp hagain
  obtain rfl : added = added' := Except.ok.inj (hadded.symm.trans hadded')
  obtain ⟨before, new, hbefore, hnew, rfl⟩ := mapM_append_eq_ok.mp hencoded'
  obtain rfl : encoded = new := Except.ok.inj (hencoded.symm.trans hnew)
  have hfilled := filled_of_mapM_generate hadded
  have hne : encoded.map Prod.snd ≠ [] := by
    intro hnil
    have hlength := (mapM_eq_ok.mp hencoded).length_eq
    have hlength' := (mapM_eq_ok.mp hadded).length_eq
    rw [map_eq_nil_iff.mp hnil] at hlength
    exact hitems (length_eq_zero_iff.mp (hlength'.trans hlength))
  have hafter : ∀ parameter ∈ encoded.map Prod.snd, Filled next parameter := by
    intro parameter hmem
    obtain ⟨⟨part, after⟩, hpair, rfl⟩ := mem_map.mp hmem
    obtain ⟨first, hfirst, hpart⟩ := exists_of_mem_mapM hencoded hpair
    exact filled_encode (hfilled first hfirst) (encodePart_eq_ok.mp hpart).1
  have hpos := sum_partSize_pos encode_ne_nil hne hafter hbefore
  have hlength := length_pack hpacked
  have hlength' := length_pack hpacked'
  rw [map_append, map_append, sum_append, ← hlength] at hlength'
  have hsame : packed.length = packed'.length := by
    split at hdata
    next => exact congrArg List.length (append_cancel_left hdata)
    next => exact congrArg List.length hdata
  omega

/-- A coder can be used again exactly if it has no items. -/
theorem encodesAgain_iff {coder coder' : Coder type} (hcoder : generate type value = .ok coder)
    (h : encode type coder = .ok (data, coder')) :
    EncodesAgain type coder' data ↔ NoItems type value := by
  cases type with
  | base type =>
    obtain ⟨rfl, rfl⟩ := Prod.mk.inj (Except.ok.inj h)
    refine iff_of_true ⟨Scalar.encoded (Scalar.encoded coder), ?_, ?_⟩ trivial
    · rw [encode, Scalar.encode_encoded]
    · rw [Scalar.encoded_encoded]
  | array next len =>
    obtain ⟨items, rfl, rfl, -⟩ := generate_array hcoder
    cases items with
    | nil =>
      obtain ⟨rfl, rfl⟩ := Prod.mk.inj (Except.ok.inj h)
      exact iff_of_true ⟨_, rfl, rfl⟩ rfl
    | cons item items =>
      have hitems : ¬NoItems (.array next len) (.list (item :: items)) := by
        intro hempty
        cases hempty
      exact iff_of_false (not_encodesAgain (cons_ne_nil _ _) h) hitems

end Coder

private theorem Scalar.decode_again {filled : Scalar} (h : coder.decode inputs = .ok filled) :
    filled.decode inputs = .ok filled ∧ filled.dynamicType = coder.dynamicType := by
  cases coder with
  | address _ | numeric _ =>
    rw [decode] at h
    split at h
    next => cases h
    next hlength =>
      obtain rfl := Except.ok.inj h
      exact ⟨if_neg hlength, rfl⟩
  | boolean value =>
    have hsame : ∀ b, (boolean b).decode inputs = (boolean value).decode inputs := fun _ => rfl
    have hkind : ∃ b, filled = boolean b := by
      rw [decode] at h
      split at h
      next => cases h
      next =>
        split at h
        next => exact ⟨true, (Except.ok.inj h).symm⟩
        next =>
          split at h
          next => exact ⟨false, (Except.ok.inj h).symm⟩
          next => cases h
    obtain ⟨b, rfl⟩ := hkind
    exact ⟨(hsame b).trans h, rfl⟩
  | bytes length value =>
    rw [decode] at h
    split at h
    next => cases h
    next hspace =>
      split at h
      next => cases h
      next hlength =>
        obtain rfl := Except.ok.inj h
        have htake : (inputs.take length).length = length := by
          rw [length_take]
          omega
        refine ⟨?_, rfl⟩
        rw [decode, if_neg hspace, if_neg hlength, drop_left' htake]
  | dynamicBytes _ | utf8String _ =>
    obtain ⟨read, hread, h⟩ := except_bind_eq_ok.mp h
    obtain rfl := Except.ok.inj h
    refine ⟨?_, rfl⟩
    rw [decode, hread, ok_bind]

namespace Coder

/-- The data has no elements for an array. -/
def NoElements : TypeJson → ByteString → Prop
  | .base _, _ => True
  | .array _ len, inputs => (elementsAt len inputs).1 = 0

private theorem decode_array {coder filled : Coder (.array next len)}
    (h : decode (.array next len) coder inputs = .ok filled) :
    ∃ added, added.length = (elementsAt len inputs).1 ∧
      ∀ coder : Coder (.array next len), decode (.array next len) coder inputs =
        .ok ⟨coder.value, coder.parameters ++ added⟩ := by
  have hlength : ∀ {f : Nat → Except Failure (Coder next)} {n : Nat} {added : List (Coder next)},
      (List.range n).mapM f = .ok added → added.length = n := by
    intro f n added hadded
    rw [← (mapM_eq_ok.mp hadded).length_eq, length_range]
  unfold elementsAt
  rw [decode] at h
  split at h
  next hzero =>
    split at h
    next => cases h
    next hlong =>
      obtain ⟨header, hheader, h⟩ := except_bind_eq_ok.mp h
      split at h
      next => cases h
      next hfew =>
        obtain ⟨added, hadded, h⟩ := except_bind_eq_ok.mp h
        refine ⟨added, ?_, fun coder => ?_⟩
        · rw [if_pos hzero, hlength hadded, eq_of_decodeToUint64 hheader]
        · rw [decode, if_pos hzero, if_neg hlong, hheader, ok_bind, if_neg hfew, hadded, ok_bind]
  next hzero =>
    split at h
    next => cases h
    next hlong =>
      obtain ⟨added, hadded, h⟩ := except_bind_eq_ok.mp h
      refine ⟨added, ?_, fun coder => ?_⟩
      · rw [if_neg hzero, hlength hadded]
      · rw [decode, if_neg hzero, if_neg hlong, hadded, ok_bind]

/-- Filling a coder again with the same data. -/
theorem decode_again {coder filled : Coder type} (h : decode type coder inputs = .ok filled) :
    dynamicType type filled = dynamicType type coder ∧
      ∃ again, decode type filled inputs = .ok again ∧ offset type again = offset type filled ∧
          (held type again = held type filled ↔ NoElements type inputs) := by
  cases type with
  | base type =>
    obtain ⟨hagain, hdynamic⟩ := Scalar.decode_again h
    exact ⟨hdynamic, filled, hagain, rfl, iff_of_true rfl trivial⟩
  | array next len =>
    obtain ⟨added, hadded, hdecode⟩ := decode_array h
    refine ⟨rfl, _, hdecode filled, rfl, ?_⟩
    change Decoded.array ((filled.parameters ++ added).map (held next)) =
      .array (filled.parameters.map (held next)) ↔ (elementsAt len inputs).1 = 0
    rw [Decoded.array.injEq, map_append, append_right_eq_self, map_eq_nil_iff, ← hadded,
      length_eq_zero_iff]

end Coder

namespace Decoder

/-- No array among the parameters has elements in the input. -/
def NoElements (inputs : ByteString) : List TypeJson → Nat → Prop
  | [], _ => True
  | type :: types, offset =>
    Coder.NoElements type (inputs.drop (startAt inputs type offset)) ∧
      NoElements inputs types (offset + strideAt inputs type offset)

variable {decoder filled : Decoder}

private theorem decode_cons_eq_ok {coder : Coder type} {offset : Nat} :
    decode inputs (⟨type, coder⟩ :: decoder) offset = .ok filled ↔ ∃ start data coder' rest,
        (if Coder.dynamicType type coder then decodeToUint64 inputs offset else .ok offset) =
          .ok start ∧
        fromIndex inputs start = .ok data ∧ Coder.decode type coder data = .ok coder' ∧
        decode inputs decoder (offset + Coder.offset type coder') = .ok rest ∧
        filled = ⟨type, coder'⟩ :: rest := by
  have hrun : decode inputs (⟨type, coder⟩ :: decoder) offset =
      (if Coder.dynamicType type coder then decodeToUint64 inputs offset else .ok offset) >>=
        fun start => fromIndex inputs start >>= fun data => Coder.decode type coder data >>=
          fun coder' => decode inputs decoder (offset + Coder.offset type coder') >>=
            fun rest => .ok (⟨type, coder'⟩ :: rest) := by
    rw [decode]
    split <;> rfl
  rw [hrun]
  constructor
  · intro h
    obtain ⟨start, hstart, h⟩ := except_bind_eq_ok.mp h
    obtain ⟨data, hdata, h⟩ := except_bind_eq_ok.mp h
    obtain ⟨coder', hcoder, h⟩ := except_bind_eq_ok.mp h
    obtain ⟨rest, hrest, h⟩ := except_bind_eq_ok.mp h
    exact ⟨start, data, coder', rest, hstart, hdata, hcoder, hrest, (Except.ok.inj h).symm⟩
  · rintro ⟨start, data, coder', rest, hstart, hdata, hcoder, hrest, rfl⟩
    rw [hstart, ok_bind, hdata, ok_bind, hcoder, ok_bind, hrest, ok_bind]

/-- A decoder that returned returns again, with the same values exactly if it read no elements. -/
theorem decode_again {types : List TypeJson} {offset : Nat} (hnew : new types = .ok decoder)
    (h : decode inputs decoder offset = .ok filled) :
    ∃ again, decode inputs filled offset = .ok again ∧
      (again.values = filled.values ↔ NoElements inputs types offset) := by
  induction types generalizing decoder filled offset with
  | nil =>
    obtain rfl := Except.ok.inj hnew
    obtain rfl := Except.ok.inj h
    exact ⟨[], rfl, iff_of_true rfl trivial⟩
  | cons type types ih =>
    obtain ⟨blank, decoder, hblank, hdecoder, rfl⟩ := new_cons_eq_ok.mp hnew
    obtain ⟨start, data, coder, rest, hstart, hdata, hcoder, hrest, rfl⟩ := decode_cons_eq_ok.mp h
    obtain ⟨hdynamic, again, hagain, hoffset, hheld⟩ := Coder.decode_again hcoder
    obtain ⟨others, hothers, hvalues⟩ := ih hdecoder hrest
    have hstartAt : start = startAt inputs type offset := by
      rw [Coder.dynamicType_blank hblank] at hstart
      unfold startAt
      split at hstart
      next hdyn => rw [eq_of_decodeToUint64 hstart, if_pos hdyn]
      next hdyn => rw [← Except.ok.inj hstart, if_neg hdyn]
    have hdrop : data = inputs.drop (startAt inputs type offset) := by
      rw [eq_of_fromIndex hdata, hstartAt]
    have hstride : Coder.offset type coder = strideAt inputs type offset := by
      rw [← Coder.headStride_held]
      apply headStride_of_decodeAs
      rw [Coder.decodeAs_eq, hblank, ok_bind, ← hdrop, hcoder, ok_bind]
    refine ⟨⟨type, again⟩ :: others, ?_, ?_⟩
    · refine decode_cons_eq_ok.mpr ⟨start, data, again, others, ?_, hdata, hagain, ?_, rfl⟩
      · rw [hdynamic]
        exact hstart
      · rw [hoffset]
        exact hothers
    · rw [NoElements, ← hdrop, ← hstride, ← hheld, ← hvalues]
      exact cons_eq_cons

/-- Decoding a second time, after a first call left the decoder `filled`, gives the same values. -/
def DecodesAgain (inputs : ByteString) (filled : Decoder) : Prop :=
  ∃ again, decode inputs filled 0 = .ok again ∧ again.values = filled.values

end Decoder

/-- A coder and a decoder are repeatable exactly if no array has items or elements. -/
theorem repeatable_iff (type : TypeJson) (value : Json) (types : List TypeJson)
    (inputs : ByteString) :
    (∀ (coder coder' : Coder type) data, Coder.generate type value = .ok coder →
        Coder.encode type coder = .ok (data, coder') →
        (Coder.EncodesAgain type coder' data ↔ Coder.NoItems type value)) ∧
      ∀ decoder filled, Decoder.new types = .ok decoder →
        Decoder.decode inputs decoder 0 = .ok filled →
        (Decoder.DecodesAgain inputs filled ↔ Decoder.NoElements inputs types 0) := by
  refine ⟨fun coder coder' data => Coder.encodesAgain_iff, ?_⟩
  intro decoder filled hnew h
  obtain ⟨again, hagain, hvalues⟩ := Decoder.decode_again hnew h
  rw [← hvalues]
  constructor
  · rintro ⟨again', hagain', heq⟩
    obtain rfl : again = again' := Except.ok.inj (hagain.symm.trans hagain')
    exact heq
  · exact fun heq => ⟨again, hagain, heq⟩

/-- What two calls of `encode` return. -/
def encodeTwice (type : TypeJson) (value : Json) : Except Failure (ByteString × ByteString) := do
  let coder ← Coder.generate type value
  let first ← Coder.encode type coder
  let second ← Coder.encode type first.2
  .ok (first.1, second.1)

/-- A list with one number is encoded to its length and the number, and then to its length and
twice the number. -/
theorem not_encodesAgain_oneNumber : ∃ coder coder' data,
      Coder.generate (.array (.base (.number 256 false)) none) (.list [.text [53]]) = .ok coder ∧
      Coder.encode _ coder = .ok (data, coder') ∧ ¬Coder.EncodesAgain _ coder' data := by
  have htwice : encodeTwice (.array (.base (.number 256 false)) none) (.list [.text [53]]) =
      .ok (sizeWord 1 ++ sizeWord 5, sizeWord 1 ++ (sizeWord 5 ++ sizeWord 5)) := by
    decide +kernel
  obtain ⟨coder, hcoder, htwice⟩ := except_bind_eq_ok.mp htwice
  obtain ⟨⟨data, coder'⟩, hfirst, htwice⟩ := except_bind_eq_ok.mp htwice
  obtain ⟨⟨data', coder''⟩, hsecond, htwice⟩ := except_bind_eq_ok.mp htwice
  obtain ⟨hdata, hdata'⟩ := Prod.mk.inj (Except.ok.inj htwice)
  refine ⟨coder, coder', data, hcoder, hfirst, ?_⟩
  rintro ⟨again, hagain, -⟩
  obtain ⟨hsame, -⟩ := Prod.mk.inj (Except.ok.inj (hsecond.symm.trans hagain))
  have hlength : data'.length = data.length := congrArg List.length hsame
  change data = _ at hdata
  change data' = _ at hdata'
  rw [hdata, hdata'] at hlength
  simp only [length_append, length_sizeWord] at hlength
  omega

/-- A string is encoded twice, and a number is decoded twice. -/
theorem repeatable_string_number :
    (∃ coder coder' data, Coder.generate (.base .string) (.text [65]) = .ok coder ∧
      Coder.encode (.base .string) coder = .ok (data, coder') ∧
      Coder.EncodesAgain (.base .string) coder' data) ∧
    ∃ decoder filled, Decoder.new [.base (.number 256 false)] = .ok decoder ∧
      Decoder.decode (sizeWord 5) decoder 0 = .ok filled ∧
      Decoder.DecodesAgain (sizeWord 5) filled := by
  have hnumber : Scalar.decode (.numeric 0) (sizeWord 5) =
      .ok (.numeric (wordOfBytes (sizeWord 5))) := by
    rw [Scalar.decode, length_sizeWord, if_neg (Nat.lt_irrefl 32)]
  have hdecode : Decoder.decode (sizeWord 5) [⟨.base (.number 256 false), .numeric 0⟩] 0 =
      .ok [⟨.base (.number 256 false), .numeric (wordOfBytes (sizeWord 5))⟩] :=
    Decoder.decode_cons_eq_ok.mpr ⟨0, sizeWord 5, _, [], rfl, rfl, hnumber, rfl, rfl⟩
  refine ⟨⟨.utf8String [65], .utf8String [65], _, rfl, rfl, ?_⟩, _, _, rfl, hdecode, ?_⟩
  · exact ((repeatable_iff (.base .string) (.text [65]) [] []).1 _ _ _ rfl rfl).mpr trivial
  · exact ((repeatable_iff (.base .string) (.text [65]) [.base (.number 256 false)] _).2 _ _ rfl
      hdecode).mpr ⟨trivial, trivial⟩

end CloakBridge.Abicoder
