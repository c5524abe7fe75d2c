import CloakBridge.Models.Evm.JsonTypes
import CloakBridge.Models.Mpt.StateLayout

/-!
# Encrypted states

New states that are not owned by all are encrypted under a key of their owner before they
go to the chain, and decrypted when they come back as old states. A value becomes three
texts: the cipher, its tag with the initialisation vector, and the owner. The places of
values and owners are computed as if a key were one word, and a mapping owned by the TEE
or an identifier is treated as a scalar.
-/

namespace CloakBridge.Mpt

open Std Evm Abicoder List

/-- What is not part of the sources: the helpers of `Utils` that deal with texts, and the reading
of JSON values by the coder. -/
class StateTexts (J : Type) where
  /-- `Utils::split_string` -/
  splitString : ByteString → UInt8 → List ByteString
  /-- `Utils::repeat_hex_string` -/
  repeatHexString : ByteString → Nat → ByteString
  /-- a structural type, as `generate_coders` reads it -/
  coderType : J → Option TypeJson
  /-- a value, as `generate_coders` reads it -/
  coderValue : J → Option Abicoder.Json
  /-- the conversion to `std::string` -/
  text : J → Option ByteString

/-- The helpers of `Utils` that encrypt, under the key pair of the TEE. -/
structure StateCipher where
  /-- `encrypt_data_s`, with cipher and tag -/
  encrypt : (der iv plain : ByteString) → ByteString × ByteString
  /-- `decrypt_data` of cipher and tag -/
  decrypt : (der iv data : ByteString) → Option ByteString
  /-- `split_tag_and_iv` -/
  splitTagAndIv : ByteString → ByteString × ByteString

/-- Authenticated encryption with a tag of 16 bytes, which is undone with the same key. -/
structure StateCipher.Lawful (c : StateCipher) : Prop where
  length_cipher : ∀ der iv plain, (c.encrypt der iv plain).1.length = plain.length
  length_tag : ∀ der iv plain, (c.encrypt der iv plain).2.length = 16
  decrypt_encrypt : ∀ der iv plain, iv.length = 12 →
    c.decrypt der iv ((c.encrypt der iv plain).1 ++ (c.encrypt der iv plain).2) = some plain
  splitTagAndIv_append : ∀ tag iv, tag.length = 16 → iv.length = 12 →
    c.splitTagAndIv (tag ++ iv) = (tag, iv)

/-- The initialisation vectors that are drawn, by the place of the state and the number of the
key; `GCM_SIZE_IV` is 12. -/
structure Entropy where
  iv : Nat → Nat → ByteString
  length_iv : ∀ i j, (iv i j).length = 12

/-- `ZERO_HEX_STR` -/
def zeroHexStr : ByteString := toHexString (List.replicate 32 0)

/-- "msg.sender" -/
def msgSenderName : ByteString := [109, 115, 103, 46, 115, 101, 110, 100, 101, 114]

/-- An exception of `intx::from_string` or of the coder. -/
def orThrow {α : Type} : Except Abicoder.Failure α → Except StateFailure α
  | .ok a => .ok a
  | .error _ => .error .thrown

/-- The elements between two iterators. -/
def slice (v : List ByteString) (first last : Nat) : Except StateFailure (List ByteString) :=
  if first ≤ last ∧ last ≤ v.length then .ok ((v.take last).drop first) else .error .undefined

variable {J : Type} [StateJson J] [StateTexts J]

/-- The words of a single key in `get_mapping_keys`. -/
def Function.keyWords (function : Function J) (msgSender : ByteString) (encoded : Bool)
    (singleKey : ByteString) : Except StateFailure (List ByteString) :=
  if singleKey = msgSenderName then
    if encoded then do return [toHexString (← orThrow (toBytes msgSender 12))]
    else return [msgSender]
  else (function.inputs.filter fun input => input.name = singleKey).mapM fun input => do
    let value ← described input.value
    if encoded then
      let type ← described (StateTexts.coderType input.structuralType)
      let value ← described (StateTexts.coderValue value)
      return toHexString (← orThrow (Abicoder.encode [⟨"", type, value⟩]))
    else described (StateTexts.text value)

/-- `get_mapping_keys`; `pos` is absent when it is -1. -/
def Function.getMappingKeys (function : Function J) (msgSender name : ByteString)
    (pos : Option Nat) (encoded : Bool) : Except StateFailure (List ByteString) := do
  let keys := ((function.read ++ function.mutate).filter fun x => x.name = name).flatMap (·.keys)
  let nestedKeys ← keys.mapM fun key =>
    let nested := StateTexts.splitString J key 58
    match pos with
    | none => .ok nested
    | some pos => do return [← described nested[pos]?]
  let words ← nestedKeys.flatten.mapM (function.keyWords msgSender encoded)
  return words.flatten

/-- What the visitor finds is added to the result. -/
def appending (g : Nat → Nat → Except StateFailure (List ByteString)) (id idx : Nat) :
    EStateM StateFailure (List ByteString) Unit := do
  let texts ← liftExcept (g id idx)
  modify (· ++ texts)

/-- The result that a traversal leaves. -/
def collected {σ : Type} (x : EStateM StateFailure σ Unit) (s : σ) : Except StateFailure σ :=
  match x s with
  | .ok _ s => .ok s
  | .error e _ => .error e

/-- An index of type `size_t` -/
def sizeT (n : Nat) : Nat := n % 2 ^ 64

/-- `structural_type["depth"]` -/
def Params.depth (state : Params J) : Except StateFailure Nat := do
  match ← described state.kind with
  | .mapping depth => return depth.toNat
  | _ => throw .thrown

/-- A state owned by all is copied. -/
def Params.copied (state : Params J) (readSize : ByteString → Except StateFailure Nat)
    (v : List ByteString) (idx : Nat) : Except StateFailure (List ByteString) := do
  match ← described state.kind with
  | .mapping depth =>
    let size ← readSize (← element v (sizeT (idx + 1)))
    slice v (idx + 1) (idx + 2 + sizeT (size * (depth.toNat + 1)))
  | _ => return [← element v (sizeT (idx + 1))]

/-- What is decrypted when the owner has the address zero. -/
def Params.zeroValue (state : Params J) : Except StateFailure ByteString := do
  match ← described state.kind with
  | .array size => return StateTexts.repeatHexString J zeroHexStr size
  | _ => return zeroHexStr

namespace StateCipher

variable (c : StateCipher)

/-- The three texts of an encrypted value. -/
def sealValue (der iv value sender : ByteString) : List ByteString :=
  let encrypted := c.encrypt der iv (evmToBytes value)
  [toHexString encrypted.1, toHexString (encrypted.2 ++ iv), sender]

/-- The value behind a cipher and its tag. -/
def openValue (der cipher tagAndIv : ByteString) : Except StateFailure ByteString := do
  let (tag, iv) := c.splitTagAndIv (evmToBytes tagAndIv)
  return toHexString (← described (c.decrypt der iv (evmToBytes cipher ++ tag)))

end StateCipher

namespace CloakPolicyTransaction

variable (tx : CloakPolicyTransaction J) (tee : PublicKey) (c : StateCipher)

/-- The keys of a mapping, in their encoded form. -/
def mappingKeys (name : ByteString) : Except StateFailure (List ByteString) :=
  tx.function.getMappingKeys (toChecksumAddress tx.from_) name none true

/-- `to_bytes(public_keys.at(..))` -/
def publicKey (address : ByteString) : Except StateFailure ByteString := do
  return evmToBytes (← described tx.publicKeys[address]?)

/-- A state that holds an address for everyone names an owner, with the address of the old
states. -/
def noteAddress (id idx : Nat) :
    EStateM StateFailure (ExtTreeMap ByteString ByteString) Unit := do
  let state ← liftExcept (element tx.states id)
  let kind ← liftExcept (described state.kind)
  let owner ← liftExcept (described state.ownedBy)
  if kind = .address ∧ owner = .all then
    let text ← liftExcept (element tx.oldStates (sizeT (idx + 1)))
    let address ← liftExcept (orThrow (toUint256 text))
    modify fun addresses => addresses.insert state.name (toChecksumAddress address)

/-- The owners' addresses by the names of the states that hold them. -/
def ownerAddresses (newStates : List ByteString) :
    Except StateFailure (ExtTreeMap ByteString ByteString) :=
  collected (visitStates tx.states newStates false tx.noteAddress) ∅

/-- One key of a mapping in `encrypt_states`. -/
def encryptEntry (iv : ByteString) (keys newStates : List ByteString) (depth idx j : Nat) :
    Except StateFailure (List ByteString) := do
  let words ← slice keys (sizeT (depth * j)) (sizeT (depth * (j + 1)))
  let key ← element keys j
  let sender ← orThrow (toUint256 key)
  let der ← tx.publicKey (toChecksumAddress sender)
  let value ← element newStates (sizeT (idx + 3 + j * 2))
  return words ++ c.sealValue der iv value key

/-- What `encrypt_states` writes behind the place of a state, by the owner. -/
def encryptAs (entropy : Entropy) (addresses : ExtTreeMap ByteString ByteString)
    (newStates : List ByteString) (state : Params J) (idx : Nat) :
    Owner → Except StateFailure (List ByteString)
  | .all => state.copied (fun text => .ok (toUint64 text).toNat) newStates idx
  | .mapping _ _ => do
    let keys ← tx.mappingKeys state.name
    let depth ← state.depth
    let count ← element newStates (sizeT (idx + 1))
    let entries ← (List.range (tx.function.getKeysSize state.name).toNat).mapM fun j =>
      tx.encryptEntry c (entropy.iv idx j) keys newStates depth idx j
    return count :: entries.flatten
  | .tee => do
    let value ← element newStates (sizeT (idx + 1))
    return c.sealValue tee.raw (entropy.iv idx 0) value (numberToHexString tee.address)
  | .identifier name => do
    let sender ← described addresses[name]?
    let der ← tx.publicKey sender
    let value ← element newStates (sizeT (idx + 1))
    return c.sealValue der (entropy.iv idx 0) value sender

/-- The visitor of `encrypt_states`. -/
def encryptState (entropy : Entropy) (addresses : ExtTreeMap ByteString ByteString)
    (newStates : List ByteString) (id idx : Nat) : Except StateFailure (List ByteString) := do
  let state ← element tx.states id
  let place ← element newStates idx
  let owner ← described state.ownedBy
  let texts ← tx.encryptAs tee c entropy addresses newStates state idx owner
  return place :: texts

/-- `encrypt_states` -/
def encryptStates (entropy : Entropy) (newStates : List ByteString) :
    Except StateFailure (List ByteString) := do
  let addresses ← tx.ownerAddresses newStates
  collected (visitStates tx.states newStates false
    (appending (tx.encryptState tee c entropy addresses newStates))) []

/-- One key of a mapping in `decrypt_states`. -/
def decryptEntry (keys : List ByteString) (depth idx j : Nat) :
    Except StateFailure (List ByteString) := do
  let words ← slice keys (sizeT (j * depth)) (sizeT ((j + 1) * depth))
  let dataPos := idx + 2 + depth + j * (depth + 3)
  let sender ← orThrow (toUint256 (← element tx.oldStates (sizeT (dataPos + 2))))
  if sender = 0 then return words ++ [zeroHexStr]
  else
    let der ← tx.publicKey (toChecksumAddress sender)
    let tagAndIv ← element tx.oldStates (sizeT (dataPos + 1))
    let cipher ← element tx.oldStates (sizeT dataPos)
    return words ++ [← c.openValue der cipher tagAndIv]

/-- A state owned by the TEE or by an identifier in `decrypt_states`. -/
def decryptOwned (state : Params J) (der : ByteString → Except StateFailure ByteString)
    (idx : Nat) : Except StateFailure ByteString := do
  let sender := toChecksumAddress
    (← orThrow (toUint256 (← element tx.oldStates (sizeT (idx + 3)))))
  if (← orThrow (toUint256 sender)) = 0 then state.zeroValue
  else
    let der ← der sender
    let tagAndIv ← element tx.oldStates (sizeT (idx + 2))
    let cipher ← element tx.oldStates (sizeT (idx + 1))
    c.openValue der cipher tagAndIv

/-- What `decrypt_states` reads behind the place of a state, by the owner. -/
def decryptAs (state : Params J) (idx : Nat) : Owner → Except StateFailure (List ByteString)
  | .all =>
    let readSize (text : ByteString) : Except StateFailure Nat := do
      return sizeT (← orThrow (toUint256 text)).toNat
    state.copied readSize tx.oldStates idx
  | .mapping _ _ => do
    let keys ← tx.mappingKeys state.name
    let depth ← state.depth
    let count ← element tx.oldStates (sizeT (idx + 1))
    let entries ← (List.range (tx.function.getKeysSize state.name).toNat).mapM fun j =>
      tx.decryptEntry c keys depth idx j
    return count :: entries.flatten
  | .tee => do return [← tx.decryptOwned c state (fun _ => .ok tee.raw) idx]
  | .identifier _ => do return [← tx.decryptOwned c state tx.publicKey idx]

/-- The visitor of `decrypt_states`. -/
def decryptState (id idx : Nat) : Except StateFailure (List ByteString) := do
  let place ← element tx.oldStates idx
  let state ← described tx.states[id]?
  let owner ← described state.ownedBy
  let texts ← tx.decryptAs tee c state idx owner
  return place :: texts

/-- `decrypt_states` -/
def decryptStates : Except StateFailure (List ByteString) :=
  collected (visitStates tx.states tx.oldStates true (appending (tx.decryptState tee c))) []

/-- What is encrypted and taken as old states is decrypted to what it was. -/
def RoundTrips (entropy : Entropy) (newStates : List ByteString) : Prop :=
  ∃ encrypted, tx.encryptStates tee c entropy newStates = .ok encrypted ∧
    CloakPolicyTransaction.decryptStates { tx with oldStates := encrypted } tee c = .ok newStates

end CloakPolicyTransaction

/-! ### Vectors and their parts -/

/-- The segment stands in the vector from `idx` on. -/
def Stands (segment v : List ByteString) (idx : Nat) : Prop :=
  ∃ start rest, v = start ++ segment ++ rest ∧ idx = start.length

section

omit [StateJson J] [StateTexts J]

variable {segment v : List ByteString} {idx : Nat} {k n : Nat}

/-- The texts of a segment are found behind its start. -/
theorem Stands.getElem? (h : Stands segment v idx) (hk : k < segment.length) :
    v[idx + k]? = segment[k]? := by
  obtain ⟨start, rest, rfl, rfl⟩ := h
  rw [append_assoc, List.getElem?_append_right (Nat.le_add_right _ _), Nat.add_sub_cancel_left,
    List.getElem?_append_left hk]

/-- A segment ends within the vector. -/
theorem Stands.le_length (h : Stands segment v idx) : idx + segment.length ≤ v.length := by
  obtain ⟨start, rest, rfl, rfl⟩ := h
  rw [length_append, length_append]
  omega

theorem sizeT_of_lt (h : n < 2 ^ 64) : sizeT n = n := Nat.mod_eq_of_lt h

/-- An element of a segment is read from the vector. -/
theorem Stands.element_eq (h : Stands segment v idx) (hv : v.length < 2 ^ 64) {text : ByteString}
    (hk : segment[k]? = some text) : element v (sizeT (idx + k)) = .ok text := by
  have hlt := (List.getElem?_eq_some_iff.mp hk).1
  have hle := h.le_length
  rw [sizeT_of_lt (by omega), element_eq_ok, h.getElem? hlt, hk]

/-- A part of a segment is cut out of the vector. -/
theorem Stands.slice_eq (h : Stands segment v idx) {first last : Nat} (hfirst : first ≤ last)
    (hlast : last ≤ segment.length) :
    slice v (idx + first) (idx + last) = .ok ((segment.take last).drop first) := by
  have hle := h.le_length
  rw [slice, if_pos ⟨by omega, by omega⟩]
  obtain ⟨start, rest, rfl, rfl⟩ := h
  rw [append_assoc, take_length_add_append, take_append_of_le_length hlast, drop_length_add_append]

/-- One of equal parts is cut out by its number. -/
theorem slice_flatMap {α : Type} {f : α → List ByteString} {l : List α} {j : Nat} {a : α}
    (h : ∀ a ∈ l, (f a).length = n) (ha : l[j]? = some a) (hlt : n * l.length < 2 ^ 64) :
    slice (l.flatMap f) (sizeT (n * j)) (sizeT (n * (j + 1))) = .ok (f a) := by
  have hj := (List.getElem?_eq_some_iff.mp ha).1
  have hle : n * (j + 1) ≤ n * l.length := Nat.mul_le_mul_left n hj
  have hstep : n * (j + 1) = n * j + n := Nat.mul_succ n j
  obtain ⟨rest, hrest⟩ := drop_flatMap_of_getElem? h ha
  rw [sizeT_of_lt (by omega), sizeT_of_lt (by omega), slice, length_flatMap_of_forall h,
    if_pos ⟨by omega, hle⟩, hstep, ← take_drop, hrest, take_left' (h a (mem_of_getElem? ha))]

/-- Segments stand in their concatenation where they start. -/
theorem stands_starts (start : List ByteString) (segments : List (List ByteString)) :
    List.Forall₂ (fun segment idx => Stands segment (start ++ segments.flatten) idx) segments
      (starts start.length segments) := by
  induction segments generalizing start with
  | nil => exact .nil
  | cons segment segments ih =>
    have htail := ih (start ++ segment)
    rw [length_append, append_assoc, ← flatten_cons] at htail
    refine .cons ⟨start, segments.flatten, ?_, rfl⟩ htail
    rw [flatten_cons, append_assoc]

theorem collected_congr {σ : Type} {x y : EStateM StateFailure σ Unit} {s s' : σ}
    (h : x s = y s') : collected x s = collected y s' := by
  rw [collected, collected, h]

/-- A traversal that appends what its visitor finds. -/
theorem collected_appending {g : Nat → Nat → Except StateFailure (List ByteString)}
    {calls : List (Nat × Nat)} {s s' : List ByteString} :
    collected (calls.forM fun call => appending g call.1 call.2) s = .ok s' ↔
      ∃ texts, (calls.mapM fun call => g call.1 call.2) = .ok texts ∧ s' = s ++ texts.flatten := by
  induction calls generalizing s with
  | nil => simp [collected, pure, EStateM.pure, Except.pure, eq_comm]
  | cons call calls ih =>
    rw [mapM_cons]
    cases hcall : g call.1 call.2 with
    | error e =>
      have hround : appending g call.1 call.2 s = .error e s := by
        rw [appending, hcall]
        rfl
      have hstep : ((call :: calls).forM fun call => appending g call.1 call.2) s = .error e s :=
        bind_of_error hround
      rw [collected, hstep]
      constructor
      · intro h
        cases h
      · rintro ⟨texts, h, -⟩
        cases h
    | ok texts =>
      have hround : appending g call.1 call.2 s = .ok () (s ++ texts) := by
        rw [appending, hcall]
        rfl
      have hstep : collected ((call :: calls).forM fun call => appending g call.1 call.2) s =
          collected (calls.forM fun call => appending g call.1 call.2) (s ++ texts) :=
        collected_congr (bind_of_ok hround)
      rw [hstep, ih]
      constructor
      · rintro ⟨rest, hrest, rfl⟩
        refine ⟨texts :: rest, ?_, ?_⟩
        · rw [hrest]
          rfl
        · rw [flatten_cons, append_assoc]
      · rintro ⟨all, hall, rfl⟩
        obtain ⟨_, heq, hall⟩ := except_bind_eq_ok.mp hall
        cases heq
        obtain ⟨rest, hrest, hall⟩ := except_bind_eq_ok.mp hall
        cases hall
        exact ⟨rest, hrest, by rw [flatten_cons, append_assoc]⟩

end

end CloakBridge.Mpt
