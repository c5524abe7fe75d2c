import CloakBridge.Models.Mpt.StateEncryption

/-!
# Sealed states

What `encrypt_states` writes for one state is read back by `decrypt_states` wherever it
stands. It is read back as what it was where the code finds for each value its own place
and a key of its owner. For a mapping owned by its keys that needs keys of one word, or
values that happen to stand elsewhere too.
-/

namespace CloakBridge.Mpt

open Std Evm Abicoder CloakPolicyTransaction List
open Tee (Address)

variable {J : Type} [StateJson J] [StateTexts J]

/-- A text as `to_hex_string` writes it. -/
def Canonical (text : ByteString) : Prop := ∃ bytes, text = toHexString bytes

variable {text der iv name : ByteString} {keys out v : List ByteString}

private theorem Canonical.toHexString_evmToBytes (h : Canonical text) :
    toHexString (evmToBytes text) = text := by
  obtain ⟨bytes, rfl⟩ := h
  rw [evmToBytes_toHexString]

/-- The texts of one state that is not encrypted. The keys of a mapping that is not owned by all
are those the function names. -/
inductive IsPlain (tx : CloakPolicyTransaction J) (id : Nat) (state : Params J) :
    List ByteString → Prop
  | scalar {kind : Kind} {owner : Owner} {place value : ByteString}
    (hkind : state.kind = some kind)
    (hscalar : ∀ depth, kind ≠ .mapping depth)
    (howner : state.ownedBy = some owner) (hplace : (toUint64 place).toNat = id)
    (hvalue : Canonical value) :
    IsPlain tx id state [place, value]
  | mapping {depth : BitVec 64} {owner : Owner} {place count : ByteString} {size : Word}
    {entries : List (List ByteString × ByteString)}
    (hkind : state.kind = some (.mapping depth))
    (hdepth : 0 < depth.toNat)
    (howner : state.ownedBy = some owner) (hplace : (toUint64 place).toNat = id)
    (hcount : toUint64 count = tx.function.getKeysSize state.name)
    (hread : toUint256 count = .ok size)
    (hsize : size.toNat = (tx.function.getKeysSize state.name).toNat)
    (hentries : entries.length = (tx.function.getKeysSize state.name).toNat)
    (hwords : ∀ entry ∈ entries, entry.1.length = depth.toNat)
    (hkeys : owner ≠ .all → tx.mappingKeys state.name = .ok (entries.flatMap Prod.fst))
    (hvalues : ∀ entry ∈ entries, Canonical entry.2) :
    IsPlain tx id state (place :: count :: entries.flatMap fun entry => entry.1 ++ [entry.2])

/-- The states are laid out one after the other in the given order. -/
def ArePlain (tx : CloakPolicyTransaction J) (order : List Nat)
    (segments : List (List ByteString)) : Prop :=
  List.Forall₂ (fun id segment => ∃ state, tx.states[id]? = some state ∧
    IsPlain tx id state segment) order segments

section

variable (tx : CloakPolicyTransaction J)

/-- The state called there holds an address for everyone to see, under this name. -/
def NamesOwner (name : ByteString) (call : Nat × Nat) : Prop :=
  ∃ state, tx.states[call.1]? = some state ∧ state.name = name ∧
    state.kind = some .address ∧
    state.ownedBy = some .all

/-- The address that the old states have behind the place of the call. -/
def ReadsAddress (call : Nat × Nat) (address : Address) : Prop :=
  ∃ text, tx.oldStates[sizeT (call.2 + 1)]? = some text ∧ toUint256 text = .ok address

/-- The last state of this name has the address in the old states. -/
def HasAddress (calls : List (Nat × Nat)) (name : ByteString) (address : Address) : Prop :=
  ∃ before call after, calls = before ++ call :: after ∧ NamesOwner tx name call ∧
    (∀ other ∈ after, ¬NamesOwner tx name other) ∧ ReadsAddress tx call address

/-- Each state that holds an address for everyone has one in the old states. -/
def ReadsOwners (calls : List (Nat × Nat)) : Prop :=
  ∀ call ∈ calls, ∀ name, NamesOwner tx name call → ∃ address, ReadsAddress tx call address

/-- When the value of a scalar comes back. -/
def ScalarRecovers (tee : PublicKey) (calls : List (Nat × Nat)) (state : Params J)
    (value : ByteString) : Owner → Prop
  | .all => True
  | .tee => tee.address = 0 → state.zeroValue = .ok value
  | .identifier name => ∃ address, HasAddress tx calls name address ∧
      toChecksumAddress address ∈ tx.publicKeys ∧ (address = 0 → state.zeroValue = .ok value)
  | .mapping _ _ => False

/-- When the value of one key comes back: the word of the keys that has the number of the key is
taken as the owner, and the value is looked up as if keys had one word. -/
def KeyRecovers (keys segment : List ByteString) (depth j : Nat) : Prop :=
  ∃ key sender value, keys[j]? = some key ∧ toUint256 key = .ok sender ∧
    toChecksumAddress sender ∈ tx.publicKeys ∧
    segment[2 + ((depth + 1) * j + depth)]? = some value ∧
    if sender = 0 then value = zeroHexStr else segment[3 + j * 2]? = some value

/-- When the values of a mapping come back. -/
def MappingRecovers (state : Params J) (segment : List ByteString) (depth : Nat) : Owner → Prop
  | .all => True
  | .mapping _ _ => ∃ keys, tx.mappingKeys state.name = .ok keys ∧
      ∀ j < (tx.function.getKeysSize state.name).toNat, KeyRecovers tx keys segment depth j
  | .tee => False
  | .identifier _ => False

/-- When the segment of a state comes back. -/
def Recovers (tee : PublicKey) (calls : List (Nat × Nat)) (state : Params J)
    (segment : List ByteString) : Prop :=
  ∃ kind owner, state.kind = some kind ∧
    state.ownedBy = some owner ∧
    match kind with
    | .mapping depth => MappingRecovers tx state segment depth.toNat owner
    | _ => ∃ value, segment[1]? = some value ∧ ScalarRecovers tx tee calls state value owner

end

/-! ### One value -/

variable {tx : CloakPolicyTransaction J} {tee : PublicKey} {c : StateCipher}

omit [StateJson J] [StateTexts J] in
private theorem publicKey_eq_ok {address : ByteString} :
    tx.publicKey address = .ok der ↔ ∃ key, tx.publicKeys[address]? = some key ∧
      der = evmToBytes key := by
  rw [publicKey, except_bind_eq_ok]
  simp only [described_eq_ok]
  constructor
  · rintro ⟨key, hkey, h⟩
    exact ⟨key, hkey, (Except.ok.inj h).symm⟩
  · rintro ⟨key, hkey, rfl⟩
    exact ⟨key, hkey, rfl⟩

/-- `orThrow` returns what the coder returns. -/
theorem orThrow_eq_ok {α : Type} {x : Except Abicoder.Failure α} {a : α} :
    orThrow x = .ok a ↔ x = .ok a := by
  cases x <;> simp [orThrow]

/-- What is opened is what was sealed. -/
theorem StateCipher.Lawful.openValue_sealValue (hc : c.Lawful) (hiv : iv.length = 12)
    (der plain : ByteString) : c.openValue der (toHexString (c.encrypt der iv plain).1)
      (toHexString ((c.encrypt der iv plain).2 ++ iv)) = .ok (toHexString plain) := by
  rw [StateCipher.openValue, evmToBytes_toHexString, evmToBytes_toHexString,
    hc.splitTagAndIv_append _ _ (hc.length_tag der iv plain) hiv]
  simp only [hc.decrypt_encrypt der iv plain hiv]
  rfl

/-! ### The keys of a mapping -/

omit [StateJson J] in
private theorem canonical_of_keyWords {function : Function J} {msgSender single : ByteString}
    {words : List ByteString} (h : function.keyWords msgSender true single = .ok words) :
    ∀ word ∈ words, Canonical word := by
  intro word hword
  rw [Function.keyWords] at h
  split at h
  · obtain ⟨bytes, -, h⟩ := except_bind_eq_ok.mp h
    cases h
    exact ⟨bytes, mem_singleton.mp hword⟩
  · obtain ⟨input, -, h⟩ := exists_of_mem_mapM h hword
    obtain ⟨value, -, h⟩ := except_bind_eq_ok.mp h
    obtain ⟨type, -, h⟩ := except_bind_eq_ok.mp h
    obtain ⟨json, -, h⟩ := except_bind_eq_ok.mp h
    obtain ⟨bytes, -, h⟩ := except_bind_eq_ok.mp h
    cases h
    exact ⟨bytes, rfl⟩

omit [StateJson J] in
private theorem canonical_of_mappingKeys (h : tx.mappingKeys name = .ok keys) :
    ∀ key ∈ keys, Canonical key := by
  intro key hkey
  obtain ⟨nestedKeys, -, h⟩ := except_bind_eq_ok.mp h
  obtain ⟨words, hwords, h⟩ := except_bind_eq_ok.mp h
  cases h
  obtain ⟨texts, htexts, hkey⟩ := mem_flatten.mp hkey
  obtain ⟨single, -, hsingle⟩ := exists_of_mem_mapM hwords htexts
  exact canonical_of_keyWords hsingle key hkey

/-- The texts of a mapping with its keys and values. -/
def mappingTexts (place count : ByteString) (entries : List (List ByteString × ByteString)) :
    List ByteString :=
  place :: count :: entries.flatMap fun entry => entry.1 ++ [entry.2]

/-- The keys and values of a mapping, with the keys that the function names. -/
structure Keyed (tx : CloakPolicyTransaction J) (name : ByteString) (depth : Nat)
    (entries : List (List ByteString × ByteString)) : Prop where
  depth_pos : 0 < depth
  length_entries : entries.length = (tx.function.getKeysSize name).toNat
  length_words : ∀ entry ∈ entries, entry.1.length = depth
  mappingKeys_eq : tx.mappingKeys name = .ok (entries.flatMap Prod.fst)
  canonical : ∀ entry ∈ entries, Canonical entry.2

section

variable {name : ByteString} {depth : Nat} {entries : List (List ByteString × ByteString)} {j : Nat}

omit [StateJson J] [StateTexts J] in
/-- An entry consists of its words and its value. -/
theorem length_entry (hwords : ∀ entry ∈ entries, entry.1.length = depth) :
    ∀ entry ∈ entries, (entry.1 ++ [entry.2]).length = depth + 1 := by
  intro entry hentry
  rw [length_append, hwords entry hentry, length_singleton]

omit [StateJson J] [StateTexts J] in
private theorem length_mappingTexts (hwords : ∀ entry ∈ entries, entry.1.length = depth)
    (place count : ByteString) :
    (mappingTexts place count entries).length = 2 + (depth + 1) * entries.length := by
  rw [mappingTexts, length_cons, length_cons, length_flatMap_of_forall (length_entry hwords)]
  omega

omit [StateJson J] [StateTexts J] in
private theorem getElem?_mappingTexts_value (hwords : ∀ entry ∈ entries, entry.1.length = depth)
    (place count : ByteString) {entry : List ByteString × ByteString}
    (hentry : entries[j]? = some entry) :
    (mappingTexts place count entries)[2 + ((depth + 1) * j + depth)]? = some entry.2 := by
  have hword := hwords entry (mem_of_getElem? hentry)
  rw [mappingTexts, Nat.add_comm 2, List.getElem?_cons_succ, List.getElem?_cons_succ,
    getElem?_flatMap (length_entry hwords) hentry (Nat.lt_succ_self depth), ← hword]
  simp

omit [StateJson J] in
private theorem Keyed.canonical_text (h : Keyed tx name depth entries) {place count : ByteString}
    {k : Nat}
    (htext : (mappingTexts place count entries)[2 + k]? = some text) : Canonical text := by
  rw [mappingTexts, Nat.add_comm 2, List.getElem?_cons_succ, List.getElem?_cons_succ] at htext
  obtain ⟨entry, hentry, hmem⟩ := mem_flatMap.mp (mem_of_getElem? htext)
  rcases mem_append.mp hmem with hmem | hmem
  · exact canonical_of_mappingKeys h.mappingKeys_eq text (mem_flatMap.mpr ⟨entry, hentry, hmem⟩)
  · exact mem_singleton.mp hmem ▸ h.canonical entry hentry

omit [StateJson J] in
private theorem Keyed.exists_entry (h : Keyed tx name depth entries) (place count : ByteString)
    (hj : j < (tx.function.getKeysSize name).toNat) :
    ∃ entry key text, entries[j]? = some entry ∧ (entries.flatMap Prod.fst)[j]? = some key ∧
      (mappingTexts place count entries)[3 + j * 2]? = some text ∧
      toHexString (evmToBytes text) = text := by
  rw [← h.length_entries] at hj
  have hkeys : j < (entries.flatMap Prod.fst).length := by
    rw [length_flatMap_of_forall h.length_words]
    exact Nat.lt_of_lt_of_le hj (Nat.le_mul_of_pos_left _ h.depth_pos)
  have htexts : 3 + j * 2 < (mappingTexts place count entries).length := by
    have hmul : 2 * entries.length ≤ (depth + 1) * entries.length :=
      Nat.mul_le_mul_right _ (Nat.succ_le_succ h.depth_pos)
    rw [length_mappingTexts h.length_words]
    omega
  have htext := List.getElem?_eq_getElem htexts
  refine ⟨_, _, _, List.getElem?_eq_getElem hj, List.getElem?_eq_getElem hkeys, htext, ?_⟩
  apply Canonical.toHexString_evmToBytes
  apply h.canonical_text (k := 1 + j * 2)
  rw [← Nat.add_assoc]
  exact htext

end

/-! ### One key of a mapping -/

section

variable {entries : List (List ByteString × ByteString)} {entry : List ByteString × ByteString}
  {depth j : Nat} {iv key value : ByteString} {idx : Nat}

omit [StateJson J] [StateTexts J] in
/-- A key is encrypted when the word with its number is the address of a public key. -/
theorem encryptEntry_eq_ok {newStates : List ByteString}
    (hwords : ∀ entry ∈ entries, entry.1.length = depth) (hentry : entries[j]? = some entry)
    (hlt : depth * entries.length < 2 ^ 64) (hkey : (entries.flatMap Prod.fst)[j]? = some key)
    (hvalue : element newStates (sizeT (idx + 3 + j * 2)) = .ok value) :
    tx.encryptEntry c iv (entries.flatMap Prod.fst) newStates depth idx j = .ok out ↔
      ∃ sender der, toUint256 key = .ok sender ∧
        tx.publicKeys[toChecksumAddress sender]? = some der ∧
        out = entry.1 ++ c.sealValue (evmToBytes der) iv value key := by
  rw [encryptEntry, slice_flatMap hwords hentry hlt, ok_bind,
    element_eq_ok.mpr hkey, ok_bind, except_bind_eq_ok]
  simp only [orThrow_eq_ok, except_bind_eq_ok, publicKey_eq_ok, hvalue, ok_bind]
  constructor
  · rintro ⟨sender, hsender, der, ⟨text, htext, rfl⟩, h⟩
    exact ⟨sender, text, hsender, htext, (Except.ok.inj h).symm⟩
  · rintro ⟨sender, text, hsender, htext, rfl⟩
    exact ⟨sender, hsender, _, ⟨text, htext, rfl⟩, rfl⟩

omit [StateJson J] [StateTexts J] in
/-- What was encrypted for a key is read back, unless the word taken as its owner is zero. -/
theorem decryptEntry_of_sealed (hc : c.Lawful) (hiv : iv.length = 12)
    (hwords : ∀ entry ∈ entries, entry.1.length = depth) (hentry : entries[j]? = some entry)
    (hlt : depth * entries.length < 2 ^ 64) {sender : Address}
    (hsender : toUint256 key = .ok sender)
    (hder : tx.publicKeys[toChecksumAddress sender]? = some der)
    (hsealed : ∀ k text, (c.sealValue (evmToBytes der) iv value key)[k]? = some text →
      element v (sizeT (idx + 2 + depth + j * (depth + 3) + k)) = .ok text) :
    decryptEntry { tx with oldStates := v } c (entries.flatMap Prod.fst)
      depth idx j = .ok (entry.1 ++
        [if sender = 0 then zeroHexStr else toHexString (evmToBytes value)]) := by
  have hslice := slice_flatMap hwords hentry hlt
  rw [decryptEntry, Nat.mul_comm j depth, Nat.mul_comm (j + 1) depth, hslice, ok_bind]
  simp only [hsealed 2 _ rfl, ok_bind, hsender, orThrow]
  by_cases hzero : sender = 0
  · rw [if_pos hzero, if_pos hzero]
    rfl
  · have hkey := publicKey_eq_ok.mpr ⟨der, hder, rfl⟩
    rw [if_neg hzero, if_neg hzero]
    change (tx.publicKey (toChecksumAddress sender) >>= _) = _
    rw [hkey, ok_bind, hsealed 1 _ rfl, ok_bind]
    have hcipher := hsealed 0 _ rfl
    rw [Nat.add_zero] at hcipher
    rw [hcipher, ok_bind, hc.openValue_sealValue hiv]
    rfl

end

/-! ### A mapping owned by its keys -/

section

variable {name : ByteString} {depth : Nat} {entries : List (List ByteString × ByteString)}
  {place count : ByteString} {entry : List ByteString × ByteString} {key text : ByteString}
  {j : Nat}

omit [StateJson J] in
private theorem Keyed.keyRecovers_iff (h : Keyed tx name depth entries)
    (hentry : entries[j]? = some entry)
    (hkey : (entries.flatMap Prod.fst)[j]? = some key)
    (htext : (mappingTexts place count entries)[3 + j * 2]? = some text) :
    KeyRecovers tx (entries.flatMap Prod.fst) (mappingTexts place count entries) depth j ↔
      ∃ sender, toUint256 key = .ok sender ∧ toChecksumAddress sender ∈ tx.publicKeys ∧
        (if sender = 0 then zeroHexStr else text) = entry.2 := by
  have hvalue := getElem?_mappingTexts_value h.length_words place count hentry
  rw [KeyRecovers]
  simp only [hkey, htext, hvalue, Option.some.injEq]
  constructor
  · rintro ⟨_, sender, _, rfl, hsender, hmem, rfl, hif⟩
    refine ⟨sender, hsender, hmem, ?_⟩
    by_cases hzero : sender = 0
    · rw [if_pos hzero] at hif ⊢
      exact hif.symm
    · rwa [if_neg hzero] at hif ⊢
  · rintro ⟨sender, hsender, hmem, hif⟩
    refine ⟨key, sender, entry.2, rfl, hsender, hmem, rfl, ?_⟩
    by_cases hzero : sender = 0
    · rw [if_pos hzero] at hif ⊢
      exact hif.symm
    · rwa [if_neg hzero] at hif ⊢

/-- The keys of a mapping as they are encrypted. -/
abbrev encryptEntries (tx : CloakPolicyTransaction J) (c : StateCipher) (entropy : Entropy)
    (name : ByteString) (keys newStates : List ByteString) (depth idx : Nat) :
    Except StateFailure (List (List ByteString)) :=
  (List.range (tx.function.getKeysSize name).toNat).mapM fun j =>
    tx.encryptEntry c (entropy.iv idx j) keys newStates depth idx j

/-- The keys of a mapping as they are decrypted. -/
abbrev decryptEntries (tx : CloakPolicyTransaction J) (c : StateCipher) (name : ByteString)
    (keys : List ByteString) (depth idx : Nat) : Except StateFailure (List (List ByteString)) :=
  (List.range (tx.function.getKeysSize name).toNat).mapM fun j =>
    tx.decryptEntry c keys depth idx j

variable {entropy : Entropy} {newStates : List ByteString} {idx : Nat}
  {outs : List (List ByteString)} (h : Keyed tx name depth entries)
  (hstands : Stands (mappingTexts place count entries) newStates idx)
  (hnew : newStates.length < 2 ^ 64)

include h hstands hnew

omit [StateJson J]

private theorem Keyed.mul_length_lt : depth * entries.length < 2 ^ 64 := by
  have hle := hstands.le_length
  have hmul : depth * entries.length ≤ (depth + 1) * entries.length :=
    Nat.mul_le_mul_right _ (Nat.le_succ depth)
  rw [length_mappingTexts h.length_words] at hle
  omega

private theorem Keyed.encryptEntry_eq_ok (hentry : entries[j]? = some entry)
    (hkey : (entries.flatMap Prod.fst)[j]? = some key)
    (htext : (mappingTexts place count entries)[3 + j * 2]? = some text) :
    tx.encryptEntry c iv (entries.flatMap Prod.fst) newStates depth idx j = .ok out ↔
      ∃ sender der, toUint256 key = .ok sender ∧
        tx.publicKeys[toChecksumAddress sender]? = some der ∧
        out = entry.1 ++ c.sealValue (evmToBytes der) iv text key := by
  apply Mpt.encryptEntry_eq_ok h.length_words hentry (h.mul_length_lt hstands hnew) hkey
  rw [Nat.add_assoc]
  exact hstands.element_eq hnew htext

/-- A key with its encrypted value has three texts more than words. -/
theorem Keyed.length_encryptEntry
    (houts : encryptEntries tx c entropy name (entries.flatMap Prod.fst) newStates depth idx =
      .ok outs) : ∀ out ∈ outs, out.length = depth + 3 := by
  obtain ⟨hlength, hrounds⟩ := mapM_range_eq_ok.mp houts
  intro out hout
  obtain ⟨j, hj, rfl⟩ := mem_iff_getElem.mp hout
  obtain ⟨entry, key, text, hentry, hkey, htext, -⟩ := h.exists_entry place count (hlength ▸ hj)
  obtain ⟨sender, der, -, -, hout⟩ := (h.encryptEntry_eq_ok hstands hnew hentry hkey htext).mp
    (hrounds j _ (List.getElem?_eq_getElem hj))
  rw [hout, length_append, h.length_words entry (mem_of_getElem? hentry)]
  rfl

private theorem Keyed.returns_encryptEntries
    (hrecovers : ∀ j < (tx.function.getKeysSize name).toNat,
      KeyRecovers tx (entries.flatMap Prod.fst) (mappingTexts place count entries) depth j) :
    Returns (encryptEntries tx c entropy name (entries.flatMap Prod.fst) newStates depth idx) := by
  rw [returns_mapM_range]
  intro j hj
  obtain ⟨entry, key, text, hentry, hkey, htext, -⟩ := h.exists_entry place count hj
  obtain ⟨sender, hsender, hmem, -⟩ := (h.keyRecovers_iff hentry hkey htext).mp (hrecovers j hj)
  have hder := ExtTreeMap.getElem?_eq_some_getElem hmem
  exact ⟨_, (h.encryptEntry_eq_ok hstands hnew hentry hkey htext).mpr
    ⟨sender, _, hsender, hder, rfl⟩⟩

variable (hc : c.Lawful)
  (houts : encryptEntries tx c entropy name (entries.flatMap Prod.fst) newStates depth idx =
    .ok outs)
  {idx' : Nat} (hsealed : Stands (place :: count :: outs.flatten) v idx') (hv : v.length < 2 ^ 64)

include hc houts hsealed hv

/-- What was encrypted key by key is decrypted key by key. -/
theorem Keyed.decryptEntry_eq (hj : j < (tx.function.getKeysSize name).toNat) :
    ∃ entry value, entries[j]? = some entry ∧
      decryptEntry { tx with oldStates := v } c (entries.flatMap Prod.fst)
        depth idx' j = .ok (entry.1 ++ [value]) ∧
      (KeyRecovers tx (entries.flatMap Prod.fst) (mappingTexts place count entries) depth j ↔
        value = entry.2) := by
  obtain ⟨hlength, hrounds⟩ := mapM_range_eq_ok.mp houts
  have hwidth := h.length_encryptEntry hstands hnew houts
  obtain ⟨entry, key, text, hentry, hkey, htext, hcanonical⟩ := h.exists_entry place count hj
  have hout := List.getElem?_eq_getElem (hlength ▸ hj)
  obtain ⟨sender, der, hsender, hder, heq⟩ :=
    (h.encryptEntry_eq_ok hstands hnew hentry hkey htext).mp (hrounds j _ hout)
  rw [heq] at hout
  have hword := h.length_words entry (mem_of_getElem? hentry)
  have htexts : ∀ k sealedText,
      (c.sealValue (evmToBytes der) (entropy.iv idx j) text key)[k]? = some sealedText →
      element v (sizeT (idx' + 2 + depth + j * (depth + 3) + k)) = .ok sealedText := by
    intro k sealedText hk
    have hlt := (List.getElem?_eq_some_iff.mp hk).1
    change k < 3 at hlt
    have hget : (place :: count :: outs.flatten)[2 + ((depth + 3) * j + (depth + k))]? =
        some sealedText := by
      rw [Nat.add_comm 2, List.getElem?_cons_succ, List.getElem?_cons_succ,
        getElem?_flatten hwidth hout (by omega), ← hword,
        List.getElem?_append_right (Nat.le_add_right _ _), Nat.add_sub_cancel_left, hk]
    have hplace : idx' + 2 + depth + j * (depth + 3) + k =
        idx' + (2 + ((depth + 3) * j + (depth + k))) := by
      rw [Nat.mul_comm j]
      omega
    rw [hplace]
    exact hsealed.element_eq hv hget
  refine ⟨entry, _, hentry, decryptEntry_of_sealed hc (entropy.length_iv idx j) h.length_words
    hentry (h.mul_length_lt hstands hnew) hsender hder htexts, ?_⟩
  rw [h.keyRecovers_iff hentry hkey htext, hcanonical]
  constructor
  · rintro ⟨sender', hsender', -, hif⟩
    cases hsender.symm.trans hsender'
    exact hif
  · intro hif
    exact ⟨sender, hsender, ExtTreeMap.mem_iff_isSome_getElem?.mpr (hder ▸ rfl), hif⟩

/-- The values that are read back are those that were written when each key recovers. -/
theorem Keyed.decryptEntries_eq :
    ∃ parts, decryptEntries { tx with oldStates := v } c name (entries.flatMap Prod.fst) depth
        idx' = .ok parts ∧ parts.flatten.length = (depth + 1) * entries.length ∧
      ((parts.flatten = entries.flatMap fun entry => entry.1 ++ [entry.2]) ↔
        ∀ j < (tx.function.getKeysSize name).toNat,
          KeyRecovers tx (entries.flatMap Prod.fst)
            (mappingTexts place count entries) depth j) := by
  have hround {j : Nat} (hj : j < (tx.function.getKeysSize name).toNat) :=
    h.decryptEntry_eq hstands hnew hc houts hsealed hv hj
  have hreturns : Returns (decryptEntries { tx with oldStates := v } c name
      (entries.flatMap Prod.fst) depth idx') := by
    rw [returns_mapM_range]
    intro j hj
    obtain ⟨entry, value, -, hok, -⟩ := hround hj
    exact ⟨_, hok⟩
  obtain ⟨parts, hparts⟩ := hreturns
  obtain ⟨hlength, hrounds⟩ := mapM_range_eq_ok.mp hparts
  have hpart {j : Nat} {part : List ByteString} (hj : parts[j]? = some part) :
      ∃ entry value, entries[j]? = some entry ∧ part = entry.1 ++ [value] ∧
        (KeyRecovers tx (entries.flatMap Prod.fst) (mappingTexts place count entries) depth j ↔
          value = entry.2) := by
    have hlt := (List.getElem?_eq_some_iff.mp hj).1
    obtain ⟨entry, value, hentry, hok, hiff⟩ := hround (hlength ▸ hlt)
    exact ⟨entry, value, hentry, Except.ok.inj ((hrounds j part hj).symm.trans hok), hiff⟩
  have hwidth : ∀ part ∈ parts, part.length = depth + 1 := by
    intro part hmem
    obtain ⟨j, hj, rfl⟩ := mem_iff_getElem.mp hmem
    obtain ⟨entry, value, hentry, heq, -⟩ := hpart (List.getElem?_eq_getElem hj)
    rw [heq, length_append, h.length_words entry (mem_of_getElem? hentry)]
    rfl
  refine ⟨parts, hparts, ?_, ?_⟩
  · rw [length_flatten_of_forall hwidth, hlength, h.length_entries]
  · rw [flatten_eq_flatMap_iff (hlength.trans h.length_entries.symm) hwidth
      (length_entry h.length_words)]
    constructor
    · intro hall j hj
      have hget := List.getElem?_eq_getElem (hlength.symm ▸ hj)
      obtain ⟨entry, value, hentry, heq, hiff⟩ := hpart hget
      have hsame := hall j _ _ hget hentry
      rw [heq] at hsame
      exact hiff.mpr (singleton_inj.mp (append_cancel_left hsame))
    · intro hall j part entry hget hentry
      have hlt := (List.getElem?_eq_some_iff.mp hget).1
      obtain ⟨entry', value, hentry', heq, hiff⟩ := hpart hget
      cases hentry.symm.trans hentry'
      rw [heq, hiff.mp (hall j (hlength ▸ hlt))]

end

/-! ### One state -/

section

variable {entropy : Entropy} {addresses : ExtTreeMap ByteString ByteString}
  {newStates v : List ByteString} {id idx : Nat} {state : Params J} {place count value : ByteString}
  {kind : Kind} {owner : Owner} {encrypted texts segment : List ByteString}
  {readSize : ByteString → Except StateFailure Nat} {depth : BitVec 64} {var : ByteString}
  {varPos : Int} {outs : List (List ByteString)} {calls : List (Nat × Nat)}

/-- The place of a state stays in front of what is encrypted. -/
theorem encryptState_eq_ok (hstate : tx.states[id]? = some state)
    (hplace : newStates[idx]? = some place) (howner : state.ownedBy = some owner) :
    tx.encryptState tee c entropy addresses newStates id idx = .ok encrypted ↔
      ∃ texts, tx.encryptAs tee c entropy addresses newStates state idx owner = .ok texts ∧
        encrypted = place :: texts := by
  rw [encryptState, element_eq_ok.mpr hstate, ok_bind,
    element_eq_ok.mpr hplace, ok_bind, described_eq_ok.mpr howner, ok_bind, except_bind_eq_ok]
  simp only [pure, Except.pure, Except.ok.injEq, eq_comm]

private theorem decryptState_eq_ok {decrypted : List ByteString}
    (hstate : tx.states[id]? = some state)
    (hplace : tx.oldStates[idx]? = some place) (howner : state.ownedBy = some owner) :
    tx.decryptState tee c id idx = .ok decrypted ↔
      ∃ texts, tx.decryptAs tee c state idx owner = .ok texts ∧ decrypted = place :: texts := by
  rw [decryptState, element_eq_ok.mpr hplace, ok_bind,
    described_eq_ok.mpr hstate, ok_bind, described_eq_ok.mpr howner, ok_bind, except_bind_eq_ok]
  simp only [pure, Except.pure, Except.ok.injEq, eq_comm]

/-- The encrypted segment of a state, which is read back wherever it stands, as the segment it
was exactly when `recovers` holds. -/
structure Sealed (tx : CloakPolicyTransaction J) (tee : PublicKey) (c : StateCipher) (id : Nat)
    (state : Params J) (segment encrypted : List ByteString) (recovers : Prop) : Prop where
  isSegment : IsSegment tx.function true id state encrypted
  opened : ∀ v idx, Stands encrypted v idx → v.length < 2 ^ 64 →
    ∃ decrypted, decryptState { tx with oldStates := v } tee c id idx =
        .ok decrypted ∧ decrypted.length = segment.length ∧ (decrypted = segment ↔ recovers)

omit [StateTexts J] in
/-- The place of a state is found where its segment starts. -/
theorem Stands.getElem?_place (h : Stands (place :: texts) v idx) :
    v[idx]? = some place := h.getElem? (Nat.zero_lt_succ _)

private theorem Sealed.of_texts {plain : List ByteString} {recovers : Prop}
    (hstate : tx.states[id]? = some state) (howner : state.ownedBy = some owner)
    (hsegment : IsSegment tx.function true id state (place :: texts))
    (h : ∀ v idx, Stands (place :: texts) v idx → v.length < 2 ^ 64 →
      ∃ values, decryptAs { tx with oldStates := v } tee c state idx owner =
        .ok values ∧ values.length = plain.length ∧ (values = plain ↔ recovers)) :
    Sealed tx tee c id state (place :: plain) (place :: texts) recovers := by
  refine ⟨hsegment, ?_⟩
  intro v idx hstands hv
  obtain ⟨values, hvalues, hlength, hiff⟩ := h v idx hstands hv
  have hread := @decryptState_eq_ok J _ _ { tx with oldStates := v } tee c id idx state place owner
    (place :: values) hstate hstands.getElem?_place howner
  refine ⟨place :: values, hread.mpr ⟨values, hvalues, rfl⟩, ?_, ?_⟩
  · rw [length_cons, length_cons, hlength]
  · rw [cons_inj_right, hiff]

omit [StateTexts J] in
private theorem Params.copied_scalar (hkind : state.kind = some kind)
    (hscalar : ∀ depth, kind ≠ .mapping depth) (hvalue : element v (sizeT (idx + 1)) = .ok value) :
    state.copied readSize v idx = .ok [value] := by
  rw [Params.copied, described_eq_ok.mpr hkind, ok_bind]
  cases kind with
  | mapping depth => exact absurd rfl (hscalar depth)
  | address | array _ | other => rw [hvalue]; rfl

omit [StateTexts J] in
private theorem Params.copied_mapping {size : Nat} (hkind : state.kind = some (.mapping depth))
    (hstands : Stands (place :: count :: texts) v idx) (hv : v.length < 2 ^ 64)
    (hsize : readSize count = .ok size) (htexts : texts.length = size * (depth.toNat + 1)) :
    state.copied readSize v idx = .ok (count :: texts) := by
  have hle := hstands.le_length
  have hslice := hstands.slice_eq (Nat.succ_le_succ (Nat.zero_le (1 + texts.length)))
    (by rw [length_cons, length_cons]; omega)
  rw [length_cons, length_cons] at hle
  rw [Params.copied, described_eq_ok.mpr hkind, ok_bind]
  simp only [hstands.element_eq hv (k := 1) rfl, ok_bind, hsize]
  rw [← htexts, sizeT_of_lt (by omega), 
    show idx + 2 + texts.length = idx + (1 + texts.length + 1) by omega, hslice]
  simp [Nat.add_comm 1]

omit [StateTexts J] in
private theorem Params.depth_eq (hkind : state.kind = some (.mapping depth)) :
    state.depth = .ok depth.toNat := by
  rw [Params.depth, described_eq_ok.mpr hkind]
  rfl

omit [StateTexts J] in
private theorem Params.depth_scalar (hkind : state.kind = some kind)
    (hscalar : ∀ depth, kind ≠ .mapping depth) : state.depth = .error .thrown := by
  rw [Params.depth, described_eq_ok.mpr hkind, ok_bind]
  cases kind with
  | mapping depth => exact absurd rfl (hscalar depth)
  | address | array _ | other => rfl

private theorem Params.exists_zeroValue (hkind : state.kind = some kind) :
    ∃ zero, state.zeroValue = .ok zero := by
  rw [Params.zeroValue, described_eq_ok.mpr hkind]
  cases kind with
  | mapping _ | address | array _ | other => exact ⟨_, rfl⟩

/-- A plain segment has the layout of a segment with one text for each value. -/
theorem IsPlain.isSegment {encrypted : Bool} (h : IsPlain tx id state segment)
    (hone : ∀ owner, state.ownedBy = some owner → factor encrypted owner = 1) :
    IsSegment tx.function encrypted id state segment := by
  cases h with
  | @scalar kind owner place value hkind hscalar howner hplace hvalue =>
    apply IsSegment.scalar hkind hscalar howner hplace
    rw [hone owner howner]
    rfl
  | @mapping depth owner place count size entries hkind hdepth howner hplace hcount hread hsize
      hentries hwords hkeys hvalues =>
    have hmapping := @IsSegment.mapping J _ tx.function encrypted id state depth owner place count
      (entries.map fun entry => (entry.1, [entry.2])) hkind howner hplace hcount
      (by rw [length_map, hentries])
    rw [flatMap_map] at hmapping
    apply hmapping
    · intro entry hmem
      obtain ⟨plain, hplain, rfl⟩ := mem_map.mp hmem
      exact hwords plain hplain
    · intro entry hmem
      obtain ⟨plain, hplain, rfl⟩ := mem_map.mp hmem
      rw [hone owner howner]
      rfl

private theorem IsPlain.copied_eq (h : IsPlain tx id state (place :: texts))
    (hstands : Stands (place :: texts) v idx) (hv : v.length < 2 ^ 64)
    (hread : ∀ count size, toUint64 count = tx.function.getKeysSize state.name →
      toUint256 count = .ok size → size.toNat = (tx.function.getKeysSize state.name).toNat →
      readSize count = .ok (tx.function.getKeysSize state.name).toNat) :
    state.copied readSize v idx = .ok texts := by
  cases h with
  | scalar hkind hscalar howner hplace hvalue =>
    exact Params.copied_scalar hkind hscalar (hstands.element_eq hv rfl)
  | mapping hkind hdepth howner hplace hcount huint hsize hentries hwords hkeys hvalues =>
    apply Params.copied_mapping hkind hstands hv (hread _ _ hcount huint hsize)
    rw [length_flatMap_of_forall (length_entry hwords), hentries, Nat.mul_comm]

private theorem sizeT_toNat (x : BitVec 64) : sizeT x.toNat = x.toNat := sizeT_of_lt x.isLt

/-- A state owned by all is written and read as it is. -/
theorem IsPlain.encryptAs_all (h : IsPlain tx id state (place :: texts))
    (hstands : Stands (place :: texts) newStates idx) (hnew : newStates.length < 2 ^ 64) :
    tx.encryptAs tee c entropy addresses newStates state idx .all = .ok texts := by
  apply h.copied_eq hstands hnew
  intro count size hcount _ _
  rw [hcount]

private theorem IsPlain.decryptAs_all (h : IsPlain tx id state (place :: texts))
    (hstands : Stands (place :: texts) v idx) (hv : v.length < 2 ^ 64) :
    decryptAs { tx with oldStates := v } tee c state idx .all = .ok texts := by
  apply h.copied_eq hstands hv
  intro count size _ hsize heq
  rw [hsize]
  change Except.ok (sizeT size.toNat) = _
  rw [heq, sizeT_toNat]

private theorem IsPlain.sealed_all (h : IsPlain tx id state (place :: texts))
    (hstate : tx.states[id]? = some state) (howner : state.ownedBy = some .all) :
    Sealed tx tee c id state (place :: texts) (place :: texts) True := by
  apply Sealed.of_texts hstate howner
  · apply h.isSegment
    intro owner hsome
    cases howner.symm.trans hsome
    rfl
  · intro v idx hstands hv
    exact ⟨texts, h.decryptAs_all hstands hv, rfl, iff_of_true rfl trivial⟩

/-- A sealed value is read back, unless the address of its owner is zero. -/
theorem decryptOwned_of_sealed (hc : c.Lawful) {iv der senderText zero : ByteString}
    {sender : Address} {keyOf : ByteString → Except StateFailure ByteString}
    (hiv : iv.length = 12) (hsender : toUint256 senderText = .ok sender)
    (hder : keyOf (toChecksumAddress sender) = .ok der) (hzero : state.zeroValue = .ok zero)
    (hstands : Stands (place :: c.sealValue der iv value senderText) v idx)
    (hv : v.length < 2 ^ 64) : decryptOwned { tx with oldStates := v } c state keyOf idx =
      .ok (if sender = 0 then zero else toHexString (evmToBytes value)) := by
  rw [decryptOwned]
  simp only [hstands.element_eq hv (k := 3) rfl, hstands.element_eq hv (k := 2) rfl,
    hstands.element_eq hv (k := 1) rfl, ok_bind, orThrow_eq_ok.mpr hsender,
    orThrow_eq_ok.mpr (toUint256_toChecksumAddress sender), hder, hzero, hc.openValue_sealValue hiv]
  by_cases h : sender = 0
  · rw [if_pos h, if_pos h]
  · rw [if_neg h, if_neg h]

/-- A scalar that is encrypted for its owner. -/
theorem Sealed.of_owned (hc : c.Lawful) {iv der senderText zero : ByteString}
    {sender : Address} {keyOf : ByteString → Except StateFailure ByteString}
    (hstate : tx.states[id]? = some state) (hkind : state.kind = some kind)
    (hscalar : ∀ depth, kind ≠ .mapping depth)
    (howner : state.ownedBy = some owner) (hne : owner ≠ .all)
    (hplace : (toUint64 place).toNat = id) (hvalue : Canonical value) (hdecrypt : ∀ v idx,
      decryptAs { tx with oldStates := v } tee c state idx owner = do
        return [← decryptOwned { tx with oldStates := v } c state keyOf idx])
    (hiv : iv.length = 12) (hsender : toUint256 senderText = .ok sender)
    (hder : keyOf (toChecksumAddress sender) = .ok der) (hzero : state.zeroValue = .ok zero) :
    Sealed tx tee c id state [place, value] (place :: c.sealValue der iv value senderText)
      (sender = 0 → state.zeroValue = .ok value) := by
  apply Sealed.of_texts hstate howner
  · apply IsSegment.scalar hkind hscalar howner hplace
    rw [factor, if_pos ⟨rfl, hne⟩]
    rfl
  · intro v idx hstands hv
    have hopened := @decryptOwned_of_sealed J _ _ tx c v idx state place value hc iv der senderText
      zero sender keyOf hiv hsender hder hzero hstands hv
    refine ⟨[if sender = 0 then zero else toHexString (evmToBytes value)], ?_, ?_, ?_⟩
    · rw [hdecrypt, hopened]
      rfl
    · rfl
    · rw [singleton_inj, hvalue.toHexString_evmToBytes, hzero, Except.ok.injEq]
      by_cases h : sender = 0
      · simp [h]
      · rw [if_neg h]
        exact iff_of_true rfl (fun hsender => absurd hsender h)

/-- A scalar of the TEE is always encrypted. -/
theorem encryptAs_tee (hvalue : element newStates (sizeT (idx + 1)) = .ok value) :
    tx.encryptAs tee c entropy addresses newStates state idx .tee =
      .ok (c.sealValue tee.raw (entropy.iv idx 0) value (numberToHexString tee.address)) := by
  rw [encryptAs, hvalue]
  rfl

/-- A scalar of an identifier is encrypted when its address and public key are known. -/
theorem encryptAs_identifier (hvalue : element newStates (sizeT (idx + 1)) = .ok value) :
    tx.encryptAs tee c entropy addresses newStates state idx (.identifier name) = .ok texts ↔
      ∃ sender der, addresses[name]? = some sender ∧ tx.publicKeys[sender]? = some der ∧
        texts = c.sealValue (evmToBytes der) (entropy.iv idx 0) value sender := by
  rw [encryptAs, except_bind_eq_ok]
  simp only [described_eq_ok, except_bind_eq_ok, publicKey_eq_ok, hvalue, Except.ok.injEq]
  constructor
  · rintro ⟨sender, hsender, der, ⟨key, hkey, rfl⟩, _, rfl, h⟩
    exact ⟨sender, key, hsender, hkey, (Except.ok.inj h).symm⟩
  · rintro ⟨sender, key, hsender, hkey, rfl⟩
    exact ⟨sender, hsender, _, ⟨key, hkey, rfl⟩, value, rfl, rfl⟩

/-- A mapping owned by its keys is encrypted when each key is. -/
theorem encryptAs_keys (hkind : state.kind = some (.mapping depth))
    (hkeys : tx.mappingKeys state.name = .ok keys)
    (hcount : element newStates (sizeT (idx + 1)) = .ok count) :
    tx.encryptAs tee c entropy addresses newStates state idx (.mapping var varPos) = .ok texts ↔
      ∃ outs, encryptEntries tx c entropy state.name keys newStates depth.toNat idx = .ok outs ∧
        texts = count :: outs.flatten := by
  rw [encryptAs, hkeys, ok_bind, Params.depth_eq hkind, ok_bind, hcount, ok_bind, except_bind_eq_ok]
  simp only [pure, Except.pure, Except.ok.injEq, eq_comm]

private theorem decryptAs_keys {parts : List (List ByteString)}
    (hkind : state.kind = some (.mapping depth))
    (hkeys : tx.mappingKeys state.name = .ok keys)
    (hcount : element tx.oldStates (sizeT (idx + 1)) = .ok count)
    (hparts : decryptEntries tx c state.name keys depth.toNat idx = .ok parts) :
    tx.decryptAs tee c state idx (.mapping var varPos) = .ok (count :: parts.flatten) := by
  rw [decryptAs, hkeys, ok_bind, Params.depth_eq hkind, ok_bind, hcount, ok_bind]
  exact except_bind_eq_ok.mpr ⟨parts, hparts, rfl⟩

/-- A scalar has no keys. -/
theorem encryptAs_keys_scalar (hkind : state.kind = some kind)
    (hscalar : ∀ depth, kind ≠ .mapping depth) :
    tx.encryptAs tee c entropy addresses newStates state idx (.mapping var varPos) ≠ .ok texts := by
  intro h
  obtain ⟨keys, -, h⟩ := except_bind_eq_ok.mp h
  obtain ⟨depth, hdepth, -⟩ := except_bind_eq_ok.mp h
  cases (Params.depth_scalar hkind hscalar).symm.trans hdepth

omit [StateTexts J] in
private theorem isSegment_of_width (hwidth : ∀ out ∈ outs, out.length = depth.toNat + 3)
    (houts : outs.length = (tx.function.getKeysSize state.name).toNat)
    (hkind : state.kind = some (.mapping depth)) (howner : state.ownedBy = some owner)
    (hne : owner ≠ .all) (hplace : (toUint64 place).toNat = id)
    (hcount : toUint64 count = tx.function.getKeysSize state.name) :
    IsSegment tx.function true id state (place :: count :: outs.flatten) := by
  have hmapping := @IsSegment.mapping J _ tx.function true id state depth owner place count
    (outs.map fun out => (out.take depth.toNat, out.drop depth.toNat)) hkind howner hplace hcount
    (by rw [length_map, houts])
  rw [flatMap_map] at hmapping
  simp only [take_append_drop] at hmapping
  rw [← flatMap_id]
  apply hmapping
  · intro entry hmem
    obtain ⟨out, hout, rfl⟩ := mem_map.mp hmem
    rw [length_take, hwidth out hout]
    omega
  · intro entry hmem
    obtain ⟨out, hout, rfl⟩ := mem_map.mp hmem
    rw [length_drop, hwidth out hout, factor, if_pos ⟨rfl, hne⟩, Nat.add_sub_cancel_left]
    rfl

/-- A mapping that is encrypted key by key. -/
theorem Keyed.sealed {entries : List (List ByteString × ByteString)}
    (h : Keyed tx state.name depth.toNat entries) (hc : c.Lawful)
    (hstate : tx.states[id]? = some state) (hkind : state.kind = some (.mapping depth))
    (howner : state.ownedBy = some (.mapping var varPos)) (hplace : (toUint64 place).toNat = id)
    (hcount : toUint64 count = tx.function.getKeysSize state.name)
    (hstands : Stands (mappingTexts place count entries) newStates idx)
    (hnew : newStates.length < 2 ^ 64)
    (houts : encryptEntries tx c entropy state.name (entries.flatMap Prod.fst) newStates depth.toNat
      idx = .ok outs) :
    Sealed tx tee c id state (mappingTexts place count entries) (place :: count :: outs.flatten)
      (∀ j < (tx.function.getKeysSize state.name).toNat,
        KeyRecovers tx (entries.flatMap Prod.fst) (mappingTexts place count entries) depth.toNat
          j) := by
  apply Sealed.of_texts hstate howner
  · exact isSegment_of_width (h.length_encryptEntry hstands hnew houts)
      (mapM_range_eq_ok.mp houts).1 hkind howner (by simp) hplace hcount
  · intro v idx' hsealed hv
    obtain ⟨parts, hparts, hlength, hiff⟩ := h.decryptEntries_eq hstands hnew hc houts hsealed hv
    refine ⟨_, decryptAs_keys hkind h.mappingKeys_eq (hsealed.element_eq hv rfl) hparts, ?_, ?_⟩
    · rw [length_cons, length_cons, hlength, length_flatMap_of_forall (length_entry h.length_words)]
    · rw [cons_inj_right, hiff]

/-- A mapping that is treated as a scalar. -/
def TreatedAsScalar (state : Params J) : Prop :=
  ∃ depth owner, state.kind = some (.mapping depth) ∧
    state.ownedBy = some owner ∧ owner ≠ .all ∧ ∀ var varPos, owner ≠ .mapping var varPos

/-- The table of addresses that the first traversal fills. -/
def ReadsAddresses (tx : CloakPolicyTransaction J) (calls : List (Nat × Nat))
    (addresses : ExtTreeMap ByteString ByteString) : Prop :=
  ∀ name text, addresses[name]? = some text ↔
    ∃ address, HasAddress tx calls name address ∧ text = toChecksumAddress address

private theorem recovers_scalar_iff {calls : List (Nat × Nat)} (hkind : state.kind = some kind)
    (hscalar : ∀ depth, kind ≠ .mapping depth) (howner : state.ownedBy = some owner) :
    Recovers tx tee calls state [place, value] ↔ ScalarRecovers tx tee calls state value owner := by
  have hsecond : [place, value][1]? = some value := rfl
  rw [Recovers]
  simp only [hkind, howner, Option.some.injEq, hsecond]
  constructor
  · rintro ⟨_, _, rfl, rfl, h⟩
    cases kind with
    | mapping depth => exact absurd rfl (hscalar depth)
    | address | array _ | other => obtain ⟨_, rfl, h⟩ := h; exact h
  · intro h
    refine ⟨kind, owner, rfl, rfl, ?_⟩
    cases kind with
    | mapping depth => exact absurd rfl (hscalar depth)
    | address | array _ | other => exact ⟨value, rfl, h⟩

/-- A mapping comes back when its values do. -/
theorem recovers_mapping_iff (hkind : state.kind = some (.mapping depth))
    (howner : state.ownedBy = some owner) : Recovers tx tee calls state segment ↔
      MappingRecovers tx state segment depth.toNat owner := by
  rw [Recovers]
  simp only [hkind, howner, Option.some.injEq]
  constructor
  · rintro ⟨_, _, rfl, rfl, h⟩
    exact h
  · intro h
    exact ⟨_, _, rfl, rfl, h⟩

private theorem toChecksumAddress_inj {a b : Address}
    (h : toChecksumAddress a = toChecksumAddress b) :
    a = b := by
  have ha := toUint256_toChecksumAddress a
  rw [h, toUint256_toChecksumAddress b] at ha
  exact (Except.ok.inj ha).symm

private theorem Sealed.congr {p q : Prop} (h : Sealed tx tee c id state segment encrypted p)
    (hpq : p ↔ q) :
    Sealed tx tee c id state segment encrypted q := propext hpq ▸ h

/-- A scalar of an identifier comes back by the one address that it has. -/
theorem scalarRecovers_identifier_iff {address : Address}
    (haddresses : ReadsAddresses tx calls addresses)
    (haddress : addresses[name]? = some (toChecksumAddress address))
    (hder : tx.publicKeys[toChecksumAddress address]? = some der) :
    (address = 0 → state.zeroValue = .ok value) ↔
      ScalarRecovers tx tee calls state value (.identifier name) := by
  obtain ⟨same, hhas, heq⟩ := (haddresses name _).mp haddress
  cases toChecksumAddress_inj heq
  constructor
  · intro h
    exact ⟨address, hhas, ExtTreeMap.mem_iff_isSome_getElem?.mpr (hder ▸ rfl), h⟩
  · rintro ⟨other, hother, -, h⟩
    have hsame := (haddresses name _).mpr ⟨other, hother, rfl⟩
    rw [haddress, Option.some.injEq] at hsame
    cases toChecksumAddress_inj hsame
    exact h

/-- What is encrypted of a state that is treated as what it is. -/
theorem IsPlain.sealed (h : IsPlain tx id state segment) (hc : c.Lawful)
    (hshape : ¬TreatedAsScalar state) (haddresses : ReadsAddresses tx calls addresses)
    (hstate : tx.states[id]? = some state) (hstands : Stands segment newStates idx)
    (hnew : newStates.length < 2 ^ 64)
    (hencrypt : tx.encryptState tee c entropy addresses newStates id idx = .ok encrypted) :
    Sealed tx tee c id state segment encrypted (Recovers tx tee calls state segment) := by
  have hplain := h
  cases h with
  | @scalar kind owner place value hkind hscalar howner hplace hvalue =>
    have hget := hstands.element_eq hnew (k := 1) rfl
    obtain ⟨zero, hzero⟩ := Params.exists_zeroValue hkind
    obtain ⟨texts, htexts, rfl⟩ :=
      (encryptState_eq_ok hstate hstands.getElem?_place howner).mp hencrypt
    have hrecovers := @recovers_scalar_iff J _ _ tx tee state place value kind owner calls hkind
      hscalar howner
    cases owner with
    | all =>
      cases (hplain.encryptAs_all hstands hnew).symm.trans htexts
      exact (hplain.sealed_all hstate howner).congr (iff_of_true trivial (hrecovers.mpr trivial))
    | mapping var varPos => exact absurd htexts (encryptAs_keys_scalar hkind hscalar)
    | tee =>
      cases (encryptAs_tee hget).symm.trans htexts
      have hsealed := @Sealed.of_owned J _ _ tx tee c id state place value kind .tee hc
        (entropy.iv idx 0) tee.raw (numberToHexString tee.address) zero tee.address
        (fun _ => .ok tee.raw) hstate hkind hscalar howner (by simp) hplace hvalue
        (fun _ _ => rfl) (entropy.length_iv idx 0) (toUint256_numberToHexString _) rfl hzero
      exact hsealed.congr hrecovers.symm
    | identifier name =>
      obtain ⟨sender, der, hsender, hder, rfl⟩ := (encryptAs_identifier hget).mp htexts
      obtain ⟨address, -, rfl⟩ := (haddresses name sender).mp hsender
      have hsealed := @Sealed.of_owned J _ _ tx tee c id state place value kind (.identifier name)
        hc (entropy.iv idx 0) (evmToBytes der) (toChecksumAddress address) zero address
        tx.publicKey hstate hkind hscalar howner (by simp) hplace hvalue
        (fun _ _ => rfl) (entropy.length_iv idx 0) (toUint256_toChecksumAddress _)
        (publicKey_eq_ok.mpr ⟨der, hder, rfl⟩) hzero
      exact hsealed.congr
        ((scalarRecovers_identifier_iff haddresses hsender hder).trans hrecovers.symm)
  | @mapping depth owner place count size entries hkind hdepth howner hplace hcount hread hsize
      hentries hwords hkeys hvalues =>
    obtain ⟨texts, htexts, rfl⟩ :=
      (encryptState_eq_ok hstate hstands.getElem?_place howner).mp hencrypt
    cases owner with
    | all =>
      cases (hplain.encryptAs_all hstands hnew).symm.trans htexts
      exact (hplain.sealed_all hstate howner).congr
        (iff_of_true trivial ((recovers_mapping_iff hkind howner).mpr trivial))
    | mapping var varPos =>
      have hkeyed : Keyed tx state.name depth.toNat entries :=
        ⟨hdepth, hentries, hwords, hkeys (by simp), hvalues⟩
      obtain ⟨outs, houts, rfl⟩ := (encryptAs_keys hkind hkeyed.mappingKeys_eq
        (hstands.element_eq hnew (k := 1) rfl)).mp htexts
      apply (hkeyed.sealed hc hstate hkind howner hplace hcount hstands hnew houts).congr
      rw [recovers_mapping_iff hkind howner]
      constructor
      · intro hall
        exact ⟨_, hkeyed.mappingKeys_eq, hall⟩
      · rintro ⟨keys, heq, hall⟩
        cases hkeyed.mappingKeys_eq.symm.trans heq
        exact hall
    | tee => exact absurd ⟨depth, .tee, hkind, howner, by simp, by simp⟩ hshape
    | identifier name => exact absurd ⟨depth, _, hkind, howner, by simp, by simp⟩ hshape

/-- A state that comes back is encrypted. -/
theorem IsPlain.exists_encryptState (h : IsPlain tx id state segment)
    (haddresses : ReadsAddresses tx calls addresses) (hstate : tx.states[id]? = some state)
    (hstands : Stands segment newStates idx) (hnew : newStates.length < 2 ^ 64)
    (hrecovers : Recovers tx tee calls state segment) :
    ∃ encrypted, tx.encryptState tee c entropy addresses newStates id idx = .ok encrypted := by
  have hplain := h
  cases h with
  | @scalar kind owner place value hkind hscalar howner hplace hvalue =>
    have hget := hstands.element_eq hnew (k := 1) rfl
    have hwhen := (recovers_scalar_iff hkind hscalar howner).mp hrecovers
    simp only [encryptState_eq_ok hstate hstands.getElem?_place howner]
    cases owner with
    | all => exact ⟨_, _, hplain.encryptAs_all hstands hnew, rfl⟩
    | mapping var varPos => exact hwhen.elim
    | tee => exact ⟨_, _, encryptAs_tee hget, rfl⟩
    | identifier name =>
      obtain ⟨address, hhas, hmem, -⟩ := hwhen
      have haddress := (haddresses name _).mpr ⟨address, hhas, rfl⟩
      have hder := ExtTreeMap.getElem?_eq_some_getElem hmem
      exact ⟨_, _, (encryptAs_identifier hget).mpr ⟨_, _, haddress, hder, rfl⟩, rfl⟩
  | @mapping depth owner place count size entries hkind hdepth howner hplace hcount hread hsize
      hentries hwords hkeys hvalues =>
    have hwhen := (recovers_mapping_iff hkind howner).mp hrecovers
    simp only [encryptState_eq_ok hstate hstands.getElem?_place howner]
    cases owner with
    | all => exact ⟨_, _, hplain.encryptAs_all hstands hnew, rfl⟩
    | mapping var varPos =>
      have hkeyed : Keyed tx state.name depth.toNat entries :=
        ⟨hdepth, hentries, hwords, hkeys (by simp), hvalues⟩
      obtain ⟨keys, heq, hall⟩ := hwhen
      cases hkeyed.mappingKeys_eq.symm.trans heq
      obtain ⟨outs, houts⟩ := @Keyed.returns_encryptEntries J _ tx c state.name depth.toNat entries
        place count entropy newStates idx hkeyed hstands hnew hall
      exact ⟨_, _, (encryptAs_keys hkind hkeyed.mappingKeys_eq
        (hstands.element_eq hnew (k := 1) rfl)).mpr ⟨outs, houts, rfl⟩, rfl⟩
    | tee | identifier _ => exact hwhen.elim

end

end CloakBridge.Mpt
