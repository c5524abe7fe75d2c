import CloakBridge.Models.Abi.EncoderCorrect
import CloakBridge.Models.Tee.Web3Operation

/-!
# The call data of a heartbeat

`on_heart_beat` encodes the update of one contract as a call of its proxy, and that call
as one element of a call of the service. Keys and values are read back as numbers, so
nothing is lost. The address is read by the routine that places digits from the left: it
arrives whole only if it has all its forty digits.
-/

namespace CloakBridge.Tee

open Abi Abicoder AbiType UpdateState Argument List

namespace UpdateState

/-- `make_number_array` with its defaults, which land in each other's places: signed numbers of
width `0`, that is of the default width. -/
def makeNumberArray : TypeJson := .array (.base (.number 0 true)) none

/-- A list of numbers as strings. -/
def numberList (ws : List Word) : Json := .list (ws.map fun w => .text (numberToHexString w))

/-- The inputs of the call to the proxy. -/
def proxyInputs (call : UpdateState) : List Input :=
  [⟨"bytes32", .base (.bytes 32), .text (toHexString call.proof)⟩,
    ⟨"bytes32[]", makeNumberArray, numberList call.keys⟩,
    ⟨"bytes32[]", makeNumberArray, numberList call.vals⟩]

/-- The inputs of the call to the service. -/
def serviceInputs (contract : Address) (data : ByteString) : List Input :=
  [⟨"address[]", .array (.base .address) none, .list [.text (numberToHexString contract)]⟩,
    ⟨"bytes[]", .array (.base (.bytes 0)) none, .list [.text (toHexString data)]⟩]

/-- The `data` of the message call in `on_heart_beat` -/
def payload (call : UpdateState) : Except Failure ByteString := do
  let data ← encodeWithSignature "updateState" call.proxyInputs
  let data ← encodeWithSignature "updateState" (serviceInputs call.contract data)
  .ok (toHexString data)

end UpdateState

/-- A word as a `bytes32`. -/
def bytes32 (w : Word) : (fixedBytes 32).Value := ⟨wordBytes w, length_wordBytes w⟩

/-- The call `updateState` of the proxy with these arguments. -/
def proxyCall (digest : (fixedBytes 32).Value) (keys vals : List Word) : ByteString :=
  encodeCall "updateState(bytes32,bytes32[],bytes32[])"
    [⟨.fixedBytes 32, digest⟩, ⟨.array (.fixedBytes 32), keys.map bytes32⟩,
      ⟨.array (.fixedBytes 32), vals.map bytes32⟩]

/-- The call `updateState` of the service for one proxy. -/
def serviceCall (contract : BitVec 160) (data : ByteString) : ByteString :=
  encodeCall "updateState(address[],bytes[])"
    [⟨.array .address, [contract]⟩, ⟨.array .bytes, [data]⟩]

variable {a : Word} {k : Nat}

private theorem methodSignature_eq {entry : String} {inputs : List Input} {signature : String}
    (h : entry ++ "(" ++ ",".intercalate (inputs.map Input.name) ++ ")" = signature)
    (hlength : (ascii signature).length < 2 ^ 16) :
    methodSignature entry inputs = selector signature := by
  rw [methodSignature, h, selector, keccak256, Nat.mod_eq_of_lt hlength, take_length]

private theorem proxyInputs_signature (call : UpdateState) :
    methodSignature "updateState" call.proxyInputs =
      selector "updateState(bytes32,bytes32[],bytes32[])" :=
  methodSignature_eq rfl (by decide)

private theorem serviceInputs_signature (contract : Address) (data : ByteString) :
    methodSignature "updateState" (serviceInputs contract data) =
      selector "updateState(address[],bytes[])" :=
  methodSignature_eq rfl (by decide)

private theorem forall₂_numberList (ws : List Word) :
    Literal (.array (.number true 0)) ws (numberList ws) := by
  refine ⟨_, rfl, ?_⟩
  rw [List.forall₂_map_right_iff]
  exact List.forall₂_same.mpr fun w _ => ⟨_, rfl, numberLiteral_numberToHexString w⟩

private theorem part_bytes32 (ws : List Word) : part isDynamic ⟨.array (.number true 0), ws⟩ =
      part isDynamic ⟨.array (.fixedBytes 32), ws.map bytes32⟩ := by
  have hparts : ws.map (fun w => Abi.Part.mk false (wordBytes w)) =
      (ws.map bytes32).map fun bs => Abi.Part.mk false (padRight bs.val) := by
    rw [map_map]
    apply map_congr_left
    intro w _
    simp [bytes32, padRight]
  change Abi.Part.mk true (sizeWord ws.length ++ tuple (ws.map fun w => ⟨false, wordBytes w⟩)) =
    Abi.Part.mk true (sizeWord (ws.map bytes32).length ++
      tuple ((ws.map bytes32).map fun bs => ⟨false, padRight bs.val⟩))
  rw [hparts, length_map]

/-- The call of the proxy is encoded as the interface says. -/
theorem encode_proxyInputs (call : UpdateState) (hproof : call.proof.length = 32) :
    encodeWithSignature "updateState" call.proxyInputs =
      .ok (proxyCall ⟨call.proof, hproof⟩ call.keys call.vals) := by
  have hencode := encode_eq_encodeArguments
    [⟨.fixedBytes 32, ⟨call.proof, hproof⟩⟩, ⟨.array (.number true 0), call.keys⟩,
      ⟨.array (.number true 0), call.vals⟩] call.proxyInputs
    (by simp [AbiType.Valid, Plain])
    (.cons ⟨rfl, _, rfl, bytesLiteral_toHexString call.proof⟩
      (.cons ⟨rfl, forall₂_numberList call.keys⟩ (.cons ⟨rfl, forall₂_numberList call.vals⟩ .nil)))
  rw [encodeWithSignature, hencode, ok_bind, proxyInputs_signature, proxyCall, encodeCall]
  simp only [encodeArguments, map_cons, part_bytes32]

/-- The word an address of at most 20 bytes is encoded as. -/
def addressBytes (a : Word) : ByteString :=
  List.replicate 12 0 ++ hexPairs (hexDigits a) ++
    List.replicate (20 - (hexPairs (hexDigits a)).length) 0

private theorem pow_le_of_length_hexDigits (ha : a ≠ 0) (h : (hexDigits a).length = k + 1) :
    16 ^ k ≤ a.toNat := by
  apply pow_le_of_length_hexDigitsUpTo _ h
  intro hzero
  exact ha (BitVec.eq_of_toNat_eq hzero)

private theorem length_hexDigits_le_of_lt (hk : 0 < k) (h : a.toNat < 16 ^ k) :
    (hexDigits a).length ≤ k := by
  by_cases ha : a = 0
  · subst ha
    exact hk
  · by_contra hlong
    have hle := pow_le_of_length_hexDigits ha
      (show (hexDigits a).length = ((hexDigits a).length - 1) + 1 by omega)
    have hmono : 16 ^ k ≤ 16 ^ ((hexDigits a).length - 1) :=
      Nat.pow_le_pow_right (by omega) (by omega)
    omega

private theorem toBytes_numberToHexString (h : a.toNat < 2 ^ 160) :
    toBytes (numberToHexString a) 12 = .ok (addressBytes a) := by
  have hlength := length_hexDigits_le_of_lt (k := 40) (by omega)
    (by rwa [show (16 : Nat) ^ 40 = 2 ^ 160 by norm_num])
  have hshort : ¬(hexDigits a ≠ [] ∧ 32 < 12 + ((hexDigits a).length + 1) / 2) := by omega
  simp only [toBytes, numberToHexString, strip_hexPrefix, length_hexPairs, hshort, if_false]
  rw [if_neg (by omega), addressBytes, length_hexPairs]

private theorem fromBigEndian_addressBytes (a : Word) : fromBigEndian (addressBytes a) =
      256 ^ (20 - (hexPairs (hexDigits a)).length) * fromBigEndian (hexPairs (hexDigits a)) := by
  rw [addressBytes, fromBigEndian_append, fromBigEndian_append, fromBigEndian_replicate_zero,
    fromBigEndian_replicate_zero, length_replicate, Nat.mul_zero, Nat.zero_add, Nat.add_zero]

/-- With fewer than forty digits an address other than zero arrives as a larger number. -/
theorem lt_fromBigEndian_addressBytes (ha : a ≠ 0) (h : a.toNat < 2 ^ 156) :
    a.toNat < fromBigEndian (addressBytes a) := by
  have hpos : 0 < a.toNat := by
    have hne : a.toNat ≠ 0 := fun hzero => ha (BitVec.eq_of_toNat_eq hzero)
    omega
  have hlength := length_hexDigits_le_of_lt (k := 39) (by omega)
    (by rwa [show (16 : Nat) ^ 39 = 2 ^ 156 by norm_num])
  have hvalue := hexValue_hexDigits a
  rw [fromBigEndian_addressBytes, length_hexPairs]
  rcases Nat.even_or_odd' (hexDigits a).length with ⟨n, hn | hn⟩
  · have hlt : hexValue (hexDigits a) < 256 ^ n := by
      have hlt := hexValue_lt (hexDigits a)
      rwa [hn, pow_mul] at hlt
    have hscale : 256 ^ 1 ≤ 256 ^ (20 - ((hexDigits a).length + 1) / 2) :=
      Nat.pow_le_pow_right (by omega) (by omega)
    rw [hexPairs_of_isHex (isHex_hexDigits a) hn, fromBigEndian_toBigEndian, Nat.mod_eq_of_lt hlt,
      hvalue]
    exact (Nat.lt_mul_iff_one_lt_left hpos).mpr (by omega)
  · rw [fromBigEndian_hexPairs_odd (isHex_hexDigits a) hn, hvalue]
    by_cases hsmall : a.toNat < 16
    · have hone : (hexDigits a).length = 1 := by
        have hle := length_hexDigits_le_of_lt (a := a) (k := 1) (by omega) (by simpa using hsmall)
        omega
      rw [hone]
      omega
    · have hscale : 0 < 256 ^ (20 - ((hexDigits a).length + 1) / 2) := Nat.pow_pos (by omega)
      have hgrow : a.toNat < 256 * (a.toNat / 16) + a.toNat % 16 := by omega
      exact hgrow.trans_le (Nat.le_mul_of_pos_left _ hscale)

/-- An address arrives whole exactly if it is zero or has forty digits. -/
theorem addressBytes_eq_iff (h : a.toNat < 2 ^ 160) :
    addressBytes a = wordBytes a ↔ a = 0 ∨ 2 ^ 156 ≤ a.toNat := by
  constructor
  · intro heq
    by_contra hnot
    rw [not_or, not_le] at hnot
    have hlt := lt_fromBigEndian_addressBytes hnot.1 hnot.2
    rw [heq, fromBigEndian_wordBytes] at hlt
    omega
  · rintro (rfl | hlong)
    · decide
    · have hle := length_hexDigits_le_of_lt (k := 40) (by omega)
        (by rwa [show (16 : Nat) ^ 40 = 2 ^ 160 by norm_num])
      have hge : 40 ≤ (hexDigits a).length := by
        by_contra hshort
        have hlt := hexValue_lt (hexDigits a)
        have hmono : 16 ^ (hexDigits a).length ≤ 16 ^ 39 :=
          Nat.pow_le_pow_right (by omega) (by omega)
        rw [hexValue_hexDigits] at hlt
        omega
      have hforty := toBytes_forty (isHex_hexDigits a) (by omega)
      have hbytes := toBytes_numberToHexString h
      rw [numberToHexString, hforty, hexValue_hexDigits, BitVec.ofNat_toNat,
        BitVec.setWidth_eq] at hbytes
      exact (Except.ok.inj hbytes).symm

private theorem length_addressBytes (h : a.toNat < 2 ^ 160) : (addressBytes a).length = 32 := by
  have hlength := length_hexDigits_le_of_lt (k := 40) (by omega)
    (by rwa [show (16 : Nat) ^ 40 = 2 ^ 160 by norm_num])
  simp only [addressBytes, length_append, length_replicate, length_hexPairs]
  omega

/-- An argument pair of one proxy, given as a word, and its data. -/
def servicePair (word data : ByteString) : ByteString :=
  tuple [⟨true, sizeWord 1 ++ word⟩, part isDynamic ⟨.array .bytes, [data]⟩]

private theorem serviceCall_eq (contract : BitVec 160) (data : ByteString) :
    serviceCall contract data = selector "updateState(address[],bytes[])" ++
      servicePair (wordBytes (contract.setWidth 256)) data := by
  have hpart : part isDynamic ⟨.array .address, [contract]⟩ =
      ⟨true, sizeWord 1 ++ wordBytes (contract.setWidth 256)⟩ := by
    simp [part, encodeWith, isDynamic, tuple, heads, Part.tail]
  simp only [serviceCall, encodeCall, encodeArguments, map_cons, map_nil, hpart, servicePair]

private theorem encode_serviceInputs {contract : Address} (h : contract.toNat < 2 ^ 160)
    (data : ByteString) :
    encodeWithSignature "updateState" (serviceInputs contract data) =
      .ok (selector "updateState(address[],bytes[])" ++
        servicePair (addressBytes contract) data) := by
  have haddress : packParams (.array (.base .address) none)
      (.list [.text (numberToHexString contract)]) =
        .ok ⟨true, sizeWord 1 ++ addressBytes contract⟩ := by
    have hword : packParams (.base .address) (.text (numberToHexString contract)) =
        .ok ⟨false, addressBytes contract⟩ :=
      packParams_scalar (show generateScalar _ _ = .ok (.address (addressBytes contract)) by
        rw [generateScalar, toBytes_numberToHexString h, ok_bind]) rfl
    have hlength := length_addressBytes h
    have hitems : [Json.text (numberToHexString contract)].mapM (packParams (.base .address)) =
        .ok [⟨false, addressBytes contract⟩] := by
      rw [mapM_cons, hword]
      rfl
    have harray := @packParams_array _ none _ _ (Or.inl rfl) hitems rfl (by simp [hlength])
    rw [harray]
    simp [tuple, heads, Part.tail]
  have hdata : packParams (.array (.base (.bytes 0)) none) (.list [.text (toHexString data)]) = .ok
      (part isDynamic ⟨.array .bytes, [data]⟩) := packParams_of_literal (t := .array .bytes) trivial
      (v := [data]) ⟨_, rfl, .cons ⟨_, rfl, bytesLiteral_toHexString data⟩ .nil⟩
  have haligned : ∀ p ∈ [⟨true, sizeWord 1 ++ addressBytes contract⟩,
      part isDynamic ⟨.array .bytes, [data]⟩], 32 ∣ p.data.length := by
    intro p hp
    simp only [mem_cons, not_mem_nil, or_false] at hp
    rcases hp with rfl | rfl
    · simp [length_addressBytes h]
    · exact dvd_length_encodeWith _ _ _
  have hencode : encode (serviceInputs contract data) =
      .ok (servicePair (addressBytes contract) data) := by
    simp only [encode, serviceInputs, mapM_cons, mapM_nil, haddress, hdata, ok_bind, pure_bind]
    exact pack_eq_tuple haligned
  rw [encodeWithSignature, hencode, ok_bind, serviceInputs_signature]

private theorem servicePair_inj {word word' : ByteString} (data : ByteString)
    (h : word.length = word'.length) :
    servicePair word data = servicePair word' data ↔ word = word' := by
  have hpair : ∀ w : ByteString, servicePair w data = sizeWord 64 ++ (sizeWord (96 + w.length) ++
      (sizeWord 1 ++ (w ++ encodeWith isDynamic (.array .bytes) [data]))) := by
    intro w
    have hoffset : 64 + (32 + w.length) = 96 + w.length := by omega
    simp [servicePair, tuple, Part.headSize, heads, Part.tail, part, isDynamic, hoffset]
  rw [hpair, hpair, h]
  simp only [append_cancel_left_eq, append_cancel_right_eq]

/-- What stands between the call data and the intended call is the word of the address. -/
theorem payload_eq_iff_addressBytes (contract : BitVec 160)
    (digest : (fixedBytes 32).Value) (keys vals : List Word) :
    payload ⟨contract.setWidth 256, digest.val, keys, vals⟩ =
        .ok (toHexString (serviceCall contract (proxyCall digest keys vals))) ↔
      addressBytes (contract.setWidth 256) = wordBytes (contract.setWidth 256) := by
  have hlt : (contract.setWidth 256).toNat < 2 ^ 160 := by
    have h := contract.isLt
    rw [BitVec.toNat_setWidth]
    omega
  have hproxy := encode_proxyInputs ⟨contract.setWidth 256, digest.val, keys, vals⟩ digest.property
  have hlength : (addressBytes (contract.setWidth 256)).length =
      (wordBytes (contract.setWidth 256)).length := by
    rw [length_addressBytes hlt, length_wordBytes]
  rw [payload, hproxy, ok_bind, encode_serviceInputs hlt, ok_bind, serviceCall_eq,
    Except.ok.injEq, toHexString_injective.eq_iff, append_cancel_left_eq, servicePair_inj _ hlength]

/-- The call data of a heartbeat is the intended call exactly if the address is zero or has no
leading zero digit. -/
theorem payload_eq_serviceCall_iff (contract : BitVec 160)
    (digest : (fixedBytes 32).Value) (updates : List (Word × Word)) :
    payload ⟨contract.setWidth 256, digest.val, updates.map Prod.fst, updates.map Prod.snd⟩ =
        .ok (toHexString (serviceCall contract
          (proxyCall digest (updates.map Prod.fst) (updates.map Prod.snd)))) ↔
      contract = 0 ∨ 2 ^ 156 ≤ contract.toNat := by
  have hlt := contract.isLt
  have htoNat : (contract.setWidth 256).toNat = contract.toNat := by
    rw [BitVec.toNat_setWidth]
    omega
  have hzero : contract.setWidth 256 = 0 ↔ contract = 0 := by
    simp [← BitVec.toNat_inj, htoNat]
  rw [payload_eq_iff_addressBytes, addressBytes_eq_iff (by omega), htoNat, hzero]

/-- An address whose first digit is zero is sent with its digits moved. -/
theorem payload_ne_serviceCall_leading_zero :
    payload ⟨0x0742d35cc6634c0532925a3b844bc454e4438f44, List.replicate 32 7, [1], [2]⟩
      ≠ .ok (toHexString (serviceCall 0x0742d35cc6634c0532925a3b844bc454e4438f44
          (proxyCall ⟨List.replicate 32 7, rfl⟩ [1] [2]))) := by
  intro h
  have hword := (payload_eq_iff_addressBytes 0x0742d35cc6634c0532925a3b844bc454e4438f44
    ⟨List.replicate 32 7, rfl⟩ [1] [2]).mp h
  exact absurd hword (by decide)

open TransactionSync Web3Operation in
/-- The update a heartbeat sends for the pending slots of one contract. -/
theorem call_of_onHeartBeat {pf : Platform} {visited : List StorageKey} {w w' : World}
    {m : Outgoing} (hrun : onHeartBeat pf visited w = .ok (some m) w') {a : Address}
    (hone : ∀ x ∈ visited, x.1 = a) :
    ∃ (digest : (fixedBytes 32).Value) (updates : List (Word × Word)), updates ≠ [] ∧
        m.call = ⟨a, digest.val, updates.map Prod.fst, updates.map Prod.snd⟩ := by
  obtain ⟨first, hfirst, hcall⟩ := (collected_of_onHeartBeat hrun).call
  have hmem : first ∈ statesOf w.tx.view visited := mem_of_head? hfirst
  have hcontract : first.1 = a := by
    rw [statesOf_of_contract _ hone] at hmem
    obtain ⟨x, hx, rfl⟩ := mem_map.mp hmem
    exact hone x hx
  have hproof : m.call.proof.length = 32 := by
    rw [hcall]
    exact length_keccak256 _
  refine ⟨⟨m.call.proof, hproof⟩, (statesOf w.tx.view visited).map Prod.snd, ?_, ?_⟩
  · rw [ne_eq, map_eq_nil_iff]
    exact ne_nil_of_mem hmem
  · rw [map_map, map_map]
    change m.call = ⟨a, m.call.proof, _, _⟩
    rw [hcall, hcontract]
    rfl

end CloakBridge.Tee
