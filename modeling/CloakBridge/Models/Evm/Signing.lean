import CloakBridge.Core.KeccakRows
import CloakBridge.Models.Evm.RawTransactions

/-!
# Signed transactions and their senders

The enclave signs its own transactions with the chain id, and whoever reads such a
transaction finds the call, the nonce and the address of the key. A sender is also
accepted without the chain id. The digest is then taken over the signature as well,
so that the key that is recovered is not the one that signed.
-/

namespace CloakBridge.Evm

open Tee Rlp SignedTransaction Abicoder List

/-- The address of a public key. -/
def KeyPair.address (kp : KeyPair) : Address := addressOfDigest (keccak256 kp.point)

variable {recId c : Nat} {bytes key : ByteString} {items : List ByteString} {t : SignedTransaction}
  {a : Address} {pf : Platform}

/-- The address of a key pair is that of its public key. -/
theorem getAddressFromPublicKey_publicKeyRaw (kp : KeyPair) :
    getAddressFromPublicKey kp.publicKeyRaw = .ok kp.address := rfl

private theorem isPreEip155_eq_false (c recId : Nat) :
    isPreEip155 (recId + c * 2 + 35) = false := by
  simp [isPreEip155]

private theorem isPreEip155_legacy (h : recId ≤ 1) : isPreEip155 (27 + recId) = true := by
  simp [isPreEip155]
  omega

/-- Without a chain id the recovery id is read back. -/
theorem fromEthereumRecoveryId_legacy (c : Nat) (h : recId ≤ 1) :
    fromEthereumRecoveryId c (27 + recId) = .ok recId := by
  rw [fromEthereumRecoveryId, if_pos (isPreEip155_legacy h), Nat.add_sub_cancel_left]
  rfl

/-- With a chain id the recovery id is read back. -/
theorem fromEthereumRecoveryId_eip155 (hc : 1 ≤ c) (h : recId ≤ 1) :
    fromEthereumRecoveryId c (recId + c * 2 + 35) = .ok recId := by
  have hrec : (recId + c * 2 + 35 - 35) % 2 = recId := by omega
  have hchain : (recId + c * 2 + 35 - recId - 35) / 2 = c := by omega
  rw [fromEthereumRecoveryId, isPreEip155_eq_false, if_neg (by simp), if_neg (by omega)]
  simp only [hrec, hchain, ne_eq, not_true, if_false]
  rfl

private theorem toEthereumRecoveryId_eq (hc : 1 ≤ c) (hc' : c ≤ 2 ^ 62) (h : recId ≤ 1) :
    toEthereumRecoveryId c recId = .ok (recId + c * 2 + 35) := by
  rw [toEthereumRecoveryId, if_neg (by omega), if_neg (by omega), Nat.mod_eq_of_lt (by omega)]
  rfl

/-- Recovery with id 0 or 1 inverts signing. -/
def KeyPair.Recovers (pf : Platform) (kp : KeyPair) : Prop :=
  ∀ digest, digest.length = 32 → ∃ raw recId, kp.signHash digest = raw ++ [recId] ∧
    raw.length = 64 ∧ recId.toNat ≤ 1 ∧
      pf.recoverKey recId.toNat raw digest = some kp.publicKeyRaw

/-- The text has two hexadecimal digits for each byte, with or without a prefix. -/
def HexText (bytes text : ByteString) : Prop :=
  ∃ digits, IsHex digits ∧ digits.length = 2 * bytes.length ∧
    hexValue digits = fromBigEndian bytes ∧
      (text = digits ∨ text = hexPrefix ++ digits)

private theorem strip_of_isHex {digits : ByteString} (h : IsHex digits) :
    strip digits = digits := by
  rw [strip, if_neg]
  intro hx
  obtain ⟨hlt, hget⟩ := List.getElem?_eq_some_iff.mp hx
  have hdigit := h _ (getElem_mem hlt)
  rw [hget] at hdigit
  exact absurd hdigit (by decide)

private theorem evmToBytes_of_hexText {text : ByteString} (h : HexText bytes text) :
    evmToBytes text = bytes := by
  obtain ⟨digits, hhex, hlength, hvalue, htext⟩ := h
  have hprefix := evmToBytes_hexPrefix hhex hlength
  rw [hvalue, toBigEndian_fromBigEndian] at hprefix
  rcases htext with rfl | rfl
  · rw [← hprefix, evmToBytes, evmToBytes, strip_of_isHex hhex, strip_hexPrefix]
  · exact hprefix

private theorem length_withLength_le (arity : Arity) {payload : ByteString}
    (h : payload.length < 2 ^ 64) :
    (withLength arity payload).length ≤ payload.length + 9 := by
  have hsize := length_sizeBytes_le h
  rw [withLength, prefixLength]
  split
  · simp
  · simp
    omega

private theorem length_encodeSingle_le {item : ByteString} (h : item.length < 2 ^ 64) :
    (encodeSingle item).length ≤ item.length + 9 := by
  rcases encodeSingle_cases item with hitem | ⟨b, -, rfl, hitem⟩ <;> rw [hitem]
  · exact length_withLength_le _ h
  · simp

private theorem length_flatMap_encodeSingle_le
    (h : (items.map fun item => item.length + 9).sum < 2 ^ 64) :
    (items.flatMap encodeSingle).length ≤ (items.map fun item => item.length + 9).sum := by
  induction items with
  | nil => simp
  | cons item rest ih =>
    rw [map_cons, sum_cons] at h
    have hitem := length_encodeSingle_le (show item.length < 2 ^ 64 by omega)
    have hrest := ih (by omega)
    rw [flatMap_cons, length_append, map_cons, sum_cons]
    omega

/-- Headers take at most nine bytes each. -/
theorem length_encode_le (h : (items.map fun item => item.length + 9).sum < 2 ^ 64) :
    (Rlp.encode items).length ≤ (items.map fun item => item.length + 9).sum + 9 := by
  have hitems := length_flatMap_encodeSingle_le h
  have hlist := length_withLength_le .multiple (hitems.trans_lt h)
  exact hlist.trans (by omega)

/-- A signed transaction is not too long. -/
theorem length_signed_encode (ht : t.Fits) (hto : t.to_.length ≤ 20)
    (hdata : t.data.length < 2 ^ 31) : t.encode.length < 2 ^ 64 := by
  have hnonce := length_sizeBytes_le ht.1
  have hv := length_sizeBytes_le ht.2
  have hwords : ∀ w : Word, (toByteString w).length ≤ 32 := length_toByteString_le
  have hgasPrice := hwords t.gasPrice
  have hgas := hwords t.gas
  have hvalue := hwords t.value
  have hr := hwords t.r
  have hs := hwords t.s
  have hsum : (t.items.map fun item => item.length + 9).sum < 2 ^ 32 := by
    simp only [items, EthereumTransaction.callItems, cons_append,
      nil_append, map_cons, map_nil, sum_cons, sum_nil]
    omega
  have hle := length_encode_le (hsum.trans (by norm_num))
  exact hle.trans_lt (by omega)

private theorem toWord_encodeOptionalAddress (h : a.toNat < 2 ^ 160) :
    toWord (encodeOptionalAddress (some a)) = .ok a := by
  have hlength : (encodeOptionalAddress (some a)).length ≤ 32 := by simp [encodeOptionalAddress]
  rw [toWord, if_neg (Nat.not_lt.mpr hlength), word, encodeOptionalAddress,
    fromBigEndian_toBigEndian, Nat.mod_eq_of_lt (by omega), BitVec.ofNat_toNat, BitVec.setWidth_eq]
  rfl

private theorem length_encodeOptionalAddress_le (to_ : Option Address) :
    (encodeOptionalAddress to_).length ≤ 20 := by
  cases to_ <;> simp [encodeOptionalAddress]

private theorem toTransactionCall_ofCall (nonce : Nat) {call : MessageCall}
    (hto : ∀ a ∈ call.to_, a.toNat < 2 ^ 160) (hdata : HexText bytes call.data) (sender : Address) :
    (EthereumTransaction.ofCall nonce call).toTransactionCall sender =
      .ok { call with from_ := sender, data := toHexString bytes } := by
  have hbytes : (EthereumTransaction.ofCall nonce call).data = bytes := evmToBytes_of_hexText hdata
  have hitem : (EthereumTransaction.ofCall nonce call).to_ = encodeOptionalAddress call.to_ := rfl
  rw [EthereumTransaction.toTransactionCall, hbytes]
  cases h : call.to_ with
  | none =>
    rw [if_pos (by rw [hitem, h]; rfl)]
    rfl
  | some a =>
    have hne : encodeOptionalAddress (some a) ≠ [] := by
      rw [← length_pos_iff]
      simp [encodeOptionalAddress]
    rw [hitem, h, if_neg hne, toWord_encodeOptionalAddress (hto a h)]
    rfl

/-- A raw signature is made of two words. -/
theorem wordBytes_append_of_length {raw : ByteString} (h : raw.length = 64) :
    wordBytes (wordOfBytes raw) ++ wordBytes (wordOfBytes (raw.drop 32)) = raw := by
  have hfirst : wordOfBytes raw = wordOfBytes (raw.take 32) := by
    rw [wordOfBytes, wordOfBytes, take_take, Nat.min_self]
  rw [hfirst, wordBytes_wordOfBytes (by simp [h]), wordBytes_wordOfBytes (by simp [h]),
    take_append_drop]

/-- The sender is found from the key that the signature yields. -/
theorem getSenderAddress_of_recovered (hrec : fromEthereumRecoveryId c t.v = .ok recId)
    (hkey : pf.recoverKey recId (wordBytes t.r ++ wordBytes t.s) (t.toBeSigned c false) =
      some key) :
    t.getSenderAddress c pf = getAddressFromPublicKey key := by
  simp only [getSenderAddress, hrec, bind, Except.bind, hkey]

/-- The signed transaction that `sign_transaction` makes with the chain id. -/
theorem exists_signTransaction {kp : KeyPair} (hkp : kp.Recovers pf) (hc : 1 ≤ c) (hc' : c ≤ 2 ^ 62)
    (tx : EthereumTransaction) :
    ∃ t : SignedTransaction, signTransaction c kp tx true = .ok t ∧ t.toEthereumTransaction = tx ∧
      t.v < 2 ^ 64 ∧ t.getSenderAddress c pf = .ok kp.address := by
  have hdigest : (tx.toBeSignedWithChainId c).length = 32 := length_keccak256 _
  obtain ⟨raw, recId, hsign, hraw, hrec, hrecover⟩ := hkp _ hdigest
  have hsig : RecoverableSignature.ofBytes (kp.signHash (tx.toBeSignedWithChainId c)) =
      ⟨raw, recId.toNat⟩ := by
    simp [RecoverableSignature.ofBytes, hsign, ← hraw]
  refine ⟨{ tx with
    v := recId.toNat + c * 2 + 35, r := wordOfBytes raw, s := wordOfBytes (raw.drop 32) },
    ?_, rfl, ?_, ?_⟩
  · rw [signTransaction, if_pos rfl, hsig, ofSignature, toEthereumRecoveryId_eq hc hc' hrec]
    rfl
  · change recId.toNat + c * 2 + 35 < 2 ^ 64
    omega
  · rw [← getAddressFromPublicKey_publicKeyRaw]
    apply getSenderAddress_of_recovered
    · exact fromEthereumRecoveryId_eip155 hc hrec
    · rw [toBeSigned, isPreEip155_eq_false, if_neg (by simp), wordBytes_append_of_length hraw]
      exact hrecover

/-- Outbound transactions are read as what was signed. -/
theorem ofBytes_signEthTx {pf : Platform} {kp : KeyPair} (hkp : kp.Recovers pf) {c : Nat}
    (hc : 1 ≤ c) (hc' : c ≤ 2 ^ 62) {nonce : Nat} (hnonce : nonce < 2 ^ 64) {call : MessageCall}
    (hto : ∀ a ∈ call.to_, a.toNat < 2 ^ 160) {bytes : ByteString}
    (hdata : HexText bytes call.data) (hlength : bytes.length < 2 ^ 31) (beyond : Nat → UInt8) :
    ∃ raw t, signEthTx c kp call nonce = .ok raw ∧ ofBytes raw beyond = .ok t ∧
      t.nonce = nonce ∧ t.gasPrice = call.gasPrice ∧ t.gas = call.gas ∧
        t.to_ = encodeOptionalAddress call.to_ ∧ t.value = call.value ∧ t.data = bytes ∧
          t.getSenderAddress c pf = .ok kp.address ∧ t.toTransactionCall c pf =
              .ok { call with from_ := kp.address, data := toHexString bytes } := by
  obtain ⟨t, hsign, htx, hv, hsender⟩ :=
    exists_signTransaction hkp hc hc' (EthereumTransaction.ofCall nonce call)
  have hbytes : t.data = bytes := by
    rw [htx]
    exact evmToBytes_of_hexText hdata
  have hfits : t.Fits := ⟨by rw [htx]; exact hnonce, hv⟩
  have htoLength : t.to_.length ≤ 20 := by
    rw [htx]
    exact length_encodeOptionalAddress_le _
  have hcopied : t.Copied := ⟨by omega, by rw [hbytes]; omega⟩
  have hshort := length_signed_encode hfits htoLength (by rwa [hbytes])
  refine ⟨t.encode, t, ?_, ofBytes_encode hfits hcopied hshort beyond, ?_⟩
  · rw [signEthTx, hsign]
    rfl
  · have hcall := toTransactionCall_ofCall nonce hto hdata 0
    rw [htx]
    refine ⟨rfl, rfl, rfl, rfl, rfl, by rw [← hbytes, htx], hsender, ?_⟩
    rw [toTransactionCall, htx, hcall, hsender]
    rfl

/-- A key pair that signs a digest by writing the key behind it. -/
def echoPair (key : ByteString) : KeyPair where
  point := key ++ key
  signHash digest := digest ++ key ++ [0]

/-- A platform on which a signature yields the key behind the digest, and none for another
digest. -/
def echoPlatform : Platform :=
  { Platform.mute with
    recoverKey := fun recId signature digest =>
      if recId = 0 ∧ signature.take 32 = digest then
        some (echoPair (signature.drop 32)).publicKeyRaw
      else none }

/-- The key pair of the key of ones. -/
def fixedPair : KeyPair := echoPair (List.replicate 32 1)

/-- What was signed yields the key. -/
theorem recoverKey_echoPlatform {digest : ByteString} (hdigest : digest.length = 32)
    (key : ByteString) :
    echoPlatform.recoverKey 0 (digest ++ key) digest = some (echoPair key).publicKeyRaw := by
  simp [echoPlatform, ← hdigest]

/-- A call of address 5 with one byte of data. -/
def oneByteCall : MessageCall :=
  { from_ := 0, to_ := some 5, gas := 3, gasPrice := 2, value := 1, data := [48, 120, 48, 97] }

/-- A signed sample call is read back, with its sender. -/
theorem ofBytes_signEthTx_fixedPair : ∃ raw t, signEthTx 1 fixedPair oneByteCall 7 = .ok raw ∧
      ofBytes raw (fun _ => 0) = .ok t ∧ t.nonce = 7 ∧ t.data = [10] ∧
        t.getSenderAddress 1 echoPlatform = .ok fixedPair.address := by
  have hkp : fixedPair.Recovers echoPlatform := by
    intro digest hdigest
    exact ⟨digest ++ List.replicate 32 1, 0, rfl, by simp [hdigest], by decide,
      recoverKey_echoPlatform hdigest _⟩
  have hto : ∀ a ∈ oneByteCall.to_, a.toNat < 2 ^ 160 := by
    rintro a ⟨⟩
    decide
  have hdata : HexText [10] oneByteCall.data := ⟨[48, 97], by decide, rfl, rfl, .inr rfl⟩
  obtain ⟨raw, t, hsign, hparse, hnonce, -, -, -, -, hbytes, hsender, -⟩ :=
    ofBytes_signEthTx hkp (c := 1) (by decide) (by decide) (show 7 < 2 ^ 64 by decide) hto hdata
      (by decide) fun _ => 0
  exact ⟨raw, t, hsign, hparse, hnonce, hbytes, hsender⟩

/-- How a transaction is signed: without the chain id, or with it. -/
inductive Scheme where
  | legacy
  | eip155
  deriving DecidableEq, Repr

namespace Scheme

/-- What is signed. -/
def digest (c : Nat) (tx : EthereumTransaction) : Scheme → ByteString
  | legacy => keccak256 (Rlp.encode tx.callItems)
  | eip155 => keccak256 (Rlp.encode (tx.callItems ++ [sizeBytes c, [], []]))

/-- How the recovery id is written. -/
def v (c recId : Nat) : Scheme → Nat
  | legacy => 27 + recId
  | eip155 => 35 + 2 * c + recId

/-- The transaction with its signature. -/
def signed (scheme : Scheme) (c : Nat) (tx : EthereumTransaction) (recId : Nat) (r s : Word) :
    SignedTransaction :=
  { tx with v := scheme.v c recId, r := r, s := s }

end Scheme

/-- The order of the curve. -/
def curveOrder : Nat := 0xfffffffffffffffffffffffffffffffebaaedce6af48a03bbfd25e8cd0364141

/-- Two digests stand for the same number modulo the order of the curve. -/
def SameScalar (digest digest' : ByteString) : Prop :=
  fromBigEndian digest % curveOrder = fromBigEndian digest' % curveOrder

instance (digest digest' : ByteString) : Decidable (SameScalar digest digest') :=
  inferInstanceAs (Decidable (_ = _))

/-- One signature yields the same key for two digests exactly if they are the same scalar. -/
def EcdsaRecovery (pf : Platform) : Prop :=
  ∀ recId signature digest digest' key, digest.length = 32 → digest'.length = 32 →
    pf.recoverKey recId signature digest = some key →
      (pf.recoverKey recId signature digest' = some key ↔ SameScalar digest digest')

/-- The digest over all nine items yields another key, which has the same address by chance. -/
def AddressCollision (pf : Platform) (t : SignedTransaction) (recId : Nat) (point : ByteString) :
    Prop :=
  ∃ other, other ≠ point ∧
    pf.recoverKey recId (wordBytes t.r ++ wordBytes t.s) (keccak256 t.encode) =
      some (0x04 :: other) ∧
    addressOfDigest (keccak256 other) = addressOfDigest (keccak256 point)

private theorem getAddressFromPublicKey_eq_ok : getAddressFromPublicKey key = .ok a ↔
      ∃ point, key = 0x04 :: point ∧ addressOfDigest (keccak256 point) = a := by
  rw [getAddressFromPublicKey.eq_def]
  split
  next point => simp [pure, Except.pure]
  next hother =>
    constructor
    · intro h
      cases h
    · rintro ⟨point, rfl, -⟩
      exact absurd rfl (hother point)

private theorem getSenderAddress_eq_ok (hrec : fromEthereumRecoveryId c t.v = .ok recId) :
    t.getSenderAddress c pf = .ok a ↔
      ∃ point, pf.recoverKey recId (wordBytes t.r ++ wordBytes t.s) (t.toBeSigned c false) =
        some (0x04 :: point) ∧ addressOfDigest (keccak256 point) = a := by
  cases hkey : pf.recoverKey recId (wordBytes t.r ++ wordBytes t.s) (t.toBeSigned c false) with
  | none =>
    simp [getSenderAddress, hrec, bind, Except.bind, hkey]
  | some key =>
    rw [getSenderAddress_of_recovered hrec hkey, getAddressFromPublicKey_eq_ok]
    simp

/-- Without the chain id the signature is part of the digest. -/
theorem toBeSigned_legacy (c : Nat) (tx : EthereumTransaction) (hrec : recId ≤ 1) (r s : Word) :
    (Scheme.legacy.signed c tx recId r s).toBeSigned c false =
      keccak256 (Scheme.legacy.signed c tx recId r s).encode := by
  rw [toBeSigned, Scheme.signed, Scheme.v, isPreEip155_legacy hrec]
  rfl

/-- With the chain id the sender is the key that signed. Without it the code takes another digest,
and finds that key only if the digests are the same scalar or the addresses collide. -/
theorem getSenderAddress_signed_iff {pf : Platform} (hpf : EcdsaRecovery pf) {c : Nat}
    (hc : 1 ≤ c) (scheme : Scheme) (tx : EthereumTransaction) (r s : Word) {recId : Nat}
    (hrec : recId ≤ 1) {point : ByteString}
    (hsig : pf.recoverKey recId (wordBytes r ++ wordBytes s) (scheme.digest c tx) =
      some (0x04 :: point)) : (scheme.signed c tx recId r s).getSenderAddress c pf =
        .ok (addressOfDigest (keccak256 point)) ↔ scheme = .eip155 ∨
        SameScalar (scheme.digest c tx) (keccak256 (scheme.signed c tx recId r s).encode) ∨
          AddressCollision pf (scheme.signed c tx recId r s) recId point := by
  cases scheme with
  | eip155 =>
    have hv : (Scheme.eip155.signed c tx recId r s).v = recId + c * 2 + 35 := by
      simp only [Scheme.signed, Scheme.v]
      omega
    have hfrom : fromEthereumRecoveryId c (Scheme.eip155.signed c tx recId r s).v = .ok recId := by
      rw [hv, fromEthereumRecoveryId_eip155 hc hrec]
    have hdigest : (Scheme.eip155.signed c tx recId r s).toBeSigned c false =
        Scheme.eip155.digest c tx := by
      rw [toBeSigned, hv, isPreEip155_eq_false]
      rfl
    rw [getSenderAddress_eq_ok hfrom, hdigest]
    exact iff_of_true ⟨point, hsig, rfl⟩ (.inl rfl)
  | legacy =>
    have hfrom : fromEthereumRecoveryId c (Scheme.legacy.signed c tx recId r s).v = .ok recId :=
      fromEthereumRecoveryId_legacy c hrec
    have hlaw := hpf _ _ _ (keccak256 (Scheme.legacy.signed c tx recId r s).encode) _
      (length_keccak256 _) (length_keccak256 _) hsig
    rw [getSenderAddress_eq_ok hfrom, toBeSigned_legacy c tx hrec]
    constructor
    · rintro ⟨other, hother, haddress⟩
      by_cases hpoint : other = point
      · subst hpoint
        exact .inr (.inl (hlaw.mp hother))
      · exact .inr (.inr ⟨other, hpoint, hother, haddress⟩)
    · rintro (h | hsame | ⟨other, -, hother, haddress⟩)
      · cases h
      · exact ⟨point, hlaw.mpr hsame, rfl⟩
      · exact ⟨other, hother, haddress⟩

/-- A transaction without any content. -/
def blankTx : EthereumTransaction :=
  { nonce := 0, gasPrice := 0, gas := 0, to_ := [], value := 0, data := [] }

/-- The signature yields a key for one digest only. -/
def oneDigestPlatform (signedDigest : ByteString) : Platform :=
  { Platform.mute with
    recoverKey := fun _ _ digest =>
      if SameScalar signedDigest digest then some fixedPair.publicKeyRaw else none }

private theorem recoverKey_oneDigestPlatform (signedDigest : ByteString) (recId : Nat)
    (signature : ByteString) :
    (oneDigestPlatform signedDigest).recoverKey recId signature signedDigest =
      some fixedPair.publicKeyRaw :=
  if_pos rfl

private theorem sameScalar_of_recoverKey {signedDigest signature digest : ByteString}
    (h : (oneDigestPlatform signedDigest).recoverKey recId signature digest = some key) :
    SameScalar signedDigest digest := by
  simp only [oneDigestPlatform] at h
  split at h
  next hsame => exact hsame
  next => cases h

private theorem ecdsaRecovery_oneDigestPlatform (signedDigest : ByteString) :
    EcdsaRecovery (oneDigestPlatform signedDigest) := by
  intro recId signature digest digest' key _ _ hkey
  have hsame := sameScalar_of_recoverKey hkey
  have hiff : SameScalar signedDigest digest' ↔ SameScalar digest digest' := by
    rw [SameScalar, SameScalar, show _ = _ from hsame]
  simp only [oneDigestPlatform, if_pos hsame] at hkey ⊢
  cases hkey
  simp [hiff]

/-- With the chain id, who signed the blank transaction is found. -/
theorem getSenderAddress_eip155_blankTx : (Scheme.eip155.signed 1 blankTx 0 1 1).getSenderAddress 1
        (oneDigestPlatform (Scheme.eip155.digest 1 blankTx)) = .ok fixedPair.address := by
  have hpf := ecdsaRecovery_oneDigestPlatform (Scheme.eip155.digest 1 blankTx)
  have hsig := recoverKey_oneDigestPlatform (Scheme.eip155.digest 1 blankTx) 0
    (wordBytes 1 ++ wordBytes 1)
  exact (getSenderAddress_signed_iff hpf (by decide) .eip155 blankTx 1 1 (by decide) hsig).mpr
    (.inl rfl)

set_option maxRecDepth 100000 in
private theorem not_sameScalar_blankTx : ¬ SameScalar (Scheme.legacy.digest 1 blankTx)
      (keccak256 (Scheme.legacy.signed 1 blankTx 0 1 1).encode) := by
  simp only [Scheme.digest, Tee.keccak256, Keccak.keccak256_eq_digest]
  decide +kernel

/-- The key that signed a transaction without the chain id is not found. -/
theorem legacy_sender_not_found :
    EcdsaRecovery (oneDigestPlatform (Scheme.legacy.digest 1 blankTx)) ∧
      (oneDigestPlatform (Scheme.legacy.digest 1 blankTx)).recoverKey 0
          (wordBytes 1 ++ wordBytes 1) (Scheme.legacy.digest 1 blankTx) =
        some fixedPair.publicKeyRaw ∧ (Scheme.legacy.signed 1 blankTx 0 1 1).getSenderAddress 1
          (oneDigestPlatform (Scheme.legacy.digest 1 blankTx)) ≠ .ok fixedPair.address := by
  refine ⟨ecdsaRecovery_oneDigestPlatform _, recoverKey_oneDigestPlatform _ _ _, ?_⟩
  rw [Ne, getSenderAddress_eq_ok (fromEthereumRecoveryId_legacy 1 (by decide)),
    toBeSigned_legacy 1 blankTx (by decide)]
  rintro ⟨point, hpoint, -⟩
  exact not_sameScalar_blankTx (sameScalar_of_recoverKey hpoint)

end CloakBridge.Evm
