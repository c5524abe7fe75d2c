import CloakBridge.Models.Evm.Signing

/-!
# Signed policies and multi-party transactions

Policies and multi-party transactions reach the enclave as a list of items with a
signature behind them. The signature's `v` is computed from the chain id in 64 bits and
kept in 8. So large chain ids are refused, except where the cut `v` happens to be one that
stands for no chain id.
-/

namespace CloakBridge.Evm

open Tee Rlp List

/-- `SignatureAbstract` -/
structure SignatureAbstract where
  v : UInt8
  r : Word
  s : Word
  deriving DecidableEq, Repr

namespace SignatureAbstract

/-- The constructor from a recoverable signature. -/
def ofSignature (chainId : Nat) (sig : RecoverableSignature) : Except Error SignatureAbstract := do
  let v ← toEthereumRecoveryId chainId sig.recoveryId
  return { v := UInt8.ofNat v, r := wordOfBytes sig.raw, s := wordOfBytes (sig.raw.drop 32) }

/-- `getPublicKey` -/
def getPublicKey (chainId : Nat) (pf : Platform) (t : SignatureAbstract) (tbs : ByteString) :
    Except Error ByteString := do
  let recoveryId ← fromEthereumRecoveryId chainId t.v.toNat
  match pf.recoverKey recoveryId (wordBytes t.r ++ wordBytes t.s) tbs with
  | none => throw .invalidSignature
  | some pubKey => pure pubKey

/-- `signatureAndVerify` -/
def signatureAndVerify (chainId : Nat) (pf : Platform) (t : SignatureAbstract)
    (tbs : ByteString) : Except Error Address := do
  let pubKey ← t.getPublicKey chainId pf tbs
  getAddressFromPublicKey pubKey

/-- The items of the signature. -/
def items (t : SignatureAbstract) : List ByteString :=
  [sizeBytes t.v.toNat, toByteString t.r, toByteString t.s]

end SignatureAbstract

/-- What `to_be_signed` prescribes for items signed with `v`: the items, with the chain id unless
`v` stands for none. -/
def itemsToBeSigned (chainId : Nat) (v : UInt8) (items : List ByteString) : ByteString :=
  if isPreEip155 v.toNat then keccak256 (Rlp.encode items)
  else keccak256 (Rlp.encode (items ++ [sizeBytes chainId, [], []]))

/-- `PrivacyTransaction` -/
structure PrivacyTransaction where
  to_ : ByteString
  verifierAddr : ByteString
  codeHash : ByteString
  data : ByteString
  deriving DecidableEq, Repr

def PrivacyTransaction.items (t : PrivacyTransaction) : List ByteString :=
  [t.to_, t.verifierAddr, t.codeHash, t.data]

/-- The items can be copied by the loop of `from_bytes`. -/
def PrivacyTransaction.Copied (t : PrivacyTransaction) : Prop :=
  t.to_.length < 2 ^ 32 ∧ t.verifierAddr.length < 2 ^ 32 ∧ t.codeHash.length < 2 ^ 32 ∧
    t.data.length < 2 ^ 32

instance (t : PrivacyTransaction) : Decidable t.Copied := instDecidableAnd

/-- `PrivacyTransactionWithSignature` -/
structure PrivacyTransactionWithSignature extends SignatureAbstract, PrivacyTransaction
  deriving DecidableEq, Repr

namespace PrivacyTransactionWithSignature

/-- The constructor from an encoding. The number `v` is cut to a byte. -/
def ofBytes (encoded : ByteString) (beyond : Nat → UInt8) :
    Except Error PrivacyTransactionWithSignature := do
  match ← Rlp.decode [.bytes, .bytes, .bytes, .bytes, .number 8, .number 32, .number 32] encoded
    beyond with
  | [to_, verifierAddr, codeHash, data, v, r, s] =>
    return { to_, verifierAddr, codeHash, data
             v := UInt8.ofNat (fromBigEndian v)
             r := word r
             s := word s }
  | _ => throw .decodeError

/-- The constructor from a transaction and a signature. -/
def ofSignature (chainId : Nat) (tx : PrivacyTransaction) (sig : RecoverableSignature) :
    Except Error PrivacyTransactionWithSignature := do
  let signature ← SignatureAbstract.ofSignature chainId sig
  return { signature, tx with }

/-- `encode` -/
def encode (t : PrivacyTransactionWithSignature) : ByteString :=
  Rlp.encode (t.toPrivacyTransaction.items ++ t.toSignatureAbstract.items)

/-- `to_be_signed` -/
def toBeSigned (chainId : Nat) (t : PrivacyTransactionWithSignature) : ByteString :=
  itemsToBeSigned chainId t.v t.toPrivacyTransaction.items

/-- Encoded and read again the transaction is the same, and its signer is found. -/
def RoundTrips (chainId : Nat) (pf : Platform) (beyond : Nat → UInt8)
    (t : PrivacyTransactionWithSignature) (signer : Address) : Prop :=
  ∃ t', ofBytes t.encode beyond = .ok t' ∧ t' = t ∧
    t'.signatureAndVerify chainId pf (t'.toBeSigned chainId) = .ok signer

end PrivacyTransactionWithSignature

/-- `CloakTransaction` -/
structure CloakTransaction where
  nonce : Nat
  to_ : ByteString
  data : ByteString
  deriving DecidableEq, Repr

def CloakTransaction.items (t : CloakTransaction) : List ByteString :=
  [sizeBytes t.nonce, t.to_, t.data]

/-- The items that are byte strings can be copied by the loop of `from_bytes`. -/
def CloakTransaction.Copied (t : CloakTransaction) : Prop :=
  t.to_.length < 2 ^ 32 ∧ t.data.length < 2 ^ 32

/-- `CloakTransactionWithSignature` -/
structure CloakTransactionWithSignature extends SignatureAbstract, CloakTransaction
  deriving DecidableEq, Repr

namespace CloakTransactionWithSignature

/-- The constructor from an encoding. The number `v` is cut to a byte. -/
def ofBytes (encoded : ByteString) (beyond : Nat → UInt8) :
    Except Error CloakTransactionWithSignature := do
  match ← Rlp.decode [.number 8, .bytes, .bytes, .number 8, .number 32, .number 32] encoded
    beyond with
  | [nonce, to_, data, v, r, s] =>
    return { nonce := fromBigEndian nonce
             to_, data
             v := UInt8.ofNat (fromBigEndian v)
             r := word r
             s := word s }
  | _ => throw .decodeError

/-- The constructor from a transaction and a signature. -/
def ofSignature (chainId : Nat) (tx : CloakTransaction) (sig : RecoverableSignature) :
    Except Error CloakTransactionWithSignature := do
  let signature ← SignatureAbstract.ofSignature chainId sig
  return { signature, tx with }

/-- `encode` -/
def encode (t : CloakTransactionWithSignature) : ByteString :=
  Rlp.encode (t.toCloakTransaction.items ++ t.toSignatureAbstract.items)

/-- `to_be_signed` -/
def toBeSigned (chainId : Nat) (t : CloakTransactionWithSignature) : ByteString :=
  itemsToBeSigned chainId t.v t.toCloakTransaction.items

/-- Encoded and read again the transaction is the same, and its signer is found. -/
def RoundTrips (chainId : Nat) (pf : Platform) (beyond : Nat → UInt8)
    (t : CloakTransactionWithSignature) (signer : Address) : Prop :=
  ∃ t', ofBytes t.encode beyond = .ok t' ∧ t' = t ∧
    t'.signatureAndVerify chainId pf (t'.toBeSigned chainId) = .ok signer

end CloakTransactionWithSignature

/-! ### The cut `v` -/

/-- The chain ids whose `v` is read back: those it leaves whole, and those it cuts to 27 or 28. -/
def KeepsChainId (chainId recId : Nat) : Prop :=
  recId + 2 * chainId + 35 < 256 ∨ chainId % 128 = 124

variable {chainId recId : Nat} {v : Nat} {raw : ByteString} {pf : Platform} {kp : KeyPair}

private theorem exists_ofSignature (hrec : recId ≤ 1) (raw : ByteString) :
    ∃ v : UInt8, SignatureAbstract.ofSignature chainId ⟨raw, recId⟩ =
        .ok ⟨v, wordOfBytes raw, wordOfBytes (raw.drop 32)⟩ ∧
      v.toNat = if chainId = 0 then recId + 27 else (recId + 2 * chainId + 35) % 256 := by
  by_cases hc : chainId = 0
  · refine ⟨UInt8.ofNat (recId + 27), ?_, ?_⟩
    · rw [SignatureAbstract.ofSignature, toEthereumRecoveryId, if_neg (by simpa using hrec),
        if_pos hc]
      rfl
    · rw [if_pos hc, UInt8.toNat_ofNat']
      omega
  · refine ⟨UInt8.ofNat ((recId + chainId * 2 + 35) % 2 ^ 64), ?_, ?_⟩
    · rw [SignatureAbstract.ofSignature, toEthereumRecoveryId, if_neg (by simpa using hrec),
        if_neg hc]
      rfl
    · rw [if_neg hc, UInt8.toNat_ofNat']
      omega

/-- Where the chain id is kept, the recovery id is read back. -/
theorem fromEthereumRecoveryId_of_keeps (hrec : recId ≤ 1)
    (hv : v = if chainId = 0 then recId + 27 else (recId + 2 * chainId + 35) % 256)
    (h : KeepsChainId chainId recId) : fromEthereumRecoveryId chainId v = .ok recId := by
  by_cases hpre : chainId = 0 ∨ chainId % 128 = 124
  · have hlegacy : v = 27 + recId := by
      rw [hv]
      split
      · omega
      · omega
    rw [hlegacy, fromEthereumRecoveryId_legacy chainId hrec]
  · rcases h with h | h
    · have hwhole : v = recId + chainId * 2 + 35 := by
        rw [hv, if_neg (by omega), Nat.mod_eq_of_lt h]
        omega
      rw [hwhole, fromEthereumRecoveryId_eip155 (by omega) hrec]
    · exact absurd (.inr h) hpre

private theorem fromEthereumRecoveryId_of_not_keeps (hrec : recId ≤ 1)
    (hv : v = if chainId = 0 then recId + 27 else (recId + 2 * chainId + 35) % 256)
    (h : ¬KeepsChainId chainId recId) :
    fromEthereumRecoveryId chainId v = .error .invalidSignature := by
  rw [KeepsChainId, not_or] at h
  have hne : chainId ≠ 0 := by
    rintro rfl
    omega
  rw [if_neg hne] at hv
  have hpre : isPreEip155 v = false := by
    rw [isPreEip155, Bool.or_eq_false_iff, decide_eq_false_iff_not, decide_eq_false_iff_not]
    omega
  rw [fromEthereumRecoveryId, hpre, if_neg (by simp)]
  split
  · rfl
  · rw [if_pos]
    · rfl
    · omega

/-- The signer is found exactly where the chain id is kept. -/
theorem signatureAndVerify_iff (hrec : recId ≤ 1) {tbs : ByteString} (hraw : raw.length = 64)
    (hkey : pf.recoverKey recId raw tbs = some kp.publicKeyRaw) {t : SignatureAbstract}
    (ht : SignatureAbstract.ofSignature chainId ⟨raw, recId⟩ = .ok t) :
    t.signatureAndVerify chainId pf tbs = .ok kp.address ↔ KeepsChainId chainId recId := by
  obtain ⟨v, hv, hcut⟩ := exists_ofSignature hrec raw
  rw [hv] at ht
  cases ht
  constructor
  · intro h
    by_contra hnot
    simp only [SignatureAbstract.signatureAndVerify, SignatureAbstract.getPublicKey,
      fromEthereumRecoveryId_of_not_keeps hrec hcut hnot] at h
    cases h
  · intro h
    simp only [SignatureAbstract.signatureAndVerify, SignatureAbstract.getPublicKey,
      fromEthereumRecoveryId_of_keeps hrec hcut h, wordBytes_append_of_length hraw]
    change (match pf.recoverKey recId raw tbs with
      | none => throw Error.invalidSignature
      | some pubKey => pure pubKey) >>= getAddressFromPublicKey = _
    rw [hkey]
    exact getAddressFromPublicKey_publicKeyRaw kp

private theorem length_sizeBytes_byte_le (b : UInt8) : (sizeBytes b.toNat).length ≤ 8 :=
  length_sizeBytes_le (b.toNat_lt.trans (by norm_num))

/-- The items of a signature are short enough. -/
private theorem accepts_items (t : SignatureAbstract) :
    List.Forall₂ (fun kind item => Kind.Accepts kind item.length)
      [.number 8, .number 32, .number 32] t.items :=
  .cons (length_sizeBytes_byte_le t.v) (.cons (length_toByteString_le t.r)
    (.cons (length_toByteString_le t.s) .nil))

private theorem ofNat_sizeBytes (b : UInt8) :
    UInt8.ofNat (fromBigEndian (sizeBytes b.toNat)) = b := by
  rw [fromBigEndian_sizeBytes (b.toNat_lt.trans (by norm_num)), UInt8.ofNat_toNat]

namespace PrivacyTransactionWithSignature

/-- What was encoded is read back exactly if its items can be copied, whatever lies behind it. -/
theorem ofBytes_encode_iff (t : PrivacyTransactionWithSignature)
    (hlength : t.encode.length < 2 ^ 64) (beyond : Nat → UInt8) :
    ofBytes t.encode beyond = .ok t ↔ t.Copied := by
  constructor
  · intro h
    obtain ⟨items, hdecode, hfields⟩ := except_bind_eq_ok.mp h
    have haccepts := (decode_eq_ok.mp hdecode).accepts
    match items, haccepts.length_eq with
    | [to_, verifierAddr, codeHash, data, v, r, s], _ =>
      cases hfields
      simp only [List.forall₂_cons, Kind.Accepts] at haccepts
      exact ⟨haccepts.1, haccepts.2.1, haccepts.2.2.1, haccepts.2.2.2.1⟩
  · rintro ⟨hto, hverifier, hcode, hdata⟩
    have hkinds : List.Forall₂ (fun kind item => Kind.Accepts kind item.length)
        [.bytes, .bytes, .bytes, .bytes, .number 8, .number 32, .number 32]
        (t.toPrivacyTransaction.items ++ t.toSignatureAbstract.items) :=
      .cons hto (.cons hverifier (.cons hcode (.cons hdata (accepts_items t.toSignatureAbstract))))
    refine except_bind_eq_ok.mpr ⟨_, decode_eq_ok.mpr (reads_encode hkinds beyond hlength), ?_⟩
    simp only [PrivacyTransaction.items, SignatureAbstract.items, cons_append, nil_append,
      ofNat_sizeBytes, word_toByteString]
    rfl

/-- A policy that was signed round-trips exactly where the chain id is kept. -/
theorem roundTrips_iff (hrec : recId ≤ 1) (hraw : raw.length = 64) {tx : PrivacyTransaction}
    {t : PrivacyTransactionWithSignature} (ht : ofSignature chainId tx ⟨raw, recId⟩ = .ok t)
    (hlength : t.encode.length < 2 ^ 64)
    (hkey : pf.recoverKey recId raw (t.toBeSigned chainId) = some kp.publicKeyRaw)
    (beyond : Nat → UInt8) :
    t.RoundTrips chainId pf beyond kp.address ↔ KeepsChainId chainId recId ∧ tx.Copied := by
  obtain ⟨signature, hsignature, hpure⟩ := except_bind_eq_ok.mp ht
  cases hpure
  rw [← signatureAndVerify_iff hrec hraw hkey hsignature, ← ofBytes_encode_iff _ hlength beyond]
  constructor
  · rintro ⟨t', hbytes, rfl, hverify⟩
    exact ⟨hverify, hbytes⟩
  · rintro ⟨hverify, hbytes⟩
    exact ⟨_, hbytes, rfl, hverify⟩

end PrivacyTransactionWithSignature

namespace CloakTransactionWithSignature

/-- What was encoded is read back exactly if its items can be copied, whatever lies behind it. -/
theorem ofBytes_encode_iff (t : CloakTransactionWithSignature) (hnonce : t.nonce < 2 ^ 64)
    (hlength : t.encode.length < 2 ^ 64) (beyond : Nat → UInt8) :
    ofBytes t.encode beyond = .ok t ↔ t.Copied := by
  constructor
  · intro h
    obtain ⟨items, hdecode, hfields⟩ := except_bind_eq_ok.mp h
    have haccepts := (decode_eq_ok.mp hdecode).accepts
    match items, haccepts.length_eq with
    | [nonce, to_, data, v, r, s], _ =>
      cases hfields
      simp only [List.forall₂_cons, Kind.Accepts] at haccepts
      exact ⟨haccepts.2.1, haccepts.2.2.1⟩
  · rintro ⟨hto, hdata⟩
    have hkinds : List.Forall₂ (fun kind item => Kind.Accepts kind item.length)
        [.number 8, .bytes, .bytes, .number 8, .number 32, .number 32]
        (t.toCloakTransaction.items ++ t.toSignatureAbstract.items) :=
      .cons (length_sizeBytes_le hnonce) (.cons hto (.cons hdata (accepts_items _)))
    refine except_bind_eq_ok.mpr ⟨_, decode_eq_ok.mpr (reads_encode hkinds beyond hlength), ?_⟩
    simp only [CloakTransaction.items, SignatureAbstract.items, cons_append, nil_append,
      fromBigEndian_sizeBytes (hnonce.trans (by norm_num)), ofNat_sizeBytes, word_toByteString]
    rfl

/-- A multi-party transaction that was signed round-trips exactly where the chain id is kept. -/
theorem roundTrips_iff (hrec : recId ≤ 1) (hraw : raw.length = 64) {tx : CloakTransaction}
    (hnonce : tx.nonce < 2 ^ 64) {t : CloakTransactionWithSignature}
    (ht : ofSignature chainId tx ⟨raw, recId⟩ = .ok t) (hlength : t.encode.length < 2 ^ 64)
    (hkey : pf.recoverKey recId raw (t.toBeSigned chainId) = some kp.publicKeyRaw)
    (beyond : Nat → UInt8) :
    t.RoundTrips chainId pf beyond kp.address ↔ KeepsChainId chainId recId ∧ tx.Copied := by
  obtain ⟨signature, hsignature, hpure⟩ := except_bind_eq_ok.mp ht
  cases hpure
  rw [← signatureAndVerify_iff hrec hraw hkey hsignature,
    ← ofBytes_encode_iff _ hnonce hlength beyond]
  constructor
  · rintro ⟨t', hbytes, rfl, hverify⟩
    exact ⟨hverify, hbytes⟩
  · rintro ⟨hverify, hbytes⟩
    exact ⟨_, hbytes, rfl, hverify⟩

end CloakTransactionWithSignature

/-- The transactions that were signed: each is made of its signature, and once its digest yields
the signer's key, it round-trips with the signer exactly where the chain id is kept and its byte
strings can be copied. -/
theorem signed_roundTrips_iff (chainId recId : Nat) (hrec : recId ≤ 1) (raw : ByteString)
    (hraw : raw.length = 64) (pf : Platform) (kp : KeyPair) (beyond : Nat → UInt8) :
    (∀ tx : PrivacyTransaction,
      ∃ t, PrivacyTransactionWithSignature.ofSignature chainId tx ⟨raw, recId⟩ = .ok t ∧
        (t.encode.length < 2 ^ 64 →
          pf.recoverKey recId raw (t.toBeSigned chainId) = some kp.publicKeyRaw →
            (t.RoundTrips chainId pf beyond kp.address ↔
              (recId + 2 * chainId + 35 < 256 ∨ chainId % 128 = 124) ∧ tx.Copied))) ∧
    ∀ tx : CloakTransaction, tx.nonce < 2 ^ 64 →
      ∃ t, CloakTransactionWithSignature.ofSignature chainId tx ⟨raw, recId⟩ = .ok t ∧
        (t.encode.length < 2 ^ 64 →
          pf.recoverKey recId raw (t.toBeSigned chainId) = some kp.publicKeyRaw →
            (t.RoundTrips chainId pf beyond kp.address ↔
              (recId + 2 * chainId + 35 < 256 ∨ chainId % 128 = 124) ∧ tx.Copied)) := by
  obtain ⟨v, hv, -⟩ := exists_ofSignature hrec raw
  constructor
  · intro tx
    have ht : PrivacyTransactionWithSignature.ofSignature chainId tx ⟨raw, recId⟩ =
        .ok { tx with v := v, r := wordOfBytes raw, s := wordOfBytes (raw.drop 32) } := by
      rw [PrivacyTransactionWithSignature.ofSignature, hv]
      rfl
    refine ⟨_, ht, ?_⟩
    intro hlength hkey
    exact PrivacyTransactionWithSignature.roundTrips_iff hrec hraw ht hlength hkey beyond
  · intro tx hnonce
    have ht : CloakTransactionWithSignature.ofSignature chainId tx ⟨raw, recId⟩ =
        .ok { tx with v := v, r := wordOfBytes raw, s := wordOfBytes (raw.drop 32) } := by
      rw [CloakTransactionWithSignature.ofSignature, hv]
      rfl
    refine ⟨_, ht, ?_⟩
    intro hlength hkey
    exact CloakTransactionWithSignature.roundTrips_iff hrec hraw hnonce ht hlength hkey beyond

/-- A policy without any content. -/
def blankPolicy : PrivacyTransaction := ⟨[], [], [], []⟩

/-- The signature of the key of ones on the digest of the blank policy. -/
def blankSignature (chainId : Nat) (v : UInt8) : ByteString :=
  itemsToBeSigned chainId v blankPolicy.items ++ List.replicate 32 1

private theorem length_itemsToBeSigned (chainId : Nat) (v : UInt8) (items : List ByteString) :
    (itemsToBeSigned chainId v items).length = 32 := by
  rw [itemsToBeSigned]
  split <;> exact length_keccak256 _

private theorem length_blankSignature (chainId : Nat) (v : UInt8) :
    (blankSignature chainId v).length = 64 := by
  simp [blankSignature, length_itemsToBeSigned]

private theorem length_encode_blankPolicy (v : UInt8) (r s : Word) :
    (PrivacyTransactionWithSignature.encode { blankPolicy with v := v, r := r, s := s }).length <
      2 ^ 64 := by
  have hv := length_sizeBytes_byte_le v
  have hr := length_toByteString_le r
  have hs := length_toByteString_le s
  have hsum : ((blankPolicy.items ++ [sizeBytes v.toNat, toByteString r, toByteString s]).map
      fun item => item.length + 9).sum < 2 ^ 32 := by
    simp only [blankPolicy, PrivacyTransaction.items, cons_append, nil_append, map_cons,
      map_nil, sum_cons, sum_nil, length_nil]
    omega
  exact (length_encode_le (hsum.trans (by norm_num))).trans_lt (by omega)

/-- On the main net the blank policy round-trips. -/
theorem signed_roundTrips_mainnet :
    ∃ t, PrivacyTransactionWithSignature.ofSignature 1 blankPolicy ⟨blankSignature 1 37, 0⟩ =
        .ok t ∧ t.RoundTrips 1 echoPlatform (fun _ => 0) fixedPair.address := by
  obtain ⟨t, ht, hround⟩ := (signed_roundTrips_iff 1 0 (Nat.zero_le 1) (blankSignature 1 37)
    (length_blankSignature 1 37) echoPlatform fixedPair fun _ => 0).1 blankPolicy
  refine ⟨t, ht, (hround ?_ ?_).mpr ⟨.inl (by decide), by decide⟩⟩
  · cases ht
    exact length_encode_blankPolicy _ _ _
  · cases ht
    exact recoverKey_echoPlatform (length_itemsToBeSigned _ _ _) _

/-- The blank policy signed with the chain id 1337: `v` is cut from 2709 to 149, which stands for
the chain id 57. -/
def privateChainPolicy : PrivacyTransactionWithSignature :=
  { blankPolicy with v := 149, r := wordOfBytes (blankSignature 1337 149)
                     s := wordOfBytes ((blankSignature 1337 149).drop 32) }

/-- On the private chain it does not round-trip, although its key is found. -/
theorem not_roundTrips_privateChainPolicy :
    PrivacyTransactionWithSignature.ofSignature 1337 blankPolicy ⟨blankSignature 1337 149, 0⟩ =
        .ok privateChainPolicy ∧
      echoPlatform.recoverKey 0 (blankSignature 1337 149) (privateChainPolicy.toBeSigned 1337) =
        some fixedPair.publicKeyRaw ∧
      ¬privateChainPolicy.RoundTrips 1337 echoPlatform (fun _ => 0) fixedPair.address := by
  have ht : PrivacyTransactionWithSignature.ofSignature 1337 blankPolicy
      ⟨blankSignature 1337 149, 0⟩ = .ok privateChainPolicy := rfl
  have hkey : echoPlatform.recoverKey 0 (blankSignature 1337 149)
      (privateChainPolicy.toBeSigned 1337) = some fixedPair.publicKeyRaw :=
    recoverKey_echoPlatform (length_itemsToBeSigned _ _ _) _
  refine ⟨ht, hkey, ?_⟩
  rw [PrivacyTransactionWithSignature.roundTrips_iff (Nat.zero_le 1) (length_blankSignature _ _) ht
    (length_encode_blankPolicy _ _ _) hkey]
  simp [KeepsChainId]

end CloakBridge.Evm
