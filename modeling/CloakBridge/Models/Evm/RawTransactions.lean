import CloakBridge.Models.Evm.RlpItems
import CloakBridge.Models.Evm.Transaction

/-!
# Which raw transactions are accepted

The constructor takes every list of nine items or more whose numbers are short enough, and
the items may end behind the input. A transaction that was encoded is read back from its
encoding alone. Every other accepted input is written differently, or depends on what lies
behind it.
-/

namespace CloakBridge.Evm

open Tee Rlp

namespace SignedTransaction

/-- The fields of type `size_t` have 64 bits. -/
def Fits (t : SignedTransaction) : Prop := t.nonce < 2 ^ 64 ∧ t.v < 2 ^ 64

instance (t : SignedTransaction) : Decidable t.Fits := instDecidableAnd

/-- The items that are byte strings can be copied by the loop of `from_bytes`. -/
def Copied (t : SignedTransaction) : Prop := t.to_.length < 2 ^ 32 ∧ t.data.length < 2 ^ 32

instance (t : SignedTransaction) : Decidable t.Copied := instDecidableAnd

/-- The input is read as nine items that are short enough. -/
def Accepted (raw : ByteString) (beyond : Nat → UInt8) : Prop :=
  ∃ items, Reads kinds raw beyond items

variable {raw : ByteString} {beyond : Nat → UInt8} {t : SignedTransaction}

/-- An item of nine bytes or more is no `size_t`, and one of 33 no `uint256_t`. -/
private theorem accepts_kinds {nonce gasPrice gas to_ value data v r s : ByteString} :
    List.Forall₂ (fun kind item => Kind.Accepts kind item.length) kinds
        [nonce, gasPrice, gas, to_, value, data, v, r, s] ↔
      nonce.length ≤ 8 ∧ gasPrice.length ≤ 32 ∧ gas.length ≤ 32 ∧ to_.length < 2 ^ 32 ∧
        value.length ≤ 32 ∧ data.length < 2 ^ 32 ∧ v.length ≤ 8 ∧ r.length ≤ 32 ∧
          s.length ≤ 32 := by
  simp [kinds, Kind.Accepts]

/-- The constructor reads nine items and converts them. -/
theorem ofBytes_eq_ok : ofBytes raw beyond = .ok t ↔ ∃ nonce gasPrice gas to_ value data v r s,
        Reads kinds raw beyond [nonce, gasPrice, gas, to_, value, data, v, r, s] ∧
          t = { nonce := fromBigEndian nonce, gasPrice := word gasPrice, gas := word gas,
                to_ := to_, value := word value, data := data, v := fromBigEndian v,
                r := word r, s := word s } := by
  rw [ofBytes, except_bind_eq_ok]
  constructor
  · rintro ⟨items, hdecode, hfields⟩
    have hreads := decode_eq_ok.mp hdecode
    match items, hreads.length_eq with
    | [nonce, gasPrice, gas, to_, value, data, v, r, s], _ =>
      cases hfields
      exact ⟨nonce, gasPrice, gas, to_, value, data, v, r, s, hreads, rfl⟩
  · rintro ⟨nonce, gasPrice, gas, to_, value, data, v, r, s, hreads, rfl⟩
    exact ⟨_, decode_eq_ok.mpr hreads, rfl⟩

/-- What was encoded is read back, whatever lies behind it. -/
theorem ofBytes_encode (ht : t.Fits) (hcopied : t.Copied) (hlength : t.encode.length < 2 ^ 64)
    (beyond : Nat → UInt8) : ofBytes t.encode beyond = .ok t := by
  have hkinds := accepts_kinds.mpr ⟨length_sizeBytes_le ht.1, length_toByteString_le t.gasPrice,
    length_toByteString_le t.gas, hcopied.1, length_toByteString_le t.value, hcopied.2,
    length_sizeBytes_le ht.2, length_toByteString_le t.r, length_toByteString_le t.s⟩
  have hnonce := fromBigEndian_sizeBytes (n := t.nonce) (ht.1.trans (by norm_num))
  have hv := fromBigEndian_sizeBytes (n := t.v) (ht.2.trans (by norm_num))
  refine ofBytes_eq_ok.mpr ⟨_, _, _, _, _, _, _, _, _, reads_encode hkinds beyond hlength, ?_⟩
  simp only [hnonce, hv, word_toByteString]

private theorem fits_of_ofBytes (h : ofBytes raw beyond = .ok t) : t.Fits ∧ t.Copied := by
  obtain ⟨nonce, gasPrice, gas, to_, value, data, v, r, s, hreads, rfl⟩ := ofBytes_eq_ok.mp h
  obtain ⟨hnonce, -, -, hto, -, hdata, hv, -⟩ := accepts_kinds.mp hreads.accepts
  have hsize : ∀ {bytes : ByteString}, bytes.length ≤ 8 → fromBigEndian bytes < 2 ^ 64 := by
    intro bytes hle
    calc fromBigEndian bytes < 256 ^ bytes.length := fromBigEndian_lt bytes
      _ ≤ 256 ^ 8 := Nat.pow_le_pow_right (by omega) hle
      _ = 2 ^ 64 := by norm_num
  exact ⟨⟨hsize hnonce, hsize hv⟩, hto, hdata⟩

private theorem accepted_iff : Accepted raw beyond ↔ ∃ t, ofBytes raw beyond = .ok t := by
  constructor
  · rintro ⟨items, hreads⟩
    match items, hreads.length_eq with
    | [nonce, gasPrice, gas, to_, value, data, v, r, s], _ =>
      exact ⟨_, ofBytes_eq_ok.mpr ⟨nonce, gasPrice, gas, to_, value, data, v, r, s, hreads, rfl⟩⟩
  · rintro ⟨t, ht⟩
    obtain ⟨_, _, _, _, _, _, _, _, _, hreads, -⟩ := ofBytes_eq_ok.mp ht
    exact ⟨_, hreads⟩

/-- Only the decoder can keep the constructor from returning. -/
theorem ofBytes_eq_endless : ofBytes raw beyond = .error .endless ↔ HangsOn kinds raw beyond := by
  rw [ofBytes, except_bind_eq_error, ← decode_eq_endless, or_iff_left_iff_imp]
  rintro ⟨items, -, hfields⟩
  split at hfields <;> cases hfields

/-- The constructor throws, or what it reads is written back as the whole input and does not depend
on what lies behind it; the hash that the client gets is then that of the input. A loop that does
not end is neither. -/
def StrictAndSafe (chainId : Nat) (raw : ByteString) (beyond : Nat → UInt8) : Prop :=
  (∃ e, e ≠ .endless ∧ ofBytes raw beyond = .error e) ∨
    ∃ t, (∀ beyond', ofBytes raw beyond' = .ok t) ∧ t.encode = raw ∧
      t.toBeSigned chainId true = keccak256 raw

private theorem toBeSigned_true (chainId : Nat) (t : SignedTransaction) :
    t.toBeSigned chainId true = keccak256 t.encode := by
  simp [toBeSigned]

/-- Of the inputs on which the constructor returns, those are handled strictly that are encodings.
Among the inputs that are handled strictly no two denote the same transaction. -/
theorem strictAndSafe_iff (chainId : Nat) {raw : ByteString} (hlength : raw.length < 2 ^ 64)
    (beyond : Nat → UInt8) : (StrictAndSafe chainId raw beyond ↔
      ¬Accepted raw beyond ∧ ¬HangsOn kinds raw beyond ∨
        ∃ t : SignedTransaction, t.Fits ∧ t.Copied ∧ t.encode = raw) ∧
    ∀ raw' beyond' t, StrictAndSafe chainId raw beyond → StrictAndSafe chainId raw' beyond' →
      ofBytes raw beyond = .ok t → ofBytes raw' beyond' = .ok t → raw = raw' := by
  constructor
  · rw [accepted_iff, ← ofBytes_eq_endless]
    constructor
    · rintro (⟨e, hne, he⟩ | ⟨t, ht, hencode, -⟩)
      · left
        rw [he]
        exact ⟨fun ⟨t, ht⟩ => (by cases ht), fun h => hne (Except.error.inj h)⟩
      · obtain ⟨hfits, hcopied⟩ := fits_of_ofBytes (ht beyond)
        exact .inr ⟨t, hfits, hcopied, hencode⟩
    · rintro (⟨hrejected, hends⟩ | ⟨t, hfits, hcopied, rfl⟩)
      · cases h : ofBytes raw beyond with
        | error e => exact .inl ⟨e, fun he => hends (he ▸ h), h⟩
        | ok t => exact absurd ⟨t, h⟩ hrejected
      · exact .inr ⟨t, ofBytes_encode hfits hcopied hlength, rfl, toBeSigned_true chainId t⟩
  · have hencode : ∀ {raw beyond t}, StrictAndSafe chainId raw beyond →
        ofBytes raw beyond = .ok t → t.encode = raw := by
      rintro raw beyond t (⟨e, -, he⟩ | ⟨t', ht', hraw, -⟩) ht
      · rw [he] at ht
        cases ht
      · rw [ht' beyond] at ht
        cases ht
        exact hraw
    intro raw' beyond' t hraw hraw' ht ht'
    exact (hencode hraw ht).symm.trans (hencode hraw' ht')

/-- A transaction without any content. -/
def blank : SignedTransaction :=
  { nonce := 0, gasPrice := 0, gas := 0, to_ := [], value := 0, data := [], v := 0, r := 0, s := 0 }

/-- The blank transaction is handled strictly. -/
theorem strictAndSafe_blank :
    blank.encode.length < 2 ^ 64 ∧ StrictAndSafe currentChainId blank.encode (fun _ => 0) := by
  have hlength : blank.encode.length < 2 ^ 64 := by decide +kernel
  have hstrict := strictAndSafe_iff currentChainId hlength fun _ => 0
  exact ⟨hlength, hstrict.1.mpr (.inr ⟨blank, by decide, by decide, rfl⟩)⟩

/-- A list of one byte, which announces an item of two bytes. -/
def overrun : ByteString := [0xc1, 0x82]

/-- All nine items are read from behind the input. -/
theorem overrun_not_strict : ofBytes overrun (fun _ => 0) ≠ ofBytes overrun (fun _ => 1) ∧
      ¬ StrictAndSafe currentChainId overrun (fun _ => 0) := by
  let t : SignedTransaction :=
    { nonce := 0, gasPrice := 0, gas := 0, to_ := [0], value := 0, data := [0], v := 0, r := 0,
      s := 0 }
  have hzero : ofBytes overrun (fun _ => 0) = .ok t := by decide +kernel
  constructor
  · rw [hzero]
    intro h
    have hone : (ofBytes overrun fun _ => 1).toOption.map (·.nonce) = some 257 := by
      decide +kernel
    rw [← h] at hone
    cases hone
  · rintro (⟨e, -, he⟩ | ⟨t', ht, hencode, -⟩)
    · rw [hzero] at he
      cases he
    · have hsame := (ht fun _ => 0).symm.trans hzero
      cases hsame
      have hne : t.encode ≠ overrun := by decide +kernel
      exact hne hencode

end SignedTransaction

end CloakBridge.Evm
