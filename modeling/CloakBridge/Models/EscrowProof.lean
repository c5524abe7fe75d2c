import CloakBridge.Core.KeccakRows
import CloakBridge.Models.Service.EscrowFlow
import CloakBridge.Models.Tee.EscrowHandshake

/-!
# The escrow proof on both sides

`StateFactory.updateProof` stores the hash of the logic contract's code hash followed by
the 20 bytes of the implementation address. The enclave hashes the code it was given and
the bytes of `config.state` without leading zeros.
-/

namespace CloakBridge

open Service Tee StateFactory Web3Operation

private theorem wordOfBytes_inj {x y : ByteString} (hx : x.length = 32) (hy : y.length = 32) :
    wordOfBytes x = wordOfBytes y ↔ x = y := by
  constructor
  · intro h
    rw [← wordBytes_wordOfBytes hx, h, wordBytes_wordOfBytes hy]
  · rintro rfl
    rfl

/-- The bytes that the chain hashes for an address. -/
def packedAddress (s : Service.Address) : ByteString := (wordBytes (s.setWidth 256)).drop 12

/-- Both sides write an address the same way iff its first byte is not zero. -/
theorem toByteString_eq_packedAddress (s : Service.Address) :
    toByteString (s.setWidth 256) = packedAddress s ↔ 2 ^ 152 ≤ s.toNat := by
  have hs : (s.setWidth 256).toNat = s.toNat := by
    rw [BitVec.toNat_setWidth]
    exact Nat.mod_eq_of_lt (by omega)
  have htwenty : significantBytes s.toNat = 20 ↔ 2 ^ 152 ≤ s.toNat := by
    rw [significantBytes_eq_twenty]
    exact and_iff_left s.isLt
  rw [← htwenty]
  constructor
  · intro h
    have hlength := congrArg List.length h
    rw [length_toByteString, hs] at hlength
    simpa [packedAddress] using hlength
  · intro h
    rw [toByteString, packedAddress, hs, h]

/-- The enclave's hash of a code is the right one for codes below 64 KiB, up to a collision. -/
theorem keccak256_eq_iff (code : ByteString) : Tee.keccak256 code = Keccak.keccak256 code ↔
      code.length < 2 ^ 16 ∨ Keccak.Collides (code.take (code.length % 2 ^ 16)) code := by
  rw [Tee.keccak256, Keccak.keccak256_eq_iff, List.take_eq_self_iff]
  have hle : code.length ≤ code.length % 2 ^ 16 ↔ code.length < 2 ^ 16 := by omega
  rw [hle]

/-- The bytes that the enclave hashes. -/
def enclavePreimage (code : ByteString) (s : Service.Address) : ByteString :=
  Tee.keccak256 code ++ toByteString (s.setWidth 256)

/-- The bytes that the chain hashes. -/
def chainPreimage (code : ByteString) (s : Service.Address) : ByteString :=
  Keccak.keccak256 code ++ packedAddress s

private theorem escrowDigest_eq (code : ByteString) (s : Service.Address) :
    escrowDigest code (s.setWidth 256) = Keccak.keccak256 (enclavePreimage code s) := by
  rw [escrowDigest, enclavePreimage]
  apply keccak256_of_lt
  have hle : significantBytes (BitVec.setWidth 256 s).toNat ≤ 32 := by
    rw [significantBytes_le_iff]
    exact (BitVec.setWidth 256 s).isLt
  rw [List.length_append, Tee.length_keccak256, length_toByteString]
  omega

private theorem escrowProof_eq (code : ByteString) (s : Service.Address) :
    escrowProof (wordOfBytes (Keccak.keccak256 code)) s =
      wordOfBytes (Keccak.keccak256 (chainPreimage code s)) := by
  rw [escrowProof, wordBytes_wordOfBytes (Keccak.length_keccak256 _)]
  rfl

/-- The proof that `updateProof` stores for a contract with the given code is the one that the
enclave computes iff the code is below 64 KiB and the first byte of the address is not zero, up to
collisions of Keccak-256. -/
theorem storedProof_eq_escrowDigest_iff (d : Deployment) (w w' : Service.World)
    (self account s : Service.Address) (code : ByteString)
    (hcode : d.extcodehash (w.ledger.code account) = wordOfBytes (Keccak.keccak256 code))
    (hstate : w.ledger.addressAt self implementationSlot = s)
    (h : updateProof d self account w = .ok () w') : w'.ledger.storage self Service.proofSlot =
        wordOfBytes (escrowDigest code (s.setWidth 256)) ↔
      (code.length < 2 ^ 16 ∨ Keccak.Collides (code.take (code.length % 2 ^ 16)) code) ∧
          2 ^ 152 ≤ s.toNat ∨ Keccak.Collides (chainPreimage code s) (enclavePreimage code s) := by
  have hstored : w'.ledger.storage self Service.proofSlot =
      wordOfBytes (Keccak.keccak256 (chainPreimage code s)) := by
    rw [updateProof_ok (c := ⟨0, 0, self⟩) h, World.storage_write, if_pos rfl, Deployment.proofOf,
      hcode, hstate, escrowProof_eq]
  have hpreimage : chainPreimage code s = enclavePreimage code s ↔ Tee.keccak256 code =
      Keccak.keccak256 code ∧ toByteString (s.setWidth 256) = packedAddress s := by
    rw [chainPreimage, enclavePreimage]
    constructor
    · intro heq
      obtain ⟨hhash, haddress⟩ := List.append_inj heq (by simp)
      exact ⟨hhash.symm, haddress.symm⟩
    · rintro ⟨hhash, haddress⟩
      rw [hhash, haddress]
  rw [hstored, escrowDigest_eq,
    wordOfBytes_inj (Keccak.length_keccak256 _) (Keccak.length_keccak256 _),
    Keccak.keccak256_eq_iff, hpreimage, keccak256_eq_iff, toByteString_eq_packedAddress]

/-- A deployment in which every code has the hash of the code `[0]`. -/
def proofDeployment : Deployment :=
  ⟨0x100, 0x101, 0x102, 1, fun _ =>
    0xbc36789e7a1e281436464229828f817d6612f7b477d66591ff96a9e064bcc98a⟩

/-- Account 8 runs `StateFactory`, which is at the given address, and account 7 is a contract. -/
def proofWorld (state : Service.Address) : Service.World where
  ledger :=
    { code := fun a => if a = 7 then .foreign 0 else .absent
      storage := fun a slot => if a = 8 ∧ slot = implementationSlot then state.setWidth 256 else 0
      escrows := fun _ => ⟨0, false⟩
      factoryOwner := 0
      destroyed := [] }
  log := []

set_option maxRecDepth 100000 in
private theorem codehash_zero : wordOfBytes (Keccak.keccak256 [0]) =
    0xbc36789e7a1e281436464229828f817d6612f7b477d66591ff96a9e064bcc98a := by
  rw [Keccak.keccak256_eq_digest]
  decide +kernel

set_option maxRecDepth 100000 in
private theorem escrowProof_one : escrowProof
    0xbc36789e7a1e281436464229828f817d6612f7b477d66591ff96a9e064bcc98a 1 =
      0x6cbfaa44e35e12e74f47502d39c01dccc158fc9f2bbc8eaa12190ad280fef87d := by
  rw [escrowProof, Keccak.keccak256_eq_digest]
  decide +kernel

private theorem proofWorld_run {state : Service.Address}
    (hstate : (proofWorld state).ledger.addressAt 8 implementationSlot = state)
    (hproof : escrowProof
      0xbc36789e7a1e281436464229828f817d6612f7b477d66591ff96a9e064bcc98a state ≠ 0) :
    updateProof proofDeployment 8 7 (proofWorld state) =
      .ok () ((proofWorld state).write 8 Service.proofSlot (escrowProof
        0xbc36789e7a1e281436464229828f817d6612f7b477d66591ff96a9e064bcc98a state)) := by
  simp only [updateProof, generateEscrowProof, State.setProofHash,
    bind_assoc, getAddressSlot_bind, code_bind, require_bind, pure_bind]
  have hcode : proofDeployment.extcodehash ((proofWorld state).ledger.code 7) =
      0xbc36789e7a1e281436464229828f817d6612f7b477d66591ff96a9e064bcc98a := rfl
  rw [hcode, hstate]
  exact ⟨by decide, hproof, rfl⟩

set_option maxRecDepth 100000 in
private theorem escrowProof_long : escrowProof
    0xbc36789e7a1e281436464229828f817d6612f7b477d66591ff96a9e064bcc98a (2 ^ 159) ≠ 0 := by
  rw [escrowProof, Keccak.keccak256_eq_digest]
  decide +kernel

/-- The enclave accepts the proof for an address without leading zeros. -/
theorem storedProof_long :
    ∃ w', updateProof proofDeployment 8 7 (proofWorld (2 ^ 159)) = .ok () w' ∧
      w'.ledger.storage 8 Service.proofSlot = wordOfBytes
        (escrowDigest [0] (BitVec.setWidth 256 (2 ^ 159 : Service.Address))) := by
  have hstate : (proofWorld (2 ^ 159)).ledger.addressAt 8 implementationSlot = 2 ^ 159 := by
    decide +kernel
  have hrun := proofWorld_run hstate escrowProof_long
  refine ⟨_, hrun, (storedProof_eq_escrowDigest_iff proofDeployment (proofWorld (2 ^ 159)) _ 8 7 _
    [0] codehash_zero.symm hstate hrun).mpr (Or.inl ⟨Or.inl (by decide), ?_⟩)⟩
  decide +kernel

set_option maxRecDepth 100000 in
private theorem keccak256_enclave : Keccak.keccak256
    (wordBytes 0xbc36789e7a1e281436464229828f817d6612f7b477d66591ff96a9e064bcc98a ++ [1]) ≠
      wordBytes 0x6cbfaa44e35e12e74f47502d39c01dccc158fc9f2bbc8eaa12190ad280fef87d := by
  rw [Keccak.keccak256_eq_digest]
  decide +kernel

/-- For an address with leading zeros the enclave rejects the proof that the chain has stored. -/
theorem storedProof_ne_escrowDigest :
    ∃ w', updateProof proofDeployment 8 7 (proofWorld 1) = .ok () w' ∧
      proofDeployment.extcodehash ((proofWorld 1).ledger.code 7) =
        wordOfBytes (Keccak.keccak256 [0]) ∧
      (proofWorld 1).ledger.addressAt 8 implementationSlot = 1 ∧
      w'.ledger.storage 8 Service.proofSlot ≠
        wordOfBytes (escrowDigest [0] (BitVec.setWidth 256 (1 : Service.Address))) := by
  have hstate : (proofWorld 1).ledger.addressAt 8 implementationSlot = 1 := by decide
  refine ⟨_, proofWorld_run hstate (by rw [escrowProof_one]; decide), codehash_zero.symm, hstate,
    ?_⟩
  have hcode : Tee.keccak256 [0] =
      wordBytes 0xbc36789e7a1e281436464229828f817d6612f7b477d66591ff96a9e064bcc98a := by
    rw [keccak256_of_lt (by decide), ← codehash_zero,
      wordBytes_wordOfBytes (Keccak.length_keccak256 _)]
  have haddress : toByteString (BitVec.setWidth 256 (1 : Service.Address)) = [1] := by decide
  rw [World.storage_write, if_pos rfl, escrowProof_one, escrowDigest_eq, enclavePreimage, hcode,
    haddress]
  intro heq
  apply keccak256_enclave
  rw [heq, wordBytes_wordOfBytes (Keccak.length_keccak256 _)]

end CloakBridge
