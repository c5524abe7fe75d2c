import CloakBridge.Models.Tee.EscrowHandshake

/-!
# The fields of an escrow message

A `Web3Msg::escrow` message carries a contract and one more number, both as byte strings
without leading zeros. The host and the enclave read a fixed number of bytes from each: a
shorter number is read beyond its end, and of a longer one the leading bytes.
-/

namespace CloakBridge.Tee

/-- A `Web3Msg::escrow` message, in either direction. -/
structure EscrowMessage where
  status : EscrowStatus
  contract : ByteString
  params : ByteString
  deriving DecidableEq, Repr

namespace EscrowStatus

/-- The slot that is asked for. -/
def slot : EscrowStatus → Word
  | getCode => logicSlot
  | getProof => proofSlot

/-- The bytes of `params` that the enclave reads. -/
def replySize : EscrowStatus → Nat
  | getCode => 20
  | getProof => 32

/-- What the enclave should read: an address, or the whole word. -/
def replyValue : EscrowStatus → Word → Word
  | getCode, w => BitVec.ofNat 256 (w.toNat % 2 ^ 160)
  | getProof, w => w

end EscrowStatus

namespace EscrowMessage

/-- The messages of `contract_escrow` and of the `Methods::GetCode` handler. -/
def request (status : EscrowStatus) (contract : Address) : EscrowMessage :=
  ⟨status, toByteString contract, toByteString status.slot⟩

/-- The host's answer: the fields of the request with the word from `eth_getStorageAt`. -/
def reply (m : EscrowMessage) (result : Word) : EscrowMessage :=
  ⟨m.status, m.contract, toByteString result⟩

/-- The address and the slot that the host asks for. -/
def query (m : EscrowMessage) (beyondContract beyondParams : Beyond) : Address × Word :=
  (readBigEndian 20 m.contract beyondContract, readBigEndian 32 m.params beyondParams)

/-- The address and the number that the enclave takes from an answer. -/
def answer (m : EscrowMessage) (beyondContract beyondParams : Beyond) : Address × Word :=
  (readBigEndian 20 m.contract beyondContract,
    readBigEndian m.status.replySize m.params beyondParams)

/-- The handshake sends these messages. -/
theorem contractEscrow_eq (contract : Address) : Web3Operation.contractEscrow contract =
      .escrow .getCode (request .getCode contract).contract (request .getCode contract).params :=
  rfl

end EscrowMessage

/-- The address `a` and the word `w` pass through a request and its answer, and nobody reads
beyond a field. -/
structure FieldsSurvive (status : EscrowStatus) (a : Address) (w : Word) : Prop where
  hostBounds : 20 ≤ (EscrowMessage.request status a).contract.length ∧
    32 ≤ (EscrowMessage.request status a).params.length
  host : ∀ beyondContract beyondParams,
    (EscrowMessage.request status a).query beyondContract beyondParams = (a, status.slot)
  enclaveBounds : 20 ≤ ((EscrowMessage.request status a).reply w).contract.length ∧
    status.replySize ≤ ((EscrowMessage.request status a).reply w).params.length
  enclave : ∀ beyondContract beyondParams,
    ((EscrowMessage.request status a).reply w).answer beyondContract beyondParams =
      (a, status.replyValue w)

/-- The word can be read back: all its 32 bytes for a proof; for a logic address at least 20 bytes,
of which the first 20 are the last 20. -/
def Readable : EscrowStatus → Word → Prop
  | .getCode, w => 2 ^ 152 ≤ w.toNat ∧
      w.toNat / 256 ^ (significantBytes w.toNat - 20) = w.toNat % 2 ^ 160
  | .getProof, w => 2 ^ 248 ≤ w.toNat

variable {size : Nat}

private theorem le_significantBytes_iff {n k : Nat} : k + 1 ≤ significantBytes n ↔ 256 ^ k ≤ n := by
  rw [Nat.succ_le_iff, ← not_le, significantBytes_le_iff, not_lt]

private theorem fromBigEndian_take (data : ByteString) (size : Nat) :
    fromBigEndian (data.take size) = fromBigEndian data / 256 ^ (data.length - size) := by
  have hsplit := fromBigEndian_append (data.take size) (data.drop size)
  have hlt : fromBigEndian (data.drop size) < 256 ^ (data.drop size).length := fromBigEndian_lt _
  rw [List.take_append_drop, List.length_drop] at hsplit
  rw [List.length_drop] at hlt
  rw [hsplit, Nat.mul_add_div (by positivity), Nat.div_eq_of_lt hlt, Nat.add_zero]

private theorem readBigEndian_of_le {data : ByteString} (h : size ≤ data.length) (beyond : Beyond) :
    readBigEndian size data beyond =
      BitVec.ofNat 256 (fromBigEndian data / 256 ^ (data.length - size)) := by
  rw [readBigEndian, List.take_append_of_le_length h, fromBigEndian_take]

private theorem readBigEndian_leading {n : Word} (h : size ≤ significantBytes n.toNat)
    (beyond : Beyond) :
    (readBigEndian size (toByteString n) beyond).toNat =
      n.toNat / 256 ^ (significantBytes n.toNat - size) := by
  rw [readBigEndian_of_le (by rwa [length_toByteString]), fromBigEndian_toByteString,
    length_toByteString, BitVec.toNat_ofNat]
  exact Nat.mod_eq_of_lt (Nat.lt_of_le_of_lt (Nat.div_le_self _ _) n.isLt)

private theorem significantBytes_le (w : Word) : significantBytes w.toNat ≤ 32 := by
  rw [significantBytes_le_iff]
  exact w.isLt

/-- The word is in bounds and read right exactly if it is readable. -/
theorem readable_iff (status : EscrowStatus) (w : Word) :
    Readable status w ↔ status.replySize ≤ (toByteString w).length ∧
      ∀ beyond, readBigEndian status.replySize (toByteString w) beyond = status.replyValue w := by
  rw [length_toByteString]
  cases status with
  | getCode =>
    have hlength : 20 ≤ significantBytes w.toNat ↔ 2 ^ 152 ≤ w.toNat :=
      le_significantBytes_iff (k := 19)
    have hlow : (BitVec.ofNat 256 (w.toNat % 2 ^ 160)).toNat = w.toNat % 2 ^ 160 := by
      rw [BitVec.toNat_ofNat]
      exact Nat.mod_eq_of_lt (Nat.lt_of_le_of_lt (Nat.mod_le _ _) w.isLt)
    change _ ↔ 20 ≤ _ ∧ ∀ beyond, readBigEndian 20 _ beyond = BitVec.ofNat 256 (w.toNat % 2 ^ 160)
    rw [hlength]
    refine and_congr_right fun hlong => ?_
    simp only [← BitVec.toNat_inj, readBigEndian_leading (hlength.mpr hlong), hlow, forall_const]
  | getProof =>
    have hlength : 32 ≤ significantBytes w.toNat ↔ 2 ^ 248 ≤ w.toNat :=
      le_significantBytes_iff (k := 31)
    change _ ↔ 32 ≤ _ ∧ ∀ beyond, readBigEndian 32 _ beyond = w
    rw [hlength]
    refine (and_iff_left_of_imp fun hlong beyond => ?_).symm
    have hle := significantBytes_le w
    have hge := hlength.mpr hlong
    exact readBigEndian_toByteString (by omega) beyond

private theorem significantBytes_slot (status : EscrowStatus) :
    significantBytes status.slot.toNat = 32 := by
  have hlong : 2 ^ 248 ≤ status.slot.toNat := by cases status <;> decide
  have hge : 32 ≤ significantBytes status.slot.toNat :=
    le_significantBytes_iff (k := 31) |>.mpr hlong
  have hle := significantBytes_le status.slot
  omega

/-- The fields survive exactly if the address has all its 20 bytes and the word is readable. -/
theorem fieldsSurvive_iff (status : EscrowStatus) (a : Address) (w : Word)
    (ha : a.toNat < 2 ^ 160) :
    FieldsSurvive status a w ↔ 2 ^ 152 ≤ a.toNat ∧ Readable status w := by
  have hsize : 20 ≤ (toByteString a).length ↔ 2 ^ 152 ≤ a.toNat := by
    rw [length_toByteString]
    exact le_significantBytes_iff (k := 19)
  have hreads : 2 ^ 152 ≤ a.toNat → ∀ beyond, readBigEndian 20 (toByteString a) beyond = a :=
    fun hlong beyond =>
      readBigEndian_toByteString (significantBytes_eq_twenty.mpr ⟨hlong, ha⟩) beyond
  have hslot := significantBytes_slot status
  rw [readable_iff]
  constructor
  · rintro ⟨hhost, -, henclave, hanswer⟩
    refine ⟨hsize.mp hhost.1, henclave.2, fun beyond => ?_⟩
    exact (Prod.mk.inj (hanswer beyond beyond)).2
  · rintro ⟨hlong, hbounds, hword⟩
    constructor
    case hostBounds => exact ⟨hsize.mpr hlong, (length_toByteString _).trans hslot ▸ le_rfl⟩
    case host =>
      intro beyondContract beyondParams
      exact Prod.ext (hreads hlong _) (readBigEndian_toByteString hslot _)
    case enclaveBounds => exact ⟨hsize.mpr hlong, hbounds⟩
    case enclave =>
      intro beyondContract beyondParams
      exact Prod.ext (hreads hlong _) (hword _)

/-- A long address, with a logic address of 20 bytes and with a proof of 32 bytes. -/
theorem fieldsSurvive_long :
    FieldsSurvive .getCode (2 ^ 159) (2 ^ 152) ∧ FieldsSurvive .getProof (2 ^ 159) (2 ^ 255) := by
  have hlong : 2 ^ 152 ≤ (2 ^ 159 : Address).toNat ∧ (2 ^ 159 : Address).toNat < 2 ^ 160 := by
    decide +kernel
  constructor
  · exact (fieldsSurvive_iff .getCode _ _ hlong.2).mpr
      ⟨hlong.1, by decide +kernel, by decide +kernel⟩
  · exact (fieldsSurvive_iff .getProof _ _ hlong.2).mpr ⟨hlong.1, by rw [Readable]; decide +kernel⟩

/-- The address `1` is sent as one byte, of which 20 are read. -/
theorem not_fieldsSurvive_one : (1 : Address).toNat < 2 ^ 160 ∧ ¬FieldsSurvive .getProof 1 1 := by
  refine ⟨by decide, fun h => ?_⟩
  have hbounds := h.hostBounds.1
  exact absurd hbounds (by decide +kernel)

end CloakBridge.Tee
