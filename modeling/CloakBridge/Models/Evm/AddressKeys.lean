import CloakBridge.Models.Evm.Requests

/-!
# Account keys are addresses

An address has 160 bits, a key of the account tables 256. Whatever the interpreter looks
up was cut to 160 bits. A key that is too large therefore comes from a request that names
one: as the account of a query or of an escrow, or as the sender of an `eth_call`.
-/

namespace CloakBridge.Evm

open Tee Kv

/-- The words that are addresses. -/
def addresses : Set Address := { a | a.toNat < 2 ^ 160 }

variable {a : Address} {r' : Regs} {pf : Platform} {m : Machine} {call : MessageCall}

private theorem mem_addresses : a ∈ addresses ↔ a.toNat < 2 ^ 160 := Iff.rfl

/-- The end of a digest is an address. -/
theorem addressOfDigest_mem (data : ByteString) : addressOfDigest (keccak256 data) ∈ addresses := by
  have hlt := fromBigEndian_lt ((keccak256 data).drop 12)
  rw [List.length_drop, length_keccak256] at hlt
  rw [mem_addresses, addressOfDigest, BitVec.toNat_ofNat]
  exact (Nat.mod_le _ _).trans_lt hlt

private theorem and_mask_mem (a : Word) : a &&& (2 ^ 160 - 1) ∈ addresses := by
  have hmask : (2 ^ 160 - 1 : Word).toNat = 2 ^ 160 - 1 := by decide +kernel
  rw [mem_addresses, BitVec.toNat_and, hmask]
  exact Nat.lt_of_le_of_lt Nat.and_le_right (by decide)

private theorem and_mask_of_mem {a : Word} (h : a ∈ addresses) : a &&& (2 ^ 160 - 1) = a := by
  have hmask : (2 ^ 160 - 1 : Word).toNat = 2 ^ 160 - 1 := by decide +kernel
  refine BitVec.eq_of_toNat_eq ?_
  rw [BitVec.toNat_and, hmask, Nat.and_two_pow_sub_one_eq_mod, Nat.mod_eq_of_lt h]

private theorem popAddr_cons (r : Regs) (val : Word) (st : List Word) :
    popAddr { r with stack := val :: st } = .ok (val &&& (2 ^ 160 - 1)) { r with stack := st } :=
  rfl

private theorem mem_of_popAddr {r : Regs} (h : popAddr r = .ok a r') : a ∈ addresses := by
  obtain ⟨val, r₁, -, h⟩ := bind_eq_ok.mp h
  rw [(pure_eq_ok.mp h).1]
  exact and_mask_mem val

private theorem mem_of_callArguments {kind : CallKind} {r : Regs} {args : CallArguments}
    (h : callArguments kind r = .ok args r') : args.addr ∈ addresses := by
  obtain ⟨_, r₁, -, h⟩ := bind_eq_ok.mp h
  obtain ⟨addr, r₂, haddr, h⟩ := bind_eq_ok.mp h
  have hrest : ∀ {value : Local Nat}, (do
      let value ← value
      let offIn ← pop64
      let sizeIn ← pop64
      let offOut ← pop64
      let sizeOut ← pop64
      pure (⟨addr, BitVec.ofNat 256 value, offIn, sizeIn, offOut, sizeOut⟩ : CallArguments)) r₂ =
        .ok args r' → args.addr ∈ addresses := by
    intro value h
    obtain ⟨value, r₃, -, h⟩ := bind_eq_ok.mp h
    obtain ⟨offIn, r₄, -, h⟩ := bind_eq_ok.mp h
    obtain ⟨sizeIn, r₅, -, h⟩ := bind_eq_ok.mp h
    obtain ⟨offOut, r₆, -, h⟩ := bind_eq_ok.mp h
    obtain ⟨sizeOut, r₇, -, h⟩ := bind_eq_ok.mp h
    rw [(pure_eq_ok.mp h).1]
    exact mem_of_popAddr haddr
  cases kind with
  | call | callcode | delegatecall | staticcall => exact hrest h

private theorem mem_of_creates {salted : Bool} (h : m.Creates pf salted a) : a ∈ addresses := by
  obtain ⟨c, args, r, m', -, -, hnew⟩ := h
  unfold createAddress at hnew
  cases salted with
  | true =>
    obtain ⟨salt, m₁, -, hnew⟩ := bind_eq_ok.mp hnew
    obtain ⟨w, hnew, -⟩ := inWorld_eq_ok.mp hnew
    obtain ⟨_, w₁, -, hnew⟩ := bind_eq_ok.mp hnew
    obtain ⟨_, w₂, -, hnew⟩ := bind_eq_ok.mp hnew
    rw [(pure_eq_ok.mp hnew).1]
    exact addressOfDigest_mem _
  | false =>
    obtain ⟨nonce, m₁, -, hnew⟩ := bind_eq_ok.mp hnew
    rw [(pure_eq_ok.mp hnew).1]
    exact addressOfDigest_mem _

/-- The interpreter names addresses only. -/
theorem mem_of_names (h : m.Names pf a) : a ∈ addresses := by
  obtain ⟨op, -, hnames⟩ := h
  cases op with
  | extcodesize | extcodecopy | extcodehash | balance | selfdestruct =>
    obtain ⟨c, r, -, hpop⟩ := hnames
    exact mem_of_popAddr hpop
  | create salted => exact mem_of_creates hnames
  | call kind =>
    obtain ⟨c, args, r, -, hargs, rfl⟩ := hnames
    exact mem_of_callArguments hargs
  | _ => exact hnames.elim

private theorem mem_of_publicKey {pubKey : ByteString}
    (h : getAddressFromPublicKey pubKey = .ok a) :
    a ∈ addresses := by
  unfold getAddressFromPublicKey at h
  split at h
  · cases h
    exact addressOfDigest_mem _
  · cases h

private theorem readBigEndian_mem (data : ByteString) (beyond : Beyond) :
    readBigEndian 20 data beyond ∈ addresses := by
  have hlt := fromBigEndian_lt ((data ++ (List.range 20).map beyond).take 20)
  have hlength : ((data ++ (List.range 20).map beyond).take 20).length = 20 := by simp
  rw [hlength] at hlt
  rw [mem_addresses, readBigEndian, BitVec.toNat_ofNat]
  exact (Nat.mod_le _ _).trans_lt hlt

private theorem mem_of_toTransactionCall {chainId : Nat} {t : SignedTransaction}
    (h : t.toTransactionCall chainId pf = .ok call) : call.from_ ∈ addresses := by
  obtain ⟨call', -, h⟩ := except_bind_eq_ok.mp h
  obtain ⟨sender, hsender, h⟩ := except_bind_eq_ok.mp h
  cases h
  obtain ⟨recoveryId, -, hsender⟩ := except_bind_eq_ok.mp hsender
  split at hsender
  · cases hsender
  · exact mem_of_publicKey hsender

/-- The accounts that the request names itself are addresses. -/
def Request.Addressed : Request → Prop
  | .query (.getBalance a blockId) | .query (.getTransactionCount a blockId) =>
    blockId = Endpoint.latest → a ∈ addresses
  | .query (.ethCall call) => call.to_ ≠ none → call.from_ ∈ addresses
  | .sendContractEscrow a => a ∈ addresses
  | .sendRawTransaction _ | .setContractKey _ | .multiPartyTransaction _ _
  | .escrowProof _ _ _ _ => True

private theorem mem_of_call {r : Request} {tick : Nat} (hr : r.Addressed)
    (h : r.call? pf = some (call, tick)) : call.from_ ∈ addresses := by
  cases r with
  | query q =>
    cases q with
    | ethCall call' =>
      obtain ⟨hto, heq⟩ := Option.ite_none_left_eq_some.mp h
      cases heq
      exact hr hto
    | getBalance a blockId => cases h
    | getTransactionCount a blockId => cases h
  | sendRawTransaction raw =>
    obtain ⟨-, ethTx, -, hcall⟩ := call?_sendRawTransaction.mp h
    exact mem_of_toTransactionCall hcall
  | setContractKey _ | sendContractEscrow _ | multiPartyTransaction _ _ | escrowProof _ _ _ _ =>
    cases h

private theorem mem_of_touches {s : Store} {r : Submission} (hr : r.request.Addressed)
    (h : Touches s r a) :
    a ∈ addresses := by
  cases h with
  | getBalance | getTransactionCount => exact hr rfl
  | sendContractEscrow => exact hr
  | multiPartyTransaction ha => exact mem_of_publicKey ha
  | escrowProof => exact readBigEndian_mem _ _
  | sender hcall => exact mem_of_call hr hcall
  | deployed => exact addressOfDigest_mem _
  | named _ _ _ hnames => exact mem_of_names hnames

/-- Every account with a row is one that the interpreter reaches under its address. -/
def AddressKeys (c : Contents) : Prop :=
  ∀ t k a, (c t k).isSome → t.owner k = some a → a.toNat < 2 ^ 160 ∧
    ∀ (r : Regs) (st : List Word),
      popAddr { r with stack := a :: st } = .ok a { r with stack := st }

private theorem addressKeys_iff {c : Contents} : AddressKeys c ↔ KeysIn addresses c := by
  constructor
  · intro h t k a hsome howner
    exact (h t k a hsome howner).1
  · intro h t k a hsome howner
    refine ⟨h t k a hsome howner, fun r st => ?_⟩
    rw [popAddr_cons, and_mask_of_mem (h t k a hsome howner)]

/-- As long as requests name addresses, all account keys are addresses. -/
theorem addressKeys_of_reaches (s₀ s : Store) (h₀ : AddressKeys s₀.content)
    (h : Reaches serve (fun _ r => r.request.Addressed) s₀ s) : AddressKeys s.content := by
  refine h.invariant (I := fun s => AddressKeys s.content) h₀ fun s₁ r s₂ h₁ hr hserve => ?_
  rw [addressKeys_iff] at h₁ ⊢
  exact keysIn_of_serve h₁ (fun a ha => mem_of_touches hr ha) hserve

private theorem addressKeys_empty : AddressKeys (balancesStore []).content := by
  intro t k a hsome
  cases t <;> cases hsome

/-- The balance of account `7` is asked for. -/
theorem addressKeys_after_query :
    ∃ s, Reaches serve (fun _ r => r.request.Addressed) (balancesStore []) s ∧
      (s.content .balances 7).isSome ∧ AddressKeys s.content := by
  have hrun : Reaches serve (fun _ r => r.request.Addressed) (balancesStore []) _ :=
    .tail .refl (a := balanceRequest 7) (fun _ => mem_addresses.mpr (by decide)) rfl
  exact ⟨_, hrun, by decide +kernel, addressKeys_of_reaches _ _ addressKeys_empty hrun⟩

/-- The balance of an account beyond 160 bits is asked for. -/
theorem not_addressKeys_after_query :
    ∃ s, Reachable serve (balancesStore []) s ∧ ¬AddressKeys s.content := by
  have hrun : Reachable serve (balancesStore []) _ :=
    .tail .refl (a := balanceRequest (2 ^ 160)) trivial rfl
  refine ⟨_, hrun, fun h => ?_⟩
  have hlt := (h .balances (2 ^ 160) (2 ^ 160) (by decide +kernel) rfl).1
  revert hlt
  decide +kernel

end CloakBridge.Evm
