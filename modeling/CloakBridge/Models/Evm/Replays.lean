import CloakBridge.Core.KeccakRows
import CloakBridge.Models.Evm.NextContracts
import CloakBridge.Models.Evm.Signing

/-!
# Replayed transactions

The nonce of a raw transaction is signed, and read by nobody. So a transaction can be
submitted again, and is executed again. If every transaction carried the current nonce of
its sender, none could be.
-/

namespace CloakBridge.Evm

open Tee Kv SignedTransaction Abicoder Tables

/-- The sender and the nonce of a raw transaction. -/
def Submission.signed? (r : Submission) : Option (Address × Nat) :=
  match r.request with
  | .sendRawTransaction raw => do
    let ethTx ← (ofBytes (evmToBytes raw) (r.platform.heapBytes 0)).toOption
    let call ← (ethTx.toTransactionCall currentChainId r.platform).toOption
    pure (call.from_, ethTx.nonce)
  | _ => none

variable {r : Submission} {sender : Address} {nonce : Nat} {s s' : Store} {call : MessageCall}

private theorem Submission.call?_of_signed? (h : r.signed? = some (sender, nonce)) :
    ∃ call, r.request.call? r.platform = some (call, 1) ∧ call.from_ = sender := by
  obtain ⟨request, pf, fuel, version⟩ := r
  cases request with
  | sendRawTransaction raw =>
    obtain ⟨ethTx, hethTx, h⟩ := Option.bind_eq_some_iff.mp h
    obtain ⟨call, hcall, h⟩ := Option.bind_eq_some_iff.mp h
    cases h
    refine ⟨call, call?_sendRawTransaction.mpr ⟨rfl, ethTx, ?_, ?_⟩, rfl⟩
    · exact toOption_eq_some.mp hethTx
    · exact toOption_eq_some.mp hcall
  | query _ | setContractKey _ | sendContractEscrow _ | multiPartyTransaction _ _
  | escrowProof _ _ _ _ =>
    cases h

/-- The tables, with the senders and nonces of all raw transactions that were served. -/
structure Journal where
  store : Store
  served : List (Address × Nat)

/-- Serve a request, and write down the sender and the nonce of a raw transaction. -/
def Journal.serve (n : Journal) (r : Submission) : Option Journal :=
  (Evm.serve n.store r).map fun s => ⟨s, r.signed?.toList ++ n.served⟩

/-- The request has the current nonce of its sender, and the nonce after it is no smaller. -/
structure InSequence (s : Store) (r : Submission) : Prop where
  current : ∀ sender nonce, r.signed? = some (sender, nonce) →
    nonce = (nonceOf s.content sender).toNat
  counted : ∀ call tick, r.request.call? r.platform = some (call, tick) →
    (nonceOf s.content call.from_).toNat + 1 < 2 ^ 64

/-- A request counts for the sender of the call that it executes. -/
theorem nonceOf_sender_of_serve {tick : Nat} (h : serve s r = some s')
    (hcall : r.request.call? r.platform = some (call, tick))
    (hlt : (nonceOf s.content call.from_).toNat + 1 < 2 ^ 64) :
    (nonceOf s'.content call.from_).toNat = (nonceOf s.content call.from_).toNat + 1 := by
  have hnonce : nonceOf s'.content call.from_ =
      nonceOf s.content call.from_ + r.request.counts r.platform call.from_ := by
    refine nonceOf_of_serve h fun call' tick' hcall' hdeploys => ?_
    rw [hcall] at hcall'
    cases hcall'
    exact hdeploys.ne_sender rfl
  rw [hnonce, Request.counts_sender hcall, BitVec.toNat_add]
  exact Nat.mod_eq_of_lt hlt

/-- As long as nonces are counted, none becomes smaller. -/
theorem nonceOf_le_of_serve (h : serve s r = some s') (hseq : InSequence s r) (a : Address) :
    (nonceOf s.content a).toNat ≤ (nonceOf s'.content a).toNat := by
  refine BitVec.le_trans (le_counted fun call tick hcall hfrom => ?_) (counted_le_of_serve h a)
  exact hfrom ▸ hseq.counted call tick hcall

/-- Every nonce that was served is behind its sender, and none was served twice. -/
structure Journal.Spent (n : Journal) : Prop where
  nodup : n.served.Nodup
  lt : ∀ sender nonce, (sender, nonce) ∈ n.served →
    nonce < (nonceOf n.store.content sender).toNat

variable {n : Journal}

/-- A nonce that was served is never current again. -/
theorem Journal.Spent.not_inSequence (h : n.Spent) (hsigned : r.signed? = some (sender, nonce))
    (hserved : (sender, nonce) ∈ n.served) : ¬InSequence n.store r := by
  intro hseq
  have hcurrent := hseq.current sender nonce hsigned
  have hlt := h.lt sender nonce hserved
  omega

private theorem Journal.Spent.serve {n' : Journal} (h : n.Spent) (hseq : InSequence n.store r)
    (hserve : n.serve r = some n') : n'.Spent := by
  obtain ⟨s', hs', rfl⟩ := Option.map_eq_some_iff.mp hserve
  have hmono := nonceOf_le_of_serve hs' hseq
  cases hsigned : r.signed? with
  | none => exact ⟨h.nodup, fun sender nonce hmem => (h.lt sender nonce hmem).trans_le (hmono _)⟩
  | some pair =>
    obtain ⟨sender, nonce⟩ := pair
    have hnew : (sender, nonce) ∉ n.served := fun hmem => h.not_inSequence hsigned hmem hseq
    refine ⟨List.nodup_cons.mpr ⟨hnew, h.nodup⟩, fun sender' nonce' hmem => ?_⟩
    rcases List.mem_cons.mp hmem with heq | hmem
    · cases heq
      obtain ⟨call, hcall, rfl⟩ := Submission.call?_of_signed? hsigned
      have hcount := nonceOf_sender_of_serve hs' hcall (hseq.counted call 1 hcall)
      have hcurrent := hseq.current _ _ hsigned
      change nonce < (nonceOf s'.content call.from_).toNat
      omega
    · exact (h.lt sender' nonce' hmem).trans_le (hmono sender')

/-- As long as every transaction has the current nonce of its sender, no sender and nonce is served
twice, and none that was served can come again. -/
theorem spent_of_reaches (s₀ : Store) (n : Journal)
    (h : Reaches Journal.serve (fun n r => InSequence n.store r) ⟨s₀, []⟩ n) :
    n.served.Nodup ∧ ∀ r sender nonce, r.signed? = some (sender, nonce) →
      (sender, nonce) ∈ n.served → ¬InSequence n.store r := by
  have hspent : n.Spent := h.invariant (I := Journal.Spent) ⟨List.nodup_nil, by simp⟩
    fun _ _ _ hn hseq hserve => hn.serve hseq hserve
  exact ⟨hspent.nodup, fun _ _ _ hsigned hserved => hspent.not_inSequence hsigned hserved⟩

/-- A deployment with the nonce zero. -/
def deployment : EthereumTransaction where
  nonce := 0
  gasPrice := 0
  gas := 0
  to_ := []
  value := 0
  data := [0x00]

/-- The deployment, signed by the key of ones. -/
def signedDeployment : SignedTransaction where
  toEthereumTransaction := deployment
  v := 37
  r := wordOfBytes (deployment.toBeSignedWithChainId currentChainId)
  s := wordOfBytes (List.replicate 32 1)

/-- The deployment as it is submitted. -/
def deploymentRequest : Submission :=
  ⟨.sendRawTransaction (toHexString signedDeployment.encode), echoPlatform, 2, 1⟩

private theorem address_fixedPair :
    fixedPair.address = 0xf0207a0a3e31ae0839497a5ac6d4252dfc35577f := by
  rw [KeyPair.address, Tee.keccak256, Keccak.keccak256_eq_digest]
  decide +kernel

/-- The message call of the deployment. -/
def deploymentCall : MessageCall where
  from_ := 0xf0207a0a3e31ae0839497a5ac6d4252dfc35577f
  to_ := none
  gas := 0
  value := 0
  data := toHexString [0x00]

private theorem recoverKey_signedDeployment :
    echoPlatform.recoverKey 0 (wordBytes signedDeployment.r ++ wordBytes signedDeployment.s)
      (signedDeployment.toBeSigned currentChainId false) = some fixedPair.publicKeyRaw := by
  have hlength : (deployment.toBeSignedWithChainId currentChainId).length = 32 := length_keccak256 _
  have hdigest : signedDeployment.toBeSigned currentChainId false =
      deployment.toBeSignedWithChainId currentChainId := by
    rw [toBeSigned, if_neg (by decide)]
    rfl
  have hr : signedDeployment.r =
      wordOfBytes (deployment.toBeSignedWithChainId currentChainId) := rfl
  have hs : signedDeployment.s = wordOfBytes (List.replicate 32 1) := rfl
  rw [hdigest, hr, hs, wordBytes_wordOfBytes hlength, wordBytes_wordOfBytes List.length_replicate]
  exact recoverKey_echoPlatform hlength _

private theorem toTransactionCall_signedDeployment :
    signedDeployment.toTransactionCall currentChainId echoPlatform = .ok deploymentCall := by
  have hsender := getSenderAddress_of_recovered (c := currentChainId) (t := signedDeployment) rfl
    recoverKey_signedDeployment
  rw [getAddressFromPublicKey_publicKeyRaw, address_fixedPair] at hsender
  rw [toTransactionCall, hsender]
  rfl

private theorem ofBytes_signedDeployment :
    ofBytes (evmToBytes (toHexString signedDeployment.encode))
      (echoPlatform.heapBytes 0) = .ok signedDeployment := by
  have hfits : signedDeployment.Fits := by decide +kernel
  rw [evmToBytes_toHexString]
  exact ofBytes_encode hfits (by decide) (length_signed_encode hfits (by decide) (by decide)) _

private theorem call?_deploymentRequest :
    deploymentRequest.request.call? deploymentRequest.platform = some (deploymentCall, 1) :=
  call?_sendRawTransaction.mpr
    ⟨rfl, signedDeployment, ofBytes_signedDeployment, toTransactionCall_signedDeployment⟩

private theorem signed?_deploymentRequest :
    deploymentRequest.signed? = some (deploymentCall.from_, 0) := by
  have hdecoded : (ofBytes (evmToBytes
      (toHexString signedDeployment.encode)) (echoPlatform.heapBytes 0)).toOption =
        some signedDeployment := toOption_eq_some.mpr ofBytes_signedDeployment
  have hcalled : (signedDeployment.toTransactionCall currentChainId echoPlatform).toOption =
      some deploymentCall := toOption_eq_some.mpr toTransactionCall_signedDeployment
  rw [deploymentRequest, Submission.signed?]
  dsimp only
  rw [hdecoded, Option.bind_eq_bind, Option.bind_some, hcalled]
  rfl

private theorem serve_sendRawTransaction {pf : Platform} {fuel version : Nat} {raw : ByteString}
    {ethTx : SignedTransaction} (hethTx : ofBytes (evmToBytes raw) (pf.heapBytes 0) = .ok ethTx)
    (hcall : ethTx.toTransactionCall currentChainId pf = .ok call) (s : Store) :
    serve s ⟨.sendRawTransaction raw, pf, fuel, version⟩ =
      match EVMC.run pf fuel call (World.fresh (start s) 1) with
      | .ok txResult w => some ((w.tx.put .txResults
          (wordOfBytes (ethTx.toBeSigned currentChainId true)) txResult).commit version s)
      | .error _ _ => none := by
  have hask : Exec.ask pf.heapBytes (World.start s) =
      .ok (pf.heapBytes 0) (World.fresh (start s) 1) := rfl
  have hdecode : Endpoint.ofExcept (ofBytes (evmToBytes raw)
      (pf.heapBytes 0)) (World.fresh (start s) 1) =
        .ok ethTx (World.fresh (start s) 1) := by
    rw [hethTx]
    rfl
  have hread : Endpoint.ofExcept (ethTx.toTransactionCall currentChainId pf)
      (World.fresh (start s) 1) = .ok call (World.fresh (start s) 1) := by
    rw [hcall]
    rfl
  rw [serve, Request.handle, Endpoint.sendRawTransaction]
  simp only [bind_assoc]
  rw [bind_of_ok hask, bind_of_ok hdecode, bind_of_ok hread]
  cases hrun : EVMC.run pf fuel call (World.fresh (start s) 1) with
  | ok txResult w =>
    rw [bind_of_ok hrun]
    rfl
  | error e w => rw [bind_of_error hrun]

set_option maxRecDepth 100000 in
/-- The same transaction is served twice, and each time it deploys a contract. -/
theorem deployment_served_twice : ((serve (balancesStore []) deploymentRequest).bind fun s₁ =>
      (serve s₁ deploymentRequest).map fun s₂ =>
        (s₁.content .codes 0x883a1b0751367688002cb446085c55069aa5f530,
          s₂.content .codes 0x883a1b0751367688002cb446085c55069aa5f530)) =
            some (none, some []) := by
  have hserve (s : Store) : serve s deploymentRequest = _ :=
    serve_sendRawTransaction ofBytes_signedDeployment toTransactionCall_signedDeployment s
  simp only [EVMC.run, EVMC.runInEvm, EVMC.callee, generateAddress_eq_digest] at hserve
  simp only [hserve]
  decide +kernel

/-- A transaction that was served is served again, and takes effect again. -/
theorem replay_served : ∃ s₁ s₂, serve (balancesStore []) deploymentRequest = some s₁ ∧
      deploymentRequest.signed? = some (deploymentCall.from_, 0) ∧
      serve s₁ deploymentRequest = some s₂ ∧ s₂.content ≠ s₁.content := by
  obtain ⟨s₁, hfirst, hagain⟩ := Option.bind_eq_some_iff.mp deployment_served_twice
  obtain ⟨s₂, hsecond, hcodes⟩ := Option.map_eq_some_iff.mp hagain
  obtain ⟨hbefore, hafter⟩ := Prod.mk.inj hcodes
  refine ⟨s₁, s₂, hfirst, signed?_deploymentRequest, hsecond, fun hsame => ?_⟩
  rw [hsame, hbefore] at hafter
  cases hafter

private theorem inSequence_deploymentRequest : InSequence (balancesStore []) deploymentRequest where
  current sender nonce hsigned := by
    rw [signed?_deploymentRequest] at hsigned
    cases hsigned
    rfl
  counted call tick hcall := by
    rw [call?_deploymentRequest] at hcall
    cases hcall
    have hnonce : nonceOf (balancesStore []).content deploymentCall.from_ = 0 := rfl
    rw [hnonce]
    decide

/-- The deployment is served, and is out of sequence then. -/
theorem spent_after_deployment :
    ∃ s, Reaches Journal.serve (fun n r => InSequence n.store r) ⟨balancesStore [], []⟩
        ⟨s, [(deploymentCall.from_, 0)]⟩ ∧ ¬InSequence s deploymentRequest := by
  obtain ⟨s, hserve, -⟩ := Option.bind_eq_some_iff.mp deployment_served_twice
  have hrecord : Journal.serve ⟨balancesStore [], []⟩ deploymentRequest =
      some ⟨s, [(deploymentCall.from_, 0)]⟩ := by
    rw [Journal.serve, hserve, signed?_deploymentRequest]
    rfl
  have hrun : Reaches Journal.serve (fun n r => InSequence n.store r) ⟨balancesStore [], []⟩
      ⟨s, [(deploymentCall.from_, 0)]⟩ := .tail .refl inSequence_deploymentRequest hrecord
  exact ⟨s, hrun, (spent_of_reaches _ _ hrun).2 _ _ _ signed?_deploymentRequest (by simp)⟩

end CloakBridge.Evm
