import CloakBridge.Models.Evm.Confined

/-!
# Requests to the enclave, and the accounts they touch

Each request is handled in a transaction of its own, which is committed if the handler
returns. The last message of an escrow handshake, which installs a code, is handled the
same way. A request touches the accounts that it names, those of the message call it
executes and those that the execution names. No other account gets a row.
-/

namespace CloakBridge.Evm

open Tee Kv CloakBridge.Frame Tables

/-- What `cloak_sendRawMultiPartyTransaction` does to accounts: the check of the nonce, for the
sender that was recovered from the signature. -/
def Endpoint.checkNonce (pubKey : ByteString) (nonce : Nat) : Exec Unit := do
  let sender ← ofExcept (getAddressFromPublicKey pubKey)
  let accountState ← EthereumState.get sender
  let current ← accountState.getNonce
  Exec.throwIf (nonce < current.toNat) .badRequest

/-- The requests and messages that get at accounts. The escrow proof comes from the host, with the
code that the enclave holds for the contract. -/
inductive Request where
  | query (q : Query)
  | sendRawTransaction (raw : ByteString)
  | setContractKey (address : Address)
  | sendContractEscrow (address : Address)
  | multiPartyTransaction (pubKey : ByteString) (nonce : Nat)
  | escrowProof (contract : ByteString) (beyond : Beyond) (proof : Word) (code : ByteString)

/-- The handler of a request. -/
def Request.handle (pf : Platform) (fuel : Nat) : Request → Exec Unit
  | .query q => do
    let _ ← q.handle pf fuel
    pure ()
  | .sendRawTransaction raw => do
    let _ ← Endpoint.sendRawTransaction pf fuel raw
    pure ()
  | .setContractKey address => do
    let _ ← Endpoint.setContractKey pf address
    pure ()
  | .sendContractEscrow address => do
    let _ ← Endpoint.sendContractEscrow address
    pure ()
  | .multiPartyTransaction pubKey nonce => Endpoint.checkNonce pubKey nonce
  | .escrowProof contract beyond proof code => do
    let installed ← Web3Operation.installCode (readBigEndian 20 contract beyond) proof code
    -- without an installation the transaction is not committed
    Exec.throwIf (¬installed) .badRequest

/-- A request with what its handling depends on: the answers from outside, the fuel of the
interpreter, and the version of the commit. -/
structure Submission where
  request : Request
  platform : Platform
  fuel : Nat
  version : Nat

/-- Handle a request and commit; nothing happens if the handler throws. -/
def serve (s : Store) (a : Submission) : Option Store :=
  match a.request.handle a.platform a.fuel (World.start s) with
  | .ok _ w => some (w.tx.commit a.version s)
  | .error _ _ => none

variable {w w' : World} {G : Frame World} {proof : Word} {code raw : ByteString} {s s' : Store}
  {pf : Platform} {call : MessageCall} {tick fuel : Nat} {A : Set Address}

private theorem Endpoint.ofExcept_eq_ok {β : Type} {x : Except Error β} {b : β}
    (h : Endpoint.ofExcept x w = .ok b w') : x = .ok b ∧ w' = w := by
  cases x with
  | ok a =>
    obtain ⟨rfl, rfl⟩ := pure_eq_ok.mp h
    exact ⟨rfl, rfl⟩
  | error e => cases h

/-- Checking a nonce stays in the frame. -/
theorem Endpoint.keeps_checkNonce (hG : G.Lookups) (pubKey : ByteString) (nonce : Nat) :
    G.Keeps (Endpoint.checkNonce pubKey nonce) := by
  refine keeps_bind (Endpoint.keeps_ofExcept _) fun sender => ?_
  refine keeps_bind (hG.get sender) fun account => ?_
  exact keeps_bind (account.keeps_getNonce hG.reads) fun _ => keeps_throwIf _ _

/-- Installing a code stays in the frame if its writes do. -/
theorem Web3Operation.keeps_installCode {addr : Address} (hreads : G.Reads)
    (hget : G.Keeps (EthereumState.get addr)) (hlevel : G.Puts .levels) (hproof : G.Puts .proof)
    (hcode : ∀ p : AccountProxy, G.Keeps (p.setCode code)) :
    G.Keeps (Web3Operation.installCode addr proof code) := by
  refine keeps_bind hget fun account => ?_
  refine keeps_bind (account.keeps_hasCode hreads) fun hasCode => ?_
  refine keeps_ite (fun _ => keeps_pure _) fun _ => ?_
  refine keeps_bind (hlevel _ _) fun _ => ?_
  refine keeps_bind (hproof _ _) fun _ => ?_
  exact keeps_bind (hcode account) fun _ => keeps_pure _

/-- The tables that a request writes besides those of an execution. -/
def Request.sets : Request → List TableName
  | .setContractKey _ => [.encrypted, .levels]
  | .escrowProof _ _ _ _ => [.levels, .proof]
  | _ => []

/-- A handler does what executions do, and writes what it sets. -/
theorem Request.keeps_handle (hG : G.Executes) (hn : G.Puts .nonces) (hr : G.Puts .txResults)
    (pf : Platform) (fuel : Nat) (r : Request) (hsets : ∀ t ∈ r.sets, G.Puts t) :
    G.Keeps (r.handle pf fuel) := by
  cases r with
  | query q => exact keeps_bind (q.keeps_handle hG hn pf fuel) fun _ => keeps_pure _
  | sendRawTransaction raw =>
    refine keeps_bind ?_ fun _ => keeps_pure _
    exact Endpoint.keeps_sendRawTransaction hG pf fuel hn hr raw
  | setContractKey address =>
    refine keeps_bind ?_ fun _ => keeps_pure _
    exact Endpoint.keeps_setContractKey hG.reads (hG.get address)
      (hsets .encrypted (by simp [Request.sets])) (hsets .levels (by simp [Request.sets])) pf
  | sendContractEscrow address =>
    refine keeps_bind ?_ fun _ => keeps_pure _
    exact Endpoint.keeps_sendContractEscrow hG.reads (hG.get address)
  | multiPartyTransaction pubKey nonce => exact Endpoint.keeps_checkNonce hG.toLookups pubKey nonce
  | escrowProof contract beyond proof code =>
    refine keeps_bind ?_ fun _ => keeps_throwIf _ _
    exact Web3Operation.keeps_installCode hG.reads (hG.get _)
      (hsets .levels (by simp [Request.sets])) (hsets .proof (by simp [Request.sets]))
      fun p => hG.setCode p code

private theorem Request.keeps_origin (pf : Platform) (fuel : Nat) (r : Request) :
    sameOrigin.Keeps (r.handle pf fuel) :=
  r.keeps_handle sameOrigin.executes (sameOrigin.puts _) (sameOrigin.puts _) pf fuel fun t _ =>
    sameOrigin.puts t

/-- A request that was served left what its handler saw. -/
theorem content_of_serve {a : Submission} (h : serve s a = some s') :
    ∃ w, a.request.handle a.platform a.fuel (World.start s) = .ok () w ∧
      s'.content = w.tx.view := by
  unfold serve at h
  split at h
  next u w hrun =>
    cases h
    have horigin : w.tx.origin = s := (a.request.keeps_origin a.platform a.fuel).of_ok hrun
    refine ⟨w, hrun, ?_⟩
    rw [← horigin, content_commit_origin]
  next => cases h

section Served

variable {A : Set Address} {w w' : World} {a : Address}

private theorem in_of_setContractKey {r : Response} (hw : w.In A)
    (h : Endpoint.setContractKey pf a w = .ok r w') : w'.In A := by
  have ha : a ∈ A := by
    obtain ⟨account, w₁, w₂, newKey, hget, hhas, -⟩ := Endpoint.parts_of_setContractKey h
    exact mem_of_hasCode hw hget hhas
  exact (Endpoint.keeps_setContractKey staysIn.reads (staysIn.keeps_get ha)
    (staysIn.puts fun _ => rfl) (staysIn.puts fun _ => rfl) pf).of_ok h hw

private theorem in_of_checkNonce {pubKey : ByteString} {nonce : Nat} (hw : w.In A)
    (ha : ∀ a, getAddressFromPublicKey pubKey = .ok a → a ∈ A)
    (h : Endpoint.checkNonce pubKey nonce w = .ok () w') : w'.In A := by
  obtain ⟨sender, w₁, hsender, hrest⟩ := bind_eq_ok.mp h
  obtain ⟨haddress, rfl⟩ := Endpoint.ofExcept_eq_ok hsender
  refine Frame.Keeps.of_ok (F := staysIn A) ?_ hrest hw
  refine keeps_bind (staysIn.keeps_get (ha sender haddress)) fun account => ?_
  exact keeps_bind (account.keeps_getNonce staysIn.reads) fun _ => keeps_throwIf _ _

private theorem in_of_installCode {installed : Bool} (hw : w.In A) (ha : a ∈ A)
    (h : Web3Operation.installCode a proof code w = .ok installed w') : w'.In A := by
  obtain ⟨account, w₁, hget, h⟩ := bind_eq_ok.mp h
  obtain ⟨hasCode, w₂, hhas, h⟩ := bind_eq_ok.mp h
  have haccount : account.address ∈ A := by
    rw [EthereumState.address_of_get hw.ownProxies hget]
    exact ha
  have hw₂ : w₂.In A := by
    refine (account.keeps_hasCode staysIn.reads).of_ok hhas ?_
    exact (staysIn.keeps_get ha).of_ok hget hw
  have hlevel : (staysIn A).Puts .levels := staysIn.puts fun _ => rfl
  have hproof : (staysIn A).Puts .proof := staysIn.puts fun _ => rfl
  refine Frame.Keeps.of_ok (F := staysIn A) ?_ h hw₂
  refine keeps_ite (fun _ => keeps_pure _) fun _ => ?_
  refine keeps_bind (hlevel _ _) fun _ => ?_
  refine keeps_bind (hproof _ _) fun _ => ?_
  exact keeps_bind (staysIn.keeps_setCode haccount code) fun _ => keeps_pure _

end Served

/-- The message call that a request asks to execute, and how many outside answers are consumed
before. -/
def Request.call? (pf : Platform) : Request → Option (MessageCall × Nat)
  | .query (.ethCall call) => if call.to_ = none then none else some (call, 0)
  | .sendRawTransaction raw => do
    let ethTx ← (SignedTransaction.ofBytes (Abicoder.evmToBytes raw) (pf.heapBytes 0)).toOption
    let call ← (ethTx.toTransactionCall currentChainId pf).toOption
    pure (call, 1)
  | _ => none

theorem toOption_eq_some {ε α : Type} {x : Except ε α} {a : α} :
    x.toOption = some a ↔ x = .ok a := by
  cases x with
  | ok b => exact (Option.some_inj.trans ⟨congrArg _, Except.ok.inj⟩)
  | error e => exact ⟨nofun, nofun⟩

/-- The message call of a raw transaction is what it decodes to. -/
theorem call?_sendRawTransaction :
    (Request.sendRawTransaction raw).call? pf = some (call, tick) ↔ tick = 1 ∧ ∃ ethTx,
      SignedTransaction.ofBytes (Abicoder.evmToBytes raw) (pf.heapBytes 0) = .ok ethTx ∧
        ethTx.toTransactionCall currentChainId pf = .ok call := by
  constructor
  · intro h
    obtain ⟨ethTx, hethTx, h⟩ := Option.bind_eq_some_iff.mp h
    obtain ⟨call', hcall, h⟩ := Option.bind_eq_some_iff.mp h
    cases h
    exact ⟨rfl, ethTx, toOption_eq_some.mp hethTx, toOption_eq_some.mp hcall⟩
  · rintro ⟨rfl, ethTx, hethTx, hcall⟩
    refine Option.bind_eq_some_iff.mpr ⟨ethTx, toOption_eq_some.mpr hethTx, ?_⟩
    exact Option.bind_eq_some_iff.mpr ⟨call, toOption_eq_some.mpr hcall, rfl⟩

/-- A served `eth_call` returned, unless it had no target. -/
theorem returnsIn_of_ethCall {r : Response} (h : Endpoint.ethCall pf fuel call w = .ok r w') :
    call.to_ = none ∧ w' = w ∨ (Request.query (.ethCall call)).call? pf = some (call, 0) ∧
      EVMC.ReturnsIn pf fuel call w w' := by
  unfold Endpoint.ethCall at h
  split at h
  next hto => exact Or.inl ⟨hto, (pure_eq_ok.mp h).2⟩
  next hto =>
    obtain ⟨result, w₁, hrun, h⟩ := bind_eq_ok.mp h
    obtain ⟨-, rfl⟩ := pure_eq_ok.mp h
    exact Or.inr ⟨if_neg hto, Or.inr ⟨result, hrun⟩⟩

/-- A served raw transaction was read, and its call returned. -/
theorem returnsIn_of_sendRawTransaction {r : Response}
    (h : Endpoint.sendRawTransaction pf fuel raw (World.start s) = .ok r w') :
    ∃ call w₁, (Request.sendRawTransaction raw).call? pf = some (call, 1) ∧
      EVMC.ReturnsIn pf fuel call (World.fresh (start s) 1) w₁ ∧
        ∃ hash txResult, w' = { w₁ with tx := w₁.tx.put .txResults hash txResult } := by
  obtain ⟨beyond, w₁, hask, h⟩ := bind_eq_ok.mp h
  obtain ⟨rfl, rfl⟩ := modifyGet_eq_ok.mp hask
  obtain ⟨ethTx, w₂, hdecode, h⟩ := bind_eq_ok.mp h
  obtain ⟨hethTx, rfl⟩ := Endpoint.ofExcept_eq_ok hdecode
  obtain ⟨call, w₃, htransaction, h⟩ := bind_eq_ok.mp h
  obtain ⟨hcall, rfl⟩ := Endpoint.ofExcept_eq_ok htransaction
  obtain ⟨txResult, w₄, hrun, h⟩ := bind_eq_ok.mp h
  obtain ⟨⟨⟩, w₅, hput, h⟩ := bind_eq_ok.mp h
  obtain rfl := Exec.put_eq_ok.mp hput
  obtain ⟨-, rfl⟩ := pure_eq_ok.mp h
  exact ⟨call, w₄, call?_sendRawTransaction.mpr ⟨rfl, ethTx, hethTx, hcall⟩,
    Or.inl ⟨txResult, hrun⟩, _, txResult, rfl⟩

/-- A handler that returned has executed a message call, or it did no more than an interpreter does
apart from setting keys, levels and proofs. -/
theorem cases_of_handle {r : Submission}
    (h : r.request.handle r.platform r.fuel (World.start s) = .ok () w) :
    (r.request.call? r.platform = none ∧ ∀ {G : Frame World}, G.Interacts →
      (∀ t ∈ [TableName.encrypted, .levels, .proof], G.Puts t) → G.rel (World.start s) w) ∨
    ∃ call tick w₁, r.request.call? r.platform = some (call, tick) ∧
      EVMC.ReturnsIn r.platform r.fuel call (World.fresh (start s) tick) w₁ ∧
        ∀ t, t ≠ .txResults → w.tx.view t = w₁.tx.view t := by
  obtain ⟨request, pf, fuel, version⟩ := r
  cases request with
  | query q =>
    obtain ⟨response, w₁, hrun, hpure⟩ := bind_eq_ok.mp h
    obtain ⟨-, rfl⟩ := pure_eq_ok.mp hpure
    cases q with
    | getBalance a blockId =>
      exact Or.inl ⟨rfl, fun hG _ =>
        (Endpoint.keeps_getBalance hG.reads fun _ => hG.get a).of_ok hrun⟩
    | getTransactionCount a blockId =>
      exact Or.inl ⟨rfl, fun hG _ =>
        (Endpoint.keeps_getTransactionCount hG.reads fun _ => hG.get a).of_ok hrun⟩
    | ethCall call =>
      rcases returnsIn_of_ethCall hrun with ⟨hto, rfl⟩ | ⟨hcall, hreturns⟩
      · exact Or.inl ⟨if_pos hto, fun {G} _ _ => G.refl _⟩
      · exact Or.inr ⟨call, 0, _, hcall, hreturns, fun _ _ => rfl⟩
  | sendRawTransaction raw =>
    obtain ⟨response, w₁, hrun, hpure⟩ := bind_eq_ok.mp h
    obtain ⟨-, rfl⟩ := pure_eq_ok.mp hpure
    obtain ⟨call, w₂, hcall, hreturns, hash, txResult, rfl⟩ := returnsIn_of_sendRawTransaction hrun
    refine Or.inr ⟨call, 1, w₂, hcall, hreturns, fun t ht => ?_⟩
    rw [view_put, setRow_of_ne _ ht]
  | setContractKey a =>
    obtain ⟨response, w₁, hrun, hpure⟩ := bind_eq_ok.mp h
    obtain ⟨-, rfl⟩ := pure_eq_ok.mp hpure
    exact Or.inl ⟨rfl, fun hG hputs => (Endpoint.keeps_setContractKey hG.reads (hG.get a)
      (hputs _ (by decide)) (hputs _ (by decide)) pf).of_ok hrun⟩
  | sendContractEscrow a =>
    obtain ⟨response, w₁, hrun, hpure⟩ := bind_eq_ok.mp h
    obtain ⟨-, rfl⟩ := pure_eq_ok.mp hpure
    exact Or.inl ⟨rfl, fun hG _ =>
      (Endpoint.keeps_sendContractEscrow hG.reads (hG.get a)).of_ok hrun⟩
  | multiPartyTransaction pubKey nonce =>
    exact Or.inl ⟨rfl, fun hG _ => (Endpoint.keeps_checkNonce hG.toLookups pubKey nonce).of_ok h⟩
  | escrowProof contract beyond proof code =>
    obtain ⟨installed, w₁, hrun, hthrow⟩ := bind_eq_ok.mp h
    obtain ⟨-, rfl⟩ := Exec.throwIf_eq_ok.mp hthrow
    exact Or.inl ⟨rfl, fun hG hputs => (Web3Operation.keeps_installCode hG.reads (hG.get _)
      (hputs _ (by decide)) (hputs _ (by decide)) fun p => hG.setCode p code).of_ok hrun⟩

/-- The accounts that a request looks up or makes: those it names itself, the sender of the call it
executes, the account it deploys, and those that the execution names. -/
inductive Touches (s : Store) : Submission → Address → Prop
  | getBalance {pf : Platform} {fuel version : Nat} {a : Address} :
    Touches s ⟨.query (.getBalance a Endpoint.latest), pf, fuel, version⟩ a
  | getTransactionCount {pf : Platform} {fuel version : Nat} {a : Address} :
    Touches s ⟨.query (.getTransactionCount a Endpoint.latest), pf, fuel, version⟩ a
  | sendContractEscrow {pf : Platform} {fuel version : Nat} {a : Address} :
    Touches s ⟨.sendContractEscrow a, pf, fuel, version⟩ a
  | multiPartyTransaction {pf : Platform} {fuel version nonce : Nat} {pubKey : ByteString}
    {a : Address} (ha : getAddressFromPublicKey pubKey = .ok a) :
    Touches s ⟨.multiPartyTransaction pubKey nonce, pf, fuel, version⟩ a
  | escrowProof {pf : Platform} {fuel version : Nat} {contract code : ByteString} {beyond : Beyond}
    {proof : Word} :
    Touches s ⟨.escrowProof contract beyond proof code, pf, fuel, version⟩
      (readBigEndian 20 contract beyond)
  | sender {r : Submission} {call : MessageCall} {tick : Nat}
    (hcall : r.request.call? r.platform = some (call, tick)) : Touches s r call.from_
  | deployed {r : Submission} {call : MessageCall} {tick : Nat}
    (hcall : r.request.call? r.platform = some (call, tick)) (hto : call.to_ = none) :
    Touches s r (nextContract s.content call.from_)
  | named {r : Submission} {call : MessageCall} {tick : Nat} {m₀ m : Machine} {a : Address}
    (hcall : r.request.call? r.platform = some (call, tick))
    (henter : EVMC.Enters call (World.fresh (start s) tick) m₀)
    (hreach : Reachable (next r.platform call.from_) m₀ m) (hnames : m.Names r.platform a) :
    Touches s r a

/-- A message call stays in `A` if the request that asks for it does. -/
theorem in_of_executes {r : Submission} (hkeys : KeysIn A s.content)
    (htouch : ∀ a, Touches s r a → a ∈ A) (hcall : r.request.call? r.platform = some (call, tick))
    (h : EVMC.ReturnsIn r.platform r.fuel call (World.fresh (start s) tick) w') : w'.In A := by
  have hstart : (World.fresh (start s) tick).In A := ⟨World.ownProxies_fresh _ _, hkeys⟩
  refine EVMC.in_of_returnsIn hstart (htouch _ (.sender hcall))
    (fun hto => htouch _ (.deployed hcall hto)) (fun m₀ henter m hreach a hnames => ?_) h
  exact htouch a (.named hcall henter hreach hnames)

/-- If the accounts that a request touches belong to `A`, no other account gets a row. -/
theorem keysIn_of_serve {r : Submission} (hkeys : KeysIn A s.content)
    (htouch : ∀ a, Touches s r a → a ∈ A) (h : serve s r = some s') : KeysIn A s'.content := by
  obtain ⟨w, hrun, hcontent⟩ := content_of_serve h
  rw [hcontent]
  suffices hin : w.In A from hin.keysIn
  have hstart : (World.start s).In A := World.in_start hkeys
  obtain ⟨request, pf, fuel, version⟩ := r
  cases request with
  | query q =>
    obtain ⟨response, w₁, hrun, hpure⟩ := bind_eq_ok.mp hrun
    obtain ⟨-, rfl⟩ := pure_eq_ok.mp hpure
    cases q with
    | getBalance a blockId =>
      refine (Endpoint.keeps_getBalance staysIn.reads fun hblock => ?_).of_ok hrun hstart
      subst hblock
      exact staysIn.keeps_get (htouch a .getBalance)
    | getTransactionCount a blockId =>
      refine (Endpoint.keeps_getTransactionCount staysIn.reads fun hblock => ?_).of_ok hrun hstart
      subst hblock
      exact staysIn.keeps_get (htouch a .getTransactionCount)
    | ethCall call =>
      rcases returnsIn_of_ethCall hrun with ⟨-, rfl⟩ | ⟨hcall, hreturns⟩
      · exact hstart
      · exact in_of_executes hkeys htouch hcall hreturns
  | sendRawTransaction raw =>
    obtain ⟨response, w₁, hrun, hpure⟩ := bind_eq_ok.mp hrun
    obtain ⟨-, rfl⟩ := pure_eq_ok.mp hpure
    obtain ⟨call, w₂, hcall, hreturns, hash, txResult, rfl⟩ := returnsIn_of_sendRawTransaction hrun
    have hresult : (staysIn A).Puts .txResults := staysIn.puts fun _ => rfl
    exact hresult hash txResult w₂ (in_of_executes hkeys htouch hcall hreturns)
  | setContractKey a =>
    obtain ⟨response, w₁, hrun, hpure⟩ := bind_eq_ok.mp hrun
    obtain ⟨-, rfl⟩ := pure_eq_ok.mp hpure
    exact in_of_setContractKey hstart hrun
  | sendContractEscrow a =>
    obtain ⟨response, w₁, hrun, hpure⟩ := bind_eq_ok.mp hrun
    obtain ⟨-, rfl⟩ := pure_eq_ok.mp hpure
    exact (Endpoint.keeps_sendContractEscrow staysIn.reads
      (staysIn.keeps_get (htouch a .sendContractEscrow))).of_ok hrun hstart
  | multiPartyTransaction pubKey nonce =>
    exact in_of_checkNonce hstart (fun a ha => htouch a (.multiPartyTransaction ha)) hrun
  | escrowProof contract beyond proof code =>
    obtain ⟨installed, w₁, hrun, hthrow⟩ := bind_eq_ok.mp hrun
    obtain ⟨-, rfl⟩ := Exec.throwIf_eq_ok.mp hthrow
    exact in_of_installCode hstart (htouch _ .escrowProof) hrun

/-- Asking for the latest balance of an account, on a platform without answers. -/
def balanceRequest (a : Address) : Submission :=
  ⟨.query (.getBalance a Endpoint.latest), .mute, 0, 1⟩

end CloakBridge.Evm
