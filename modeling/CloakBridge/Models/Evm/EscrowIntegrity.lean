import CloakBridge.Core.KeccakRows
import CloakBridge.Models.Evm.CodeRows
import CloakBridge.Models.Tee.HandshakeRuns

/-!
# The life of a contract in the enclave

A contract comes to its code by a deployment, by a creation inside an execution or by an
escrow, and later it may be given a key. `Holding` is what the tables say of one contract,
and its steps are all that can become of it, whatever clients request and the host sends.
-/

namespace CloakBridge.Tee

open Kv

/-- What the tables say of a contract. -/
structure Holding where
  code : Option ByteString
  level : Option ContractLevel
  key : Option ByteString
  proof : Option Word

namespace Holding

/-- The rows of a contract. -/
def of (c : Contents) (a : Address) : Holding :=
  ⟨c .codes a, c .levels a, c .encrypted a, c .proof a⟩

/-- What can become of a contract, with the code and the proof if they were installed. -/
inductive Step : Holding → Option (ByteString × Word) → Holding → Prop
  /-- A code may appear where there was none. -/
  | touch {h : Holding} {code : Option ByteString}
    (hcode : ∀ old, h.code = some old → code = some old) : Step h none { h with code }
  /-- A contract with code gets a key. -/
  | enhance {h : Holding} {key : ByteString} (hcode : h.code.getD [] ≠ []) (hkey : h.key = none)
    (hlevel : h.level = none ∨ h.level = some .solidity) :
    Step h none { h with key := some key, level := some .solidityEnhance }
  /-- A contract without code is taken over. -/
  | install {h : Holding} (code : ByteString) (proof : Word) (hcode : h.code.getD [] = []) :
    Step h (some (code, proof))
      { h with code := some code, level := some .solidity, proof := some proof }

/-- A key goes with the level `solidityEnhance`, which only contracts with code have and above which
there is none. -/
structure Sound (h : Holding) : Prop where
  keyed : h.key.isSome ↔ h.level = some .solidityEnhance
  coded : h.level = some .solidityEnhance → h.code.getD [] ≠ []
  leveled : h.level ≠ some .cloak

/-- The level of a contract. -/
def levelOf (h : Holding) : ContractLevel := h.level.getD .basic

/-- Code and key stay, and the level does not sink. -/
structure Extends (h h' : Holding) : Prop where
  code : h.code.getD [] ≠ [] → h'.code = h.code
  level : h.levelOf.rank ≤ h'.levelOf.rank
  key : ∀ key, h.key = some key → h'.key = some key

variable {h h' h'' : Holding} {installed : Option (ByteString × Word)}

private theorem Extends.refl (h : Holding) : Extends h h :=
  ⟨fun _ => rfl, le_rfl, fun _ hkey => hkey⟩

private theorem Extends.trans (h₁ : Extends h h') (h₂ : Extends h' h'') : Extends h h'' where
  code hcode := by
    have hsame := h₁.code hcode
    rw [← hsame] at hcode ⊢
    exact h₂.code hcode
  level := h₁.level.trans h₂.level
  key key hkey := h₂.key key (h₁.key key hkey)

private theorem exists_code (hcode : h.code.getD [] ≠ []) : ∃ code, h.code = some code := by
  cases hrow : h.code with
  | none =>
    rw [hrow] at hcode
    exact absurd rfl hcode
  | some code => exact ⟨code, rfl⟩

private theorem Sound.level_cases (hs : h.Sound) (hcode : h.code.getD [] = []) :
    h.level ≠ some .solidityEnhance ∧ h.levelOf.rank ≤ 1 := by
  have hlow : h.level ≠ some .solidityEnhance := fun hlevel => hs.coded hlevel hcode
  refine ⟨hlow, ?_⟩
  unfold levelOf
  cases hrow : h.level with
  | none => decide
  | some level =>
    cases level with
    | basic => decide
    | solidity => decide
    | solidityEnhance => exact absurd hrow hlow
    | cloak => exact absurd hrow hs.leveled

private theorem Sound.step (hs : h.Sound) (hstep : Step h installed h') : h'.Sound := by
  cases hstep with
  | touch hcode =>
    refine ⟨hs.keyed, fun hlevel => ?_, hs.leveled⟩
    have hnonempty := hs.coded hlevel
    obtain ⟨old, hold⟩ := exists_code hnonempty
    rw [hold] at hnonempty
    rw [hcode old hold]
    exact hnonempty
  | enhance hcode hkey hlevel => exact ⟨iff_of_true rfl rfl, fun _ => hcode, nofun⟩
  | install code proof hcode =>
    have hkey : h.key = none := by
      rw [← Option.not_isSome_iff_eq_none, hs.keyed]
      exact (hs.level_cases hcode).1
    exact ⟨iff_of_false (by simp [hkey]) nofun, nofun, nofun⟩

private theorem Sound.extends (hs : h.Sound) (hstep : Step h installed h') : Extends h h' := by
  cases hstep with
  | touch hcode =>
    refine ⟨fun hnonempty => ?_, le_rfl, fun _ hkey => hkey⟩
    obtain ⟨old, hold⟩ := exists_code hnonempty
    rw [hold]
    exact hcode old hold
  | enhance hcode hkey hlevel =>
    refine ⟨fun _ => rfl, ?_, fun key hold => ?_⟩
    · rcases hlevel with hlevel | hlevel
      · simp [levelOf, hlevel, ContractLevel.rank]
      · simp [levelOf, hlevel, ContractLevel.rank]
    · rw [hkey] at hold
      cases hold
  | install code proof hcode =>
    exact ⟨fun hnonempty => absurd hcode hnonempty, (hs.level_cases hcode).2, fun _ hkey => hkey⟩

private theorem Step.of_rows {c c' : Contents} {a : Address}
    (hcode : ∀ code, c .codes a = some code → c' .codes a = some code)
    (hlevel : c' .levels a = c .levels a) (hkey : c' .encrypted a = c .encrypted a)
    (hproof : c' .proof a = c .proof a) : Step (of c a) none (of c' a) := by
  have heq : of c' a = { of c a with code := c' .codes a } := by
    simp only [of, hlevel, hkey, hproof]
  rw [heq]
  exact .touch hcode

private theorem Step.of_none (hstep : Step h none h') :
    h'.proof = h.proof ∧ ∀ code, h.code = some code → h'.code = some code := by
  cases hstep with
  | touch hcode => exact ⟨rfl, hcode⟩
  | enhance hcode hkey hlevel => exact ⟨rfl, fun _ hrow => hrow⟩

/-- An installation leaves the code and the proof it is given. -/
theorem Step.of_some {code : ByteString} {proof : Word} (hstep : Step h (some (code, proof)) h') :
    h'.code = some code ∧ h'.proof = some proof := by
  cases hstep with
  | install code proof hcode => exact ⟨rfl, rfl⟩

end Holding

end CloakBridge.Tee

namespace CloakBridge.Evm

open Tee Kv Tables

/-- The tables, the handshakes in progress and the configured address of the state contract. -/
structure Enclave where
  store : Store
  version : Nat
  handshakes : Handshakes
  /-- `config.state` -/
  state : Address

/-- The request comes from a client. -/
def Request.ofClient : Request → Bool
  | .escrowProof _ _ _ _ => false
  | _ => true

namespace Enclave

/-- What happens to the enclave. The host may send any message at any time. -/
inductive Event where
  | request (request : Request) (platform : Platform) (fuel : Nat)
  /-- `set_ethereum_configuration` -/
  | configure (state : Address)
  /-- `Web3Msg::escrow` with `EscrowStatus::GETCODE` -/
  | getCode (contract params : ByteString) (beyondContract beyondParams : Beyond)
  /-- `Web3Msg::call_response` with `Methods::GetCode` -/
  | code (request code : ByteString)
  /-- `Web3Msg::escrow` with `EscrowStatus::GETPROOF` -/
  | getProof (contract params : ByteString) (beyondContract beyondParams : Beyond)

/-- One step. What the enclave asks of the host in return is left out. -/
def step (s : Enclave) : Event → Option Enclave
  | .request request platform fuel =>
    if request.ofClient then
      (serve s.store ⟨request, platform, fuel, s.version + 1⟩).map fun store =>
        { s with store, version := s.version + 1 }
    else none
  | .configure state => some { s with state }
  | .getCode contract params beyondContract beyondParams =>
    some { s with
      handshakes := (Web3Operation.onGetCode s.handshakes contract params beyondContract
        beyondParams).1 }
  | .code request code =>
    some { s with handshakes := (Web3Operation.onCode s.handshakes request code).1 }
  | .getProof contract params beyondContract beyondParams =>
    let done := Exchange.finish s.state ⟨s.store, s.version, s.handshakes, []⟩
      (readBigEndian 20 contract beyondContract) (readBigEndian 32 params beyondParams)
    some { s with store := done.store, version := done.version, handshakes := done.handshakes }

def codeOf (s : Enclave) (a : Address) : ByteString := Evm.codeOf s.store.content a

def levelOf (s : Enclave) (a : Address) : ContractLevel :=
  (s.store.content .levels a).getD .basic

def keyOf (s : Enclave) (a : Address) : Option ByteString := s.store.content .encrypted a

def proofOf (s : Enclave) (a : Address) : Option Word := s.store.content .proof a

/-- No contract has a level, a key or a proof yet. -/
def Fresh (s : Enclave) : Prop :=
  ∀ a, s.store.content .levels a = none ∧ s.keyOf a = none ∧ s.proofOf a = none

/-- A message of the host took the contract over: the installation of its code was committed. -/
def Installs (s : Enclave) (a : Address) (code : ByteString) (s' : Enclave) : Prop :=
  ∃ contract params beyondContract beyondParams w,
    s.step (.getProof contract params beyondContract beyondParams) = some s' ∧
      readBigEndian 20 contract beyondContract = a ∧
        Web3Operation.installCode a (readBigEndian 32 params beyondParams) code
          (World.start s.store) = .ok true w ∧
          s'.store = w.tx.commit (s.version + 1) s.store

end Enclave

section Requests

variable {s : Store} {r : Submission} {w : World}

/-- The tables that executions write, and that of the results. -/
def executionTables : List TableName := .txResults :: .nonces :: Frame.executed

private theorem view_of_handle (hsets : r.request.sets = [])
    (h : r.request.handle r.platform r.fuel (World.start s) = .ok () w) {t : TableName}
    (ht : t ∉ executionTables) : w.tx.view t = s.content t := by
  have hputs : ∀ t ∈ executionTables, (writesOnly executionTables).Puts t := fun _ =>
    writesOnly.puts
  have hexecutes : (writesOnly executionTables).Executes :=
    Frame.executes_of_puts writesOnly.reads writesOnly.caches.own
      (fun t ht => hputs t (by simp [executionTables, ht])) (writesOnly.removes (by decide))
      (hputs .nonces (by decide)).fills
  have hkeeps := r.request.keeps_handle hexecutes (hputs _ (by decide)) (hputs _ (by decide))
    r.platform r.fuel fun t ht => by
      rw [hsets] at ht
      cases ht
  exact writesOnly.view_eq (hkeeps.of_ok h) ht

/-- No request of a client changes a code. -/
theorem codes_of_handle (hclient : r.request.ofClient)
    (h : r.request.handle r.platform r.fuel (World.start s) = .ok () w) :
    (rowsStay .codes).rel (World.start s) w := by
  have hL : (rowsStay .codes).Lookups := rowsStay.lookups (by decide)
  obtain ⟨request, pf, fuel, version⟩ := r
  cases request with
  | query q =>
    obtain ⟨response, w₁, hrun, hpure⟩ := bind_eq_ok.mp h
    obtain ⟨-, rfl⟩ := pure_eq_ok.mp hpure
    cases q with
    | getBalance a blockId =>
      exact (Endpoint.keeps_getBalance hL.reads fun _ => hL.get a).of_ok hrun
    | getTransactionCount a blockId =>
      exact (Endpoint.keeps_getTransactionCount hL.reads fun _ => hL.get a).of_ok hrun
    | ethCall call =>
      rcases returnsIn_of_ethCall hrun with ⟨-, rfl⟩ | ⟨-, hreturns⟩
      · exact (rowsStay .codes).refl _
      · exact EVMC.rowsStay_of_returnsIn (World.ownProxies_start s) hreturns
  | sendRawTransaction raw =>
    obtain ⟨response, w₁, hrun, hpure⟩ := bind_eq_ok.mp h
    obtain ⟨-, rfl⟩ := pure_eq_ok.mp hpure
    obtain ⟨call, w₂, -, hreturns, hash, txResult, rfl⟩ := returnsIn_of_sendRawTransaction hrun
    have hresult : (rowsStay .codes).Puts .txResults := rowsStay.puts (by decide)
    have hreturned := EVMC.rowsStay_of_returnsIn (World.ownProxies_fresh _ _) hreturns
    exact (rowsStay .codes).trans hreturned (hresult hash txResult w₂)
  | setContractKey a =>
    obtain ⟨response, w₁, hrun, hpure⟩ := bind_eq_ok.mp h
    obtain ⟨-, rfl⟩ := pure_eq_ok.mp hpure
    exact (Endpoint.keeps_setContractKey hL.reads (hL.get a) (rowsStay.puts (by decide))
      (rowsStay.puts (by decide)) pf).of_ok hrun
  | sendContractEscrow a =>
    obtain ⟨response, w₁, hrun, hpure⟩ := bind_eq_ok.mp h
    obtain ⟨-, rfl⟩ := pure_eq_ok.mp hpure
    exact (Endpoint.keeps_sendContractEscrow hL.reads (hL.get a)).of_ok hrun
  | multiPartyTransaction pubKey nonce => exact (Endpoint.keeps_checkNonce hL pubKey nonce).of_ok h
  | escrowProof contract beyond proof code => cases hclient

/-- Setting a key enhances the contract. -/
theorem step_of_setContractKey {pf : Platform} {a : Address} {response : Response}
    (h : Endpoint.setContractKey pf a (World.start s) = .ok response w)
    (hcodes : (rowsStay .codes).rel (World.start s) w) (b : Address) :
    Holding.Step (.of s.content b) none (.of w.tx.view b) := by
  obtain ⟨p, w₁, w₂, newKey, hget, hhas, hunset, hlow, -, hview⟩ :=
    Endpoint.parts_of_setContractKey h
  have hrel : (writesOnly [.balances, .codes, .nonces]).rel (World.start s) w₂ := (writesOnly
    _).trans ((keeps_lookup a).of_ok hget) ((p.keeps_hasCode writesOnly.reads).of_ok hhas)
  have hlevels : w₂.tx.view .levels = s.content .levels :=
    writesOnly.view_eq hrel (by decide : TableName.levels ∉ _)
  have hencrypted : w₂.tx.view .encrypted = s.content .encrypted :=
    writesOnly.view_eq hrel (by decide : TableName.encrypted ∉ _)
  have hproof : w.tx.view .proof = s.content .proof := by
    rw [hview, setRow_of_ne _ (by decide), setRow_of_ne _ (by decide)]
    exact writesOnly.view_eq hrel (by decide : TableName.proof ∉ _)
  by_cases hb : b = a
  · subst hb
    have hcode : (Holding.of s.content b).code.getD [] ≠ [] := by
      have hsome := (hasCode_of_get (World.ownProxies_start s) hget hhas).1
      rw [eq_comm, Bool.not_eq_true', List.isEmpty_eq_false_iff] at hsome
      exact hsome
    obtain ⟨code, hrow⟩ := Holding.exists_code hcode
    have heq : Holding.of w.tx.view b = { Holding.of s.content b with
        key := some newKey, level := some .solidityEnhance } := by
      have hcode' : w.tx.view .codes b = s.content .codes b := (hcodes b code hrow).trans hrow.symm
      simp [Holding.of, hproof, hcode', hview, setRow_of_ne]
    rw [hlevels] at hlow
    rw [hencrypted] at hunset
    rw [heq]
    exact .enhance hcode hunset hlow
  · refine .of_rows (hcodes b) ?_ ?_ (congrFun hproof b)
    · rw [hview, setRow_self, Function.update_of_ne hb, setRow_of_ne _ (by decide), hlevels]
    · rw [hview, setRow_of_ne _ (by decide), setRow_self, Function.update_of_ne hb, hencrypted]

/-- A request of a client takes every contract a step further, and installs nothing. -/
theorem step_of_serve {s' : Store} (hclient : r.request.ofClient) (h : serve s r = some s')
    (a : Address) : Holding.Step (.of s.content a) none (.of s'.content a) := by
  obtain ⟨w, hrun, hcontent⟩ := content_of_serve h
  have hcodes := codes_of_handle hclient hrun
  rw [hcontent]
  by_cases hsets : r.request.sets = []
  · have hview : ∀ t ∉ executionTables, w.tx.view t = s.content t := fun _ =>
      view_of_handle hsets hrun
    exact .of_rows (hcodes a) (congrFun (hview .levels (by decide)) a)
      (congrFun (hview .encrypted (by decide)) a) (congrFun (hview .proof (by decide)) a)
  · obtain ⟨request, pf, fuel, version⟩ := r
    cases request with
    | setContractKey b =>
      obtain ⟨response, w₁, hset, hpure⟩ := bind_eq_ok.mp hrun
      obtain ⟨-, rfl⟩ := pure_eq_ok.mp hpure
      exact step_of_setContractKey hset hcodes a
    | escrowProof contract beyond proof code => cases hclient
    | _ => exact absurd rfl hsets

end Requests

namespace Enclave

variable {s s' : Enclave} {a b : Address} {code : ByteString} {proof : Word} {w : World}

private theorem parts_of_installCode {w' : World}
    (h : Web3Operation.installCode a proof code w = .ok true w') :
    ∃ p w₁ w₂, EthereumState.get a w = .ok p w₁ ∧ p.hasCode w₁ = .ok false w₂ ∧
      w'.tx.view = ((w₂.tx.view.setRow .levels a (some .solidity)).setRow .proof a
        (some proof)).setRow .codes p.address (some code) := by
  obtain ⟨p, w₁, hget, hfound⟩ := bind_eq_ok.mp h
  obtain ⟨hasCode, w₂, hhas, hchecked⟩ := bind_eq_ok.mp hfound
  cases hasCode with
  | true => cases hchecked
  | false =>
    obtain ⟨_, w₃, hlevel, hraised⟩ := bind_eq_ok.mp hchecked
    obtain rfl := Exec.put_eq_ok.mp hlevel
    obtain ⟨_, w₄, hproof, hproven⟩ := bind_eq_ok.mp hraised
    obtain rfl := Exec.put_eq_ok.mp hproof
    obtain ⟨_, w₅, hcode, hpure⟩ := bind_eq_ok.mp hproven
    obtain rfl := Exec.put_eq_ok.mp hcode
    obtain ⟨-, rfl⟩ := pure_eq_ok.mp hpure
    refine ⟨p, w₁, w₂, hget, hhas, ?_⟩
    simp only [view_put]

/-- An installation takes the contract over and leaves the others as they are. -/
theorem step_of_installCode {st : Store}
    (h : Web3Operation.installCode a proof code (World.start st) = .ok true w) (b : Address) :
    Holding.Step (.of st.content b) (if b = a then some (code, proof) else none)
      (.of w.tx.view b) := by
  obtain ⟨p, w₁, w₂, hget, hhas, hview⟩ := parts_of_installCode h
  rw [EthereumState.address_of_get (World.ownProxies_start st) hget] at hview
  have hrel : (writesOnly [.balances, .codes, .nonces]).rel (World.start st) w₂ := (writesOnly
    _).trans ((keeps_lookup a).of_ok hget) ((p.keeps_hasCode writesOnly.reads).of_ok hhas)
  have hsame : ∀ t ∉ [TableName.balances, .codes, .nonces], w₂.tx.view t = st.content t := fun _ =>
    writesOnly.view_eq hrel
  by_cases hb : b = a
  · subst hb
    have hcode : (Holding.of st.content b).code.getD [] = [] := by
      have hnone := (hasCode_of_get (World.ownProxies_start st) hget hhas).1
      rw [eq_comm, Bool.not_eq_false', List.isEmpty_iff] at hnone
      exact hnone
    have heq : Holding.of w.tx.view b = { Holding.of st.content b with
        code := some code, level := some .solidity, proof := some proof } := by
      simp [Holding.of, hview, setRow_of_ne, hsame .encrypted (by decide)]
    rw [if_pos rfl, heq]
    exact .install code proof hcode
  · have hL : (rowsStay .codes).Lookups := rowsStay.lookups (by decide)
    have hcodes : (rowsStay .codes).rel (World.start st) w₂ :=
      (rowsStay .codes).trans ((hL.get a).of_ok hget) ((p.keeps_hasCode hL.reads).of_ok hhas)
    rw [if_neg hb]
    refine .of_rows (fun old hold => ?_) ?_ ?_ ?_
    · rw [hview, setRow_self, Function.update_of_ne hb, setRow_of_ne _ (by decide),
        setRow_of_ne _ (by decide)]
      exact hcodes b old hold
    · rw [hview, setRow_of_ne _ (by decide), setRow_of_ne _ (by decide),
        setRow_self, Function.update_of_ne hb, hsame .levels (by decide)]
    · rw [hview, setRow_of_ne _ (by decide), setRow_of_ne _ (by decide),
        setRow_of_ne _ (by decide), hsame .encrypted (by decide)]
    · rw [hview, setRow_of_ne _ (by decide), setRow_self, Function.update_of_ne hb,
        setRow_of_ne _ (by decide), hsame .proof (by decide)]

/-- Finishing a handshake installs the code that is kept for the contract if the proof is that of
the code, and leaves the tables alone otherwise. -/
theorem finish_cases (state : Address) (e : Exchange) (a : Address) (proof : Word) :
    (Exchange.finish state e a proof).store = e.store ∨
      ∃ code w, proof = wordOfBytes (Web3Operation.escrowDigest code state) ∧
        Web3Operation.installCode a proof code (World.start e.store) = .ok true w ∧
          (Exchange.finish state e a proof).store = w.tx.commit (e.version + 1) e.store := by
  by_cases hproof : proof =
      wordOfBytes (Web3Operation.escrowDigest (e.handshakes.contractCodes.getD a []) state)
  · simp only [Exchange.finish, Web3Operation.onGetProof, if_pos hproof]
    split
    next w hinstall => exact Or.inr ⟨_, w, hproof, hinstall, rfl⟩
    next => exact Or.inl rfl
  · simp only [Exchange.finish, Web3Operation.onGetProof, if_neg hproof]
    exact Or.inl trivial

/-- What the tables of the enclave say of a contract. -/
def holding (s : Enclave) (a : Address) : Holding := .of s.store.content a

/-- The contract took a step. It was taken over by an installation only, with the proof that its
code and the configured address of the state contract have. -/
def Moves (s : Enclave) (a : Address) (s' : Enclave) : Prop :=
  ∃ installed, Holding.Step (s.holding a) installed (s'.holding a) ∧
    ∀ code proof, installed = some (code, proof) →
      s.Installs a code s' ∧ proof = wordOfBytes (Web3Operation.escrowDigest code s.state)

private theorem moves_of_store_eq (h : s'.store = s.store) (a : Address) : s.Moves a s' := by
  refine ⟨none, ?_, nofun⟩
  rw [holding, holding, h]
  exact .of_rows (fun _ hold => hold) rfl rfl rfl

private theorem moves_of_getProof {contract params : ByteString}
    {beyondContract beyondParams : Beyond}
    (h : s.step (.getProof contract params beyondContract beyondParams) = some s') (a : Address) :
    s.Moves a s' := by
  have hstore : s'.store = (Exchange.finish s.state ⟨s.store, s.version, s.handshakes, []⟩
      (readBigEndian 20 contract beyondContract) (readBigEndian 32 params beyondParams)).store := by
    rw [← Option.some.inj h]
  rcases finish_cases s.state ⟨s.store, s.version, s.handshakes, []⟩
    (readBigEndian 20 contract beyondContract) (readBigEndian 32 params beyondParams) with
    hsame | ⟨code, w, hproof, hinstall, hcommit⟩
  · exact moves_of_store_eq (hstore.trans hsame) a
  · have horigin : w.tx.origin = s.store := (Web3Operation.keeps_installCode sameOrigin.reads
      (sameOrigin.executes.get _) (sameOrigin.puts _) (sameOrigin.puts _) fun p =>
          sameOrigin.executes.setCode p code).of_ok hinstall
    have hcontent : s'.store.content = w.tx.view := by
      rw [hstore, hcommit, ← horigin, content_commit_origin]
    have htaken := step_of_installCode hinstall a
    rw [← hcontent] at htaken
    refine ⟨_, htaken, fun code' proof' hinstalled => ?_⟩
    obtain ⟨rfl, hpair⟩ := Option.ite_none_right_eq_some.mp hinstalled
    cases hpair
    exact ⟨⟨contract, params, beyondContract, beyondParams, w, h, rfl, hinstall,
      hstore.trans hcommit⟩, hproof⟩

/-- Every step of the enclave is one of each contract. -/
theorem moves_of_step {e : Event} (h : s.step e = some s') (a : Address) : s.Moves a s' := by
  cases e with
  | request request platform fuel =>
    obtain ⟨hclient, hserved⟩ := Option.ite_none_right_eq_some.mp h
    obtain ⟨store, hserve, rfl⟩ := Option.map_eq_some_iff.mp hserved
    exact ⟨none, step_of_serve hclient hserve a, nofun⟩
  | configure _ | getCode _ _ _ _ | code _ _ =>
    obtain rfl := Option.some.inj h
    refine moves_of_store_eq ?_ a
    rfl
  | getProof contract params beyondContract beyondParams => exact moves_of_getProof h a

section Runs

variable {s₀ : Enclave}

private theorem Fresh.sound (h : s.Fresh) (a : Address) : (s.holding a).Sound := by
  obtain ⟨hlevel, hkey, -⟩ := h a
  have hlevel' : (s.holding a).level = none := hlevel
  have hkey' : (s.holding a).key = none := hkey
  refine ⟨?_, ?_, ?_⟩
  · simp [hlevel', hkey']
  · simp [hlevel']
  · simp [hlevel']

/-- Soundness is kept by every run, and every run extends what it found. -/
theorem extends_of_reachable (hsound : ∀ a, (s₀.holding a).Sound) (h : Reachable step s₀ s)
    (a : Address) : (s.holding a).Sound ∧ (s₀.holding a).Extends (s.holding a) := by
  refine h.invariant (I := fun s => (s.holding a).Sound ∧ (s₀.holding a).Extends (s.holding a))
    ⟨hsound a, .refl _⟩ fun s e s' hs _ hstep => ?_
  obtain ⟨installed, hholding, -⟩ := moves_of_step hstep a
  exact ⟨hs.1.step hholding, hs.2.trans (hs.1.extends hholding)⟩

/-- The proof of a contract is that of the code it was installed with, and the code is still
there. -/
def Proven (s₀ s : Enclave) (a : Address) (proof : Word) : Prop :=
  ∃ s₁ code s₂, Reachable step s₀ s₁ ∧ s₁.Installs a code s₂ ∧ Reachable step s₂ s ∧
    s.store.content .codes a = some code ∧
      proof = wordOfBytes (Web3Operation.escrowDigest code s₁.state)

private theorem proven_of_reachable (hfresh : s₀.Fresh) (h : Reachable step s₀ s) (a : Address)
    (proof : Word) (hproof : s.proofOf a = some proof) : Proven s₀ s a proof := by
  induction h generalizing proof with
  | refl =>
    rw [(hfresh a).2.2] at hproof
    cases hproof
  | @tail s s' e hs _ hstep ih =>
    obtain ⟨installed, hholding, hinstalls⟩ := moves_of_step hstep a
    cases installed with
    | none =>
      obtain ⟨hsame, hcode⟩ := hholding.of_none
      have hbefore : s.proofOf a = some proof := hsame.symm.trans hproof
      obtain ⟨s₁, code, s₂, hs₁, hinstall, hs₂, hrow, hdigest⟩ := ih proof hbefore
      exact ⟨s₁, code, s₂, hs₁, hinstall, hs₂.tail trivial hstep, hcode code hrow, hdigest⟩
    | some pair =>
      obtain ⟨code, proof'⟩ := pair
      obtain ⟨hinstall, hdigest⟩ := hinstalls code proof' rfl
      obtain ⟨hcode, hsome⟩ := hholding.of_some
      obtain rfl : proof' = proof := Option.some.inj (hsome.symm.trans hproof)
      exact ⟨s, code, s', hs, hinstall, .refl, hcode, hdigest⟩

/-- Between any two states of a run that begins without levels, keys and proofs, codes that are not
empty stay, levels do not sink and keys are not exchanged. In every state the contracts with a key
are those of level `solidityEnhance`, and every proof is that of the code that was installed with
it, under the address of the state contract that was configured then. -/
theorem integrity_of_reachable (hfresh : s₀.Fresh) (hs : Reachable step s₀ s)
    (hs' : Reachable step s s') (a : Address) : (s.codeOf a ≠ [] → s'.codeOf a = s.codeOf a) ∧
      (s.levelOf a).rank ≤ (s'.levelOf a).rank ∧
        ((s'.keyOf a).isSome ↔ s'.levelOf a = .solidityEnhance) ∧
          (∀ key, s.keyOf a = some key → s'.keyOf a = some key) ∧
            ∀ proof, s'.proofOf a = some proof → ∃ s₁ code s₂, Reachable step s₀ s₁ ∧
              s₁.Installs a code s₂ ∧ Reachable step s₂ s' ∧ s'.codeOf a = code ∧
                proof = wordOfBytes (keccak256 (keccak256 code ++ toByteString s₁.state)) := by
  have hsound : ∀ a, (s.holding a).Sound := fun a =>
    (extends_of_reachable hfresh.sound hs a).1
  obtain ⟨hsound', hextends⟩ := extends_of_reachable hsound hs' a
  refine ⟨fun hcode => ?_, hextends.level, ?_, hextends.key, fun proof hproof => ?_⟩
  · have hrow : s'.store.content .codes a = s.store.content .codes a := hextends.code hcode
    rw [codeOf, codeOf, Evm.codeOf, Evm.codeOf, hrow]
  · refine hsound'.keyed.trans ?_
    change s'.store.content .levels a = some .solidityEnhance ↔ s'.levelOf a = .solidityEnhance
    unfold levelOf
    cases s'.store.content .levels a with
    | none | some _ => simp
  · obtain ⟨s₁, code, s₂, hs₁, hinstall, hs₂, hrow, hdigest⟩ :=
      proven_of_reachable hfresh (hs.trans hs') a proof hproof
    refine ⟨s₁, code, s₂, hs₁, hinstall, hs₂, ?_, hdigest⟩
    rw [codeOf, Evm.codeOf, hrow, Option.getD_some]

end Runs

/-- An enclave without any rows, with `1` as the address of the state contract. -/
def idle : Enclave := ⟨balancesStore [], 0, ⟨∅, ∅⟩, 1⟩

/-- The messages that have the enclave keep a code for a proxy. -/
def sampleMessages : List Event :=
  [.getCode (toByteString sampleProxy) (toByteString sampleLogic) (fun _ => 0) fun _ => 0,
    .code (toByteString sampleLogic) [1]]

/-- The proof of that code. -/
def sampleDigest : Word := 0xcb36b5455e39ced9308c27b7ff5e6ebe7d5c4e6e2d3277226ec1b5b8abe1848e

private theorem sampleDigest_eq :
    sampleDigest = wordOfBytes (Web3Operation.escrowDigest [1] idle.state) := by
  simp only [Web3Operation.escrowDigest, keccak256, Keccak.keccak256_eq_digest]
  decide +kernel

/-- The message with the proof. -/
def sampleProof : Event :=
  .getProof (toByteString sampleProxy) (toByteString sampleDigest) (fun _ => 0) fun _ => 0

private theorem sample_messages : ∃ h, performAll step (fun _ _ => True) idle sampleMessages =
        some { idle with handshakes := h } ∧ h.contractCodes.getD sampleProxy [] = [1] :=
  ⟨_, rfl, by decide +kernel⟩

/-- The installation of the sample code. -/
def sampleInstallation : Exec Bool := Web3Operation.installCode sampleProxy sampleDigest [1]

private theorem sample_installation :
    returned sampleInstallation (World.start idle.store) = some true ∧
      let w := stateAfter sampleInstallation (World.start idle.store)
      let installed := w.tx.commit 1 idle.store
      Evm.codeOf installed.content sampleProxy = [1] ∧
        ((serve installed ⟨.setContractKey sampleProxy, .mute, 0, 2⟩).map fun store =>
          store.content .levels sampleProxy) = some (some .solidityEnhance) := by
  decide +kernel

private theorem step_sampleProof {h : Handshakes}
    (hcode : h.contractCodes.getD sampleProxy [] = [1])
    (hinstall : sampleInstallation (World.start idle.store) = .ok true w) :
    ∃ h', ({ idle with handshakes := h } : Enclave).step sampleProof =
      some { idle with store := w.tx.commit 1 idle.store, version := 1, handshakes := h' } := by
  have hproxy : readBigEndian 20 (toByteString sampleProxy) (fun _ => 0) = sampleProxy := by
    decide +kernel
  have hdigest : readBigEndian 32 (toByteString sampleDigest) (fun _ => 0) = sampleDigest := by
    decide +kernel
  rw [sampleInstallation] at hinstall
  simp only [step, sampleProof, Exchange.finish, Web3Operation.onGetProof, hproxy, hdigest, hcode,
    if_pos sampleDigest_eq, hinstall]
  exact ⟨_, rfl⟩

private theorem step_request {request : Request} {platform : Platform} {fuel : Nat} {store : Store}
    (hclient : request.ofClient)
    (hserve : serve s.store ⟨request, platform, fuel, s.version + 1⟩ = some store) :
    s.step (.request request platform fuel) = some { s with store, version := s.version + 1 } := by
  rw [step, if_pos hclient, hserve, Option.map_some]

private theorem fresh_idle : idle.Fresh := fun _ => ⟨rfl, rfl, rfl⟩

/-- A proxy is taken over and then given a key, which leaves its code. -/
theorem integrity_after_escrow : ∃ s s', idle.Fresh ∧ Reachable step idle s ∧ Reachable step s s' ∧
      s.codeOf sampleProxy = [1] ∧ s'.codeOf sampleProxy = [1] ∧ (s'.keyOf sampleProxy).isSome := by
  obtain ⟨hreturned, hcode, hserve⟩ := sample_installation
  obtain ⟨w, hinstall⟩ := exists_of_returned hreturned
  rw [stateAfter, hinstall] at hcode hserve
  dsimp only at hcode hserve
  obtain ⟨store, hstore, hlevel⟩ := Option.map_eq_some_iff.mp hserve
  obtain ⟨h, hmessages, hkept⟩ := sample_messages
  obtain ⟨h', hproof⟩ := step_sampleProof hkept hinstall
  have hreach : Reachable step idle _ := (reaches_of_performAll .refl hmessages).tail trivial hproof
  have hreach' : Reachable step
      { idle with store := w.tx.commit 1 idle.store, version := 1, handshakes := h' } _ :=
    .tail .refl trivial (step_request rfl hstore)
  obtain ⟨hstays, -, hkeyed, -⟩ := integrity_of_reachable fresh_idle hreach hreach' sampleProxy
  refine ⟨_, _, fresh_idle, hreach, hreach', hcode, ?_, hkeyed.mpr ?_⟩
  · refine (hstays fun hnil => ?_).trans hcode
    exact List.cons_ne_nil 1 [] (hcode.symm.trans hnil)
  · rw [levelOf, hlevel, Option.getD_some]

end Enclave

end CloakBridge.Evm
