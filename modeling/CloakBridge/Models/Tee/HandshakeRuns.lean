import CloakBridge.Core.Run
import CloakBridge.Models.Tee.EscrowHandshake

/-!
# Several handshakes at once

Handshakes run side by side: every request of the enclave is answered in any order, or not
at all. The reply with a code is matched to a proxy by the logic address, so two proxies
with the same logic contract are taken for one another. The model keeps the proxy of a
request beside it, where the code does not see it.
-/

namespace CloakBridge.Tee

open Kv Std Web3Operation List

/-- The enclave and its requests to the host, each with the proxy it was made for. -/
structure Exchange where
  store : Store
  version : Nat
  handshakes : Handshakes
  requests : List (HostRequest × Address)

/-- The steps of handshakes. -/
inductive HandshakeStep where
  /-- A client asks for the escrow of a contract. -/
  | escrow (contract : Address)
  /-- The host answers a request for a storage slot. -/
  | storage (i : Nat) (value : Word) (beyondContract beyondParams : Beyond)
  /-- The host answers a request for a code. -/
  | code (i : Nat) (code : ByteString)
  /-- The host gets an error and does not answer. -/
  | lose (i : Nat)

namespace Exchange

/-- What the escrow endpoint does in its transaction. -/
def lookUpCode (contract : Address) : Exec Bool := do
  let account ← EthereumState.get contract
  account.hasCode

/-- Commit a transaction that nothing interfered with. -/
def commit (s : Exchange) (tx : Tx) : Exchange :=
  { s with store := tx.commit (s.version + 1) s.store, version := s.version + 1 }

/-- Take a request out and put the one that follows it in. -/
def answer (s : Exchange) (i : Nat) (proxy : Address)
    (result : Handshakes × Option HostRequest) : Exchange :=
  { s with
    handshakes := result.1
    requests := s.requests.eraseIdx i ++ (result.2.map fun r => (r, proxy)).toList }

/-- The `GETPROOF` branch of the `Web3Msg::escrow` handler. -/
def finish (state : Address) (s : Exchange) (addr : Address) (proof : Word) : Exchange :=
  match onGetProof state s.handshakes addr proof with
  | (h, none) => { s with handshakes := h }
  | (h, some code) =>
    match installCode addr proof code (World.start s.store) with
    | .ok true w => { s.commit w.tx with handshakes := forgetCode h addr }
    | _ => { s with handshakes := h }

/-- One step, with the address in `config.state`. -/
def step (state : Address) (s : Exchange) : HandshakeStep → Option Exchange
  | .escrow contract =>
    match lookUpCode contract (World.start s.store) with
    | .ok false w => some { s.commit w.tx with
        requests := s.requests ++ [(contractEscrow contract, contract)] }
    | _ => none
  | .storage i value beyondContract beyondParams =>
    match s.requests[i]? with
    | some (.escrow .getCode contract _, proxy) =>
      some (s.answer i proxy (onGetCode s.handshakes contract (toByteString value)
        beyondContract beyondParams))
    | some (.escrow .getProof contract _, _) =>
      some (finish state { s with requests := s.requests.eraseIdx i }
        (readBigEndian 20 contract beyondContract)
        (readBigEndian 32 (toByteString value) beyondParams))
    | _ => none
  | .code i code =>
    match s.requests[i]? with
    | some (.getCode request, proxy) =>
      some (s.answer i proxy (onCode s.handshakes request code))
    | _ => none
  | .lose i =>
    match s.requests[i]? with
    | some _ => some { s with requests := s.requests.eraseIdx i }
    | none => none

end Exchange

/-- The proxy whose handshake takes the step. -/
def HandshakeStep.proxy (s : Exchange) : HandshakeStep → Option Address
  | .escrow contract => some contract
  | .storage i _ _ _ | .code i _ | .lose i => s.requests[i]?.map Prod.snd

/-- The entries of other proxies stay. -/
def Undisturbed (p : Address) (h h' : Handshakes) : Prop :=
  ∀ q, q ≠ p → (∀ logic : Word, h.escrows[logic]? = some q → h'.escrows[logic]? = some q) ∧
    ∀ code, h.contractCodes[q]? = some code → h'.contractCodes[q]? = some code

/-- The step leaves the entries of others alone, and a code is stored for the proxy whose handshake
requested it and followed by the request of that proxy's proof. -/
structure StepCorrect (s : Exchange) (a : HandshakeStep) (s' : Exchange) : Prop where
  undisturbed : ∀ p, a.proxy s = some p → Undisturbed p s.handshakes s'.handshakes
  stored : ∀ i code request p, a = .code i code → code ≠ [] →
    s.requests[i]? = some (.getCode request, p) →
    s'.handshakes.contractCodes[p]? = some code ∧
      s'.requests = s.requests.eraseIdx i ++
        [(.escrow .getProof (toByteString p) (toByteString proofSlot), p)]

/-- The number has 20 bytes. -/
def IsLong (a : Word) : Prop := 2 ^ 152 ≤ a.toNat ∧ a.toNat < 2 ^ 160

instance (a : Word) : Decidable (IsLong a) := inferInstanceAs (Decidable (_ ∧ _))

private theorem IsLong.significantBytes {a : Word} (h : IsLong a) : significantBytes a.toNat = 20 :=
  significantBytes_eq_twenty.mpr h

/-- The logic address that the host reports for a proxy is not in use for another one. -/
def FreshLogic (h : Handshakes) (value : Word) (beyondParams : Beyond) :
    Option (HostRequest × Address) → Prop
  | some (.escrow .getCode _ _, p) =>
    readBigEndian 20 (toByteString value) beyondParams = 0 ∨
      IsLong value ∧ h.escrows.getD value p = p
  | _ => True

instance (h : Handshakes) (value : Word) (beyondParams : Beyond) :
    (r : Option (HostRequest × Address)) → Decidable (FreshLogic h value beyondParams r)
  | some (.escrow .getCode _ _, _) => inferInstanceAs (Decidable (_ ∨ _ ∧ _))
  | some (.escrow .getProof _ _, _) | some (.getCode _, _) | none => isTrue trivial

/-- A handshake begins for a proxy that has none in progress, and the logic addresses that the host
reports are fresh. Addresses have no leading zero bytes. -/
def Separate (s : Exchange) : HandshakeStep → Prop
  | .escrow contract => IsLong contract ∧ ∀ r ∈ s.requests, r.2 ≠ contract
  | .storage i value _ beyondParams => FreshLogic s.handshakes value beyondParams s.requests[i]?
  | .code _ _ | .lose _ => True

instance (s : Exchange) : (a : HandshakeStep) → Decidable (Separate s a)
  | .escrow contract =>
    inferInstanceAs (Decidable (IsLong contract ∧ ∀ r ∈ s.requests, r.2 ≠ contract))
  | .storage i value _ beyondParams =>
    inferInstanceAs (Decidable (FreshLogic s.handshakes value beyondParams s.requests[i]?))
  | .code _ _ | .lose _ => isTrue trivial

/-- A request in progress says what it is for. -/
def Tagged (h : Handshakes) (r : HostRequest × Address) : Prop :=
  IsLong r.2 ∧ match r.1 with
    | .escrow _ contract _ => contract = toByteString r.2
    | .getCode request => ∃ logic, request = toByteString logic ∧ IsLong logic ∧
        h.escrows[logic]? = some r.2

/-- What holds in every state. -/
structure HandshakeInv (s : Exchange) : Prop where
  nodup : (s.requests.map Prod.snd).Nodup
  tagged : ∀ r ∈ s.requests, Tagged s.handshakes r

namespace Handshakes

variable {h h' : Handshakes} {p q : Address} {logic : Word}

private theorem getElem?_eraseEscrow {escrows : TreeMap Word Address}
    (hq : escrows[logic]? = some q)
    (hne : q ≠ p) : (eraseEscrow escrows p)[logic]? = some q := by
  unfold eraseEscrow
  split
  next entry hfind =>
    have hmem : escrows[entry.1]? = some entry.2 :=
      TreeMap.mem_toList_iff_getElem?_eq_some.mp (mem_of_find?_eq_some hfind)
    have hvalue : entry.2 = p := by simpa using List.find?_some hfind
    have hkey : entry.1 ≠ logic := by
      intro heq
      rw [heq, hq, hvalue] at hmem
      exact hne (Option.some.inj hmem)
    rw [TreeMap.getElem?_erase, if_neg (by simpa using hkey)]
    exact hq
  next => exact hq

/-- The reply with the logic address enters the proxy. -/
theorem onGetCode_eq (hp : IsLong p) (hlogic : IsLong logic) (beyond beyond' : Beyond) :
    onGetCode h (toByteString p) (toByteString logic) beyond beyond' =
      ({ h with escrows := h.escrows.insert logic p }, some (.getCode (toByteString logic))) := by
  have hne : logic ≠ 0 := by
    rintro rfl
    exact absurd hlogic.1 (by decide)
  rw [onGetCode, readBigEndian_toByteString hp.significantBytes,
    readBigEndian_toByteString hlogic.significantBytes]
  exact if_neg hne

private theorem undisturbed_insert (hfree : h.escrows.getD logic p = p) :
    Undisturbed p h { h with escrows := h.escrows.insert logic p } := by
  intro q hq
  refine ⟨fun logic' hlogic' => ?_, fun _ hcode => hcode⟩
  have hne : logic ≠ logic' := by
    rintro rfl
    rw [TreeMap.getD_eq_getD_getElem?, hlogic', Option.getD_some] at hfree
    exact hq hfree
  rw [TreeMap.getElem?_insert, if_neg (by simpa using hne)]
  exact hlogic'

/-- The reply with the code of a logic contract finds the proxy that was entered for it. -/
theorem onCode_eq (hlogic : h.escrows[logic]? = some p) (code : ByteString) :
    ∃ h' : Handshakes, (∀ k : Word, h'.escrows[k]? = h.escrows[k]?) ∧
      h'.contractCodes = h.contractCodes ∧ onCode h (toByteString logic) code =
        if code.isEmpty then (h', none)
        else ({ h' with contractCodes := h.contractCodes.insert p code },
          some (.escrow .getProof (toByteString p) (toByteString proofSlot))) := by
  refine ⟨{ h with escrows := h.escrows.insertIfNew logic 0 }, fun k => ?_, rfl, ?_⟩
  · have hmem : logic ∈ h.escrows := by
      rw [TreeMap.mem_iff_isSome_getElem?, hlogic]
      rfl
    rw [TreeMap.getElem?_insertIfNew, if_neg fun hk => hk.2 hmem]
  · rw [onCode, toUint256_toByteString]
    simp only [TreeMap.getD_eq_getD_getElem?, hlogic, Option.getD_some]

private theorem undisturbed_onCode (hlogic : h.escrows[logic]? = some p) (code : ByteString) :
    Undisturbed p h (onCode h (toByteString logic) code).1 := by
  obtain ⟨h', hescrows, hcodes, heq⟩ := onCode_eq hlogic code
  rw [heq]
  intro q hq
  split
  · refine ⟨fun k hk => (hescrows k).trans hk, fun c hc => ?_⟩
    rw [hcodes]
    exact hc
  · refine ⟨fun k hk => (hescrows k).trans hk, fun c hc => ?_⟩
    rw [TreeMap.getElem?_insert, if_neg (by simpa using hq.symm)]
    exact hc

/-- The reply with the proof concerns one proxy. -/
theorem undisturbed_onGetProof (state : Address) (proof : Word) :
    Undisturbed p h (onGetProof state h p proof).1 := by
  intro q hq
  have hescrows : (onGetProof state h p proof).1.escrows = eraseEscrow h.escrows p := by
    simp only [onGetProof]
    split <;> rfl
  have hcodes : (onGetProof state h p proof).1.contractCodes =
      h.contractCodes.insertIfNew p [] := by
    simp only [onGetProof]
    split <;> rfl
  rw [hescrows, hcodes]
  refine ⟨fun logic hlogic => getElem?_eraseEscrow hlogic hq, fun c hc => ?_⟩
  rw [TreeMap.getElem?_insertIfNew,
    if_neg fun hk => hq (LawfulEqCmp.compare_eq_iff_eq.mp hk.1).symm]
  exact hc

private theorem undisturbed_forgetCode (hund : Undisturbed p h h') :
    Undisturbed p h (forgetCode h' p) := by
  intro q hq
  refine ⟨(hund q hq).1, fun c hc => ?_⟩
  rw [forgetCode, TreeMap.getElem?_erase, if_neg (by simpa using hq.symm)]
  exact (hund q hq).2 c hc

end Handshakes

private theorem Tagged.of_undisturbed {h h' : Handshakes} {p : Address} {r : HostRequest × Address}
    (htagged : Tagged h r) (hund : Undisturbed p h h') (hne : r.2 ≠ p) : Tagged h' r := by
  obtain ⟨hlong, hfor⟩ := htagged
  refine ⟨hlong, ?_⟩
  cases hr : r.1 with
  | escrow status contract params =>
    rw [hr] at hfor
    exact hfor
  | getCode request =>
    rw [hr] at hfor
    obtain ⟨logic, hrequest, hlogic, hentry⟩ := hfor
    exact ⟨logic, hrequest, hlogic, (hund r.2 hne).1 logic hentry⟩

namespace HandshakeInv

variable {s s' : Exchange} {i : Nat} {r : HostRequest} {p : Address}

private theorem ne_of_mem_eraseIdx (hinv : HandshakeInv s) (hi : s.requests[i]? = some (r, p))
    {r' : HostRequest × Address} (hr' : r' ∈ s.requests.eraseIdx i) : r'.2 ≠ p := by
  obtain ⟨hlt, hget⟩ := List.getElem?_eq_some_iff.mp hi
  have hlt' : i < (s.requests.map Prod.snd).length := by simpa using hlt
  have hp : (s.requests.map Prod.snd)[i] = p := by simp [hget]
  have hmem : r'.2 ∈ (s.requests.map Prod.snd).erase p := by
    rw [← hp, hinv.nodup.erase_getElem, eraseIdx_map]
    exact mem_map_of_mem hr'
  exact (hinv.nodup.mem_erase_iff.mp hmem).1

/-- One request is answered, and may be followed by another one for the same proxy. -/
theorem answered (hinv : HandshakeInv s) (hi : s.requests[i]? = some (r, p))
    (next : Option HostRequest) (hund : Undisturbed p s.handshakes s'.handshakes)
    (hnext : ∀ r', next = some r' → Tagged s'.handshakes (r', p))
    (hrequests : s'.requests = s.requests.eraseIdx i ++ (next.map fun r' => (r', p)).toList) :
    HandshakeInv s' := by
  have hothers : ∀ r' ∈ s.requests.eraseIdx i, Tagged s'.handshakes r' := fun r' hr' =>
    (hinv.tagged r' (mem_of_mem_eraseIdx hr')).of_undisturbed hund
      (hinv.ne_of_mem_eraseIdx hi hr')
  have hnodup : ((s.requests.eraseIdx i).map Prod.snd).Nodup := by
    rw [← eraseIdx_map]
    exact hinv.nodup.eraseIdx i
  cases next with
  | none =>
    simp only [Option.map_none, Option.toList_none, append_nil] at hrequests
    exact ⟨by rw [hrequests]; exact hnodup, by rw [hrequests]; exact hothers⟩
  | some r' =>
    simp only [Option.map_some, Option.toList_some] at hrequests
    constructor
    · rw [hrequests, map_append, nodup_append]
      refine ⟨hnodup, by simp, fun a ha b hb => ?_⟩
      obtain ⟨x, hx, rfl⟩ := mem_map.mp ha
      obtain rfl : b = p := by simpa using hb
      exact hinv.ne_of_mem_eraseIdx hi hx
    · rw [hrequests]
      intro x hx
      rcases mem_append.mp hx with hx | hx
      · exact hothers x hx
      · obtain rfl : x = (r', p) := by simpa using hx
        exact hnext r' rfl

end HandshakeInv

namespace Exchange

open Handshakes

variable {state : Address} {s s' : Exchange} {i : Nat} {p : Address} {a : HandshakeStep}

private theorem undisturbed_finish (state : Address) (s : Exchange) (p : Address) (proof : Word) :
    Undisturbed p s.handshakes (finish state s p proof).handshakes ∧
      (finish state s p proof).requests = s.requests := by
  have hund := undisturbed_onGetProof (h := s.handshakes) (p := p) state proof
  unfold finish
  split
  next h hres =>
    rw [hres] at hund
    exact ⟨hund, rfl⟩
  next h code hres =>
    rw [hres] at hund
    split
    · exact ⟨undisturbed_forgetCode hund, rfl⟩
    · exact ⟨hund, rfl⟩

private theorem correct_of_undisturbed (hproxy : a.proxy s = some p)
    (hcode : ∀ i code, a ≠ .code i code)
    (hund : Undisturbed p s.handshakes s'.handshakes) : StepCorrect s a s' := by
  refine ⟨fun q hq => ?_, fun i code _ _ ha => absurd ha (hcode i code)⟩
  rw [hproxy] at hq
  cases hq
  exact hund

private theorem correct_escrow {contract : Address} (hinv : HandshakeInv s)
    (hok : Separate s (.escrow contract)) (hstep : step state s (.escrow contract) = some s') :
    StepCorrect s (.escrow contract) s' ∧ HandshakeInv s' := by
  simp only [step] at hstep
  split at hstep
  next w hrun =>
    cases hstep
    refine ⟨correct_of_undisturbed rfl (fun _ _ h => (nomatch h)) fun _ _ =>
      ⟨fun _ h => h, fun _ h => h⟩, ?_, ?_⟩
    · dsimp only
      rw [map_append, nodup_append]
      refine ⟨hinv.nodup, by simp, fun a ha b hb => ?_⟩
      obtain ⟨x, hx, rfl⟩ := mem_map.mp ha
      obtain rfl : b = contract := by simpa using hb
      exact hok.2 x hx
    · intro r hr
      rcases mem_append.mp hr with hr | hr
      · exact hinv.tagged r hr
      · obtain rfl : r = (contractEscrow contract, contract) := by simpa using hr
        exact ⟨hok.1, rfl⟩
  next => cases hstep

private theorem correct_storage {value : Word} {beyond beyond' : Beyond} (hinv : HandshakeInv s)
    (hok : Separate s (.storage i value beyond beyond'))
    (hstep : step state s (.storage i value beyond beyond') = some s') :
    StepCorrect s (.storage i value beyond beyond') s' ∧ HandshakeInv s' := by
  simp only [step] at hstep
  split at hstep
  next contract params proxy hi =>
    cases hstep
    have htagged : IsLong proxy ∧ contract = toByteString proxy :=
      hinv.tagged _ (mem_of_getElem? hi)
    obtain ⟨hlong, rfl⟩ := htagged
    have hproxy : (HandshakeStep.storage i value beyond beyond').proxy s = some proxy := by
      simp [HandshakeStep.proxy, hi]
    simp only [Separate, hi, FreshLogic] at hok
    rcases hok with hzero | ⟨hlogic, hfree⟩
    · have hres : onGetCode s.handshakes (toByteString proxy) (toByteString value)
          beyond beyond' = (s.handshakes, none) := by
        simp only [onGetCode, hzero, if_true]
      have hund :
          Undisturbed proxy s.handshakes (s.answer i proxy (s.handshakes, none)).handshakes :=
        fun _ _ => ⟨fun _ h => h, fun _ h => h⟩
      rw [hres]
      exact ⟨correct_of_undisturbed hproxy (fun _ _ h => (nomatch h)) hund,
        hinv.answered hi none hund (fun _ h => (nomatch h)) rfl⟩
    · rw [onGetCode_eq hlong hlogic]
      have hund := undisturbed_insert hfree
      refine ⟨correct_of_undisturbed hproxy (fun _ _ h => (nomatch h)) hund,
        hinv.answered hi _ hund (fun r' h => ?_) rfl⟩
      cases h
      refine ⟨hlong, value, rfl, hlogic, ?_⟩
      exact TreeMap.getElem?_insert_self
  next contract params proxy hi =>
    cases hstep
    have htagged : IsLong proxy ∧ contract = toByteString proxy :=
      hinv.tagged _ (mem_of_getElem? hi)
    obtain ⟨hlong, rfl⟩ := htagged
    rw [readBigEndian_toByteString hlong.significantBytes]
    obtain ⟨hund, hrequests⟩ :=
      undisturbed_finish state { s with requests := s.requests.eraseIdx i }
      proxy (readBigEndian 32 (toByteString value) beyond')
    refine ⟨correct_of_undisturbed (by simp [HandshakeStep.proxy, hi])
      (fun _ _ h => (nomatch h)) hund,
      hinv.answered hi none hund (fun _ h => (nomatch h)) ?_⟩
    rw [hrequests]
    simp
  next => cases hstep

private theorem correct_code {code : ByteString} (hinv : HandshakeInv s)
    (hstep : step state s (.code i code) = some s') :
    StepCorrect s (.code i code) s' ∧ HandshakeInv s' := by
  simp only [step] at hstep
  split at hstep
  next request proxy hi =>
    cases hstep
    obtain ⟨hlong, logic, rfl, -, hentry⟩ := hinv.tagged _ (mem_of_getElem? hi)
    dsimp only at hlong hentry
    have hund := undisturbed_onCode hentry code
    obtain ⟨h', -, -, hres⟩ := onCode_eq hentry code
    refine ⟨⟨fun q hq => ?_, fun j code' request p ha hne hj => ?_⟩,
      hinv.answered hi _ hund (fun r' hr' => ?_) rfl⟩
    · simp only [HandshakeStep.proxy, hi, Option.map_some, Option.some.injEq] at hq
      exact hq ▸ hund
    · cases ha
      rw [hi] at hj
      cases hj
      have hempty : ¬ code.isEmpty = true := by simpa using hne
      simp only [answer, hres, if_neg hempty]
      exact ⟨TreeMap.getElem?_insert_self, rfl⟩
    · rw [hres] at hr'
      split at hr'
      next => cases hr'
      next =>
        cases hr'
        exact ⟨hlong, rfl⟩
  next => cases hstep

private theorem correct_lose (hinv : HandshakeInv s) (hstep : step state s (.lose i) = some s') :
    StepCorrect s (.lose i) s' ∧ HandshakeInv s' := by
  simp only [step] at hstep
  split at hstep
  next r hi =>
    cases hstep
    have hund : Undisturbed r.2 s.handshakes s.handshakes := fun _ _ => ⟨fun _ h => h, fun _ h => h⟩
    refine ⟨correct_of_undisturbed (p := r.2) (by simp [HandshakeStep.proxy, hi])
      (fun _ _ h => (nomatch h)) hund, hinv.answered hi none hund
        (fun _ h => (nomatch h)) (by simp)⟩
  next => cases hstep

/-- Every separate step is correct, and keeps the requests tagged. -/
theorem correct_step (hinv : HandshakeInv s) (hok : Separate s a)
    (hstep : step state s a = some s') :
    StepCorrect s a s' ∧ HandshakeInv s' := by
  cases a with
  | escrow contract => exact correct_escrow hinv hok hstep
  | storage i value beyond beyond' => exact correct_storage hinv hok hstep
  | code i code => exact correct_code hinv hstep
  | lose i => exact correct_lose hinv hstep

end Exchange

/-- In a run of separate steps that starts without requests, every step is correct. -/
theorem stepCorrect_of_reaches (state : Address) (s₀ s s' : Exchange) (hstart : s₀.requests = [])
    (hs : Reaches (Exchange.step state) Separate s₀ s) (a : HandshakeStep) (hok : Separate s a)
    (hstep : Exchange.step state s a = some s') : StepCorrect s a s' := by
  have hinit : HandshakeInv s₀ := by
    refine ⟨?_, ?_⟩
    · simp [hstart]
    · simp [hstart]
  have hinv := hs.invariant hinit fun s a s' hinv hok hstep =>
    (Exchange.correct_step hinv hok hstep).2
  exact (Exchange.correct_step hinv hok hstep).1

/-- Nothing stored, nothing in progress. -/
def idleExchange : Exchange where
  store _ := .ofRows 0 []
  version := 0
  handshakes := ⟨∅, ∅⟩
  requests := []

/-- Two proxies, and two logic contracts. -/
def sampleProxy : Address := 2 ^ 159 + 1

def otherProxy : Address := 2 ^ 159 + 2

def sampleLogic : Word := 2 ^ 158

def otherLogic : Word := 2 ^ 158 + 1

/-- Two handshakes at once, each behind its reply to GETCODE. -/
def twoHandshakes (logic : Word) : List HandshakeStep :=
  [.escrow sampleProxy, .escrow otherProxy, .storage 0 sampleLogic (fun _ => 0) fun _ => 0,
    .storage 0 logic (fun _ => 0) fun _ => 0]

set_option synthInstance.maxSize 1000 in
private theorem sample_handshakes :
    (performAll (Exchange.step 1) Separate idleExchange (twoHandshakes otherLogic)).map (fun s =>
        (s.requests[1]?, s.handshakes.escrows[sampleLogic]?,
          (Exchange.step 1 s (.code 1 [1])).isSome)) =
      some (some (.getCode (toByteString otherLogic), otherProxy), some sampleProxy, true) := by
  decide +kernel

/-- The second of two handshakes gets its code first, and the entry of the other one stays. -/
theorem stepCorrect_second :
    ∃ s s', performAll (Exchange.step 1) Separate idleExchange (twoHandshakes otherLogic) = some s ∧
      Exchange.step 1 s (.code 1 [1]) = some s' ∧ StepCorrect s (.code 1 [1]) s' ∧
      s'.handshakes.contractCodes[otherProxy]? = some [1] ∧
      s'.handshakes.escrows[sampleLogic]? = some sampleProxy := by
  obtain ⟨s, hs, hfacts⟩ := Option.map_eq_some_iff.mp sample_handshakes
  rw [Prod.mk.injEq, Prod.mk.injEq] at hfacts
  obtain ⟨hrequest, hentry, hsome⟩ := hfacts
  obtain ⟨s', hs'⟩ := Option.isSome_iff_exists.mp hsome
  have hcorrect := stepCorrect_of_reaches 1 idleExchange s s' rfl (reaches_of_performAll .refl hs)
    (.code 1 [1]) trivial hs'
  have hproxy : (HandshakeStep.code 1 [1]).proxy s = some otherProxy := by
    rw [HandshakeStep.proxy, hrequest, Option.map_some]
  exact ⟨s, s', hs, hs', hcorrect, (hcorrect.stored 1 [1] _ _ rfl (by simp) hrequest).1,
    (hcorrect.undisturbed _ hproxy sampleProxy (by decide +kernel)).1 _ hentry⟩

set_option synthInstance.maxSize 1000 in
private theorem sample_same_logic :
    (performAll (Exchange.step 1) (fun _ _ => True) idleExchange (twoHandshakes sampleLogic)).map
        (fun s => (s.requests[0]?, (Exchange.step 1 s (.code 0 [1])).map fun s' =>
          (s'.handshakes.contractCodes[sampleProxy]?, s'.handshakes.contractCodes[otherProxy]?))) =
      some (some (.getCode (toByteString sampleLogic), sampleProxy), some (none, some [1])) := by
  decide +kernel

/-- Two proxies have the same logic contract. The code that was requested for the first one is
stored for the second one. -/
theorem not_stepCorrect_of_same_logic : ∃ s s', Reachable (Exchange.step 1) idleExchange s ∧
      Exchange.step 1 s (.code 0 [1]) = some s' ∧
      s.requests[0]? = some (.getCode (toByteString sampleLogic), sampleProxy) ∧
      s'.handshakes.contractCodes[otherProxy]? = some [1] ∧ ¬ StepCorrect s (.code 0 [1]) s' := by
  obtain ⟨s, hs, hfacts⟩ := Option.map_eq_some_iff.mp sample_same_logic
  rw [Prod.mk.injEq] at hfacts
  obtain ⟨hrequest, hnext⟩ := hfacts
  obtain ⟨s', hs', hcodes⟩ := Option.map_eq_some_iff.mp hnext
  rw [Prod.mk.injEq] at hcodes
  refine ⟨s, s', reaches_of_performAll .refl hs, hs', hrequest, hcodes.2, fun hcorrect => ?_⟩
  have hstored := (hcorrect.stored 0 [1] _ _ rfl (by simp) hrequest).1
  rw [hcodes.1] at hstored
  cases hstored

end CloakBridge.Tee
