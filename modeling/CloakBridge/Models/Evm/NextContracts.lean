import CloakBridge.Core.KeccakRows
import CloakBridge.Models.Evm.AccountTables
import CloakBridge.Models.Evm.AddressKeys
import CloakBridge.Models.Evm.StaticCalls

/-!
# The address of the next contract

The account of a deployment is found from its sender and the sender's nonce, and must not
exist yet. Anyone can compute it beforehand, and any lookup makes an account: a query for
its balance blocks the deployment for good. Deployments go through as long as no request
touches a contract that one of the senders concerned may still deploy.
-/

namespace CloakBridge.Evm

open Tee Kv Tables EthereumState

/-- No table has a row of the account. -/
def Rowless (c : Contents) (a : Address) : Prop := KeysIn { x | x ≠ a } c

variable {c : Contents} {a : Address} {st st' : Store} {pf : Platform} {r : Submission}
  {call : MessageCall}

private theorem Rowless.not_existed (h : Rowless c a) : ¬Existed c a :=
  fun hexisted => h.mem_of_existed hexisted rfl

/-- The account of the sender's next deployment can be made. -/
structure Unblocked (st : Store) (sender : Address) : Prop where
  not_existed : ¬Existed st.content (nextContract st.content sender)
  deploys : ∀ (call : MessageCall) (tick : Nat) (p : AccountProxy) (w₁ : World),
    call.from_ = sender → call.to_ = none → nextContract st.content sender ≠ sender →
      get sender (World.fresh (start st) tick) = .ok p w₁ →
        ∃ w', EVMC.callee call (World.fresh (start st) tick) =
          .ok (nextContract st.content sender) w'

private theorem getNonce_run (p : AccountProxy) (w : World) :
    p.getNonce w = .ok (nonceOf w.tx.view p.address)
      { w with tx := w.tx.noteRead .nonces p.address } := rfl

/-- Without rows at the next contract the deployment makes its account. -/
theorem Rowless.unblocked {sender : Address}
    (h : Rowless st.content (nextContract st.content sender)) : Unblocked st sender := by
  refine ⟨h.not_existed, ?_⟩
  rintro call tick p w₁ rfl hto hne hget
  have hown := World.ownProxies_fresh (start st) tick
  have haddress : generateAddress p.address (nonceOf w₁.tx.view p.address) =
      nextContract st.content call.from_ := by
    rw [address_of_get hown hget, nonceOf_of_get hget]
    rfl
  have hstart : (World.fresh (start st) tick).In
      { x | x ≠ nextContract st.content call.from_ } := ⟨hown, h⟩
  have hsender : call.from_ ∈ { x | x ≠ nextContract st.content call.from_ } := hne.symm
  have hrowless := ((staysIn.keeps_get hsender).of_ok hget hstart).keysIn
  have hcache : w₁.cache (nextContract st.content call.from_) = none := by
    rw [cache_of_get rfl hget, Function.update_of_ne hne]
    rfl
  obtain ⟨new, w₂, hcreate⟩ := exists_create
    (w := { w₁ with tx := w₁.tx.noteRead .nonces p.address }) hcache (by
      rw [view_noteRead]
      exact Rowless.not_existed hrowless) call.gas (Abicoder.evmToBytes call.data)
  refine ⟨w₂, ?_⟩
  rw [EVMC.callee, hto]
  dsimp only
  rw [bind_of_ok hget, bind_of_ok (getNonce_run p w₁), haddress, bind_of_ok hcreate]
  rfl

/-- A deployment throws if the next contract of its sender has a balance. -/
theorem callee_of_row {st : Store} {call : MessageCall} {p : AccountProxy} {w₁ : World}
    (hto : call.to_ = none) (hget : get call.from_ (World.start st) = .ok p w₁)
    (hrow : (st.content .balances (nextContract st.content call.from_)).isSome) :
    ∃ w', EVMC.callee call (World.start st) =
      .error (.hasBalance (nextContract st.content call.from_)) w' := by
  have haddress : generateAddress p.address (nonceOf w₁.tx.view p.address) =
      nextContract st.content call.from_ := by
    rw [address_of_get (World.ownProxies_start st) hget, nonceOf_of_get hget]
    rfl
  have hstays : (w₁.tx.view .balances (nextContract st.content call.from_)).isSome := by
    obtain ⟨balance, hbalance⟩ := Option.isSome_iff_exists.mp hrow
    rw [((rowsStay.lookups (t := .balances) (by decide)).get call.from_).of_ok hget _ _ hbalance]
    rfl
  have hcreate := create_of_row (w := { w₁ with tx := w₁.tx.noteRead .nonces p.address })
    (by rw [view_noteRead]; exact hstays) call.gas (Abicoder.evmToBytes call.data)
  rw [EVMC.callee, hto]
  dsimp only
  rw [bind_of_ok hget, bind_of_ok (getNonce_run p w₁), haddress, bind_of_error hcreate]
  exact ⟨_, rfl⟩

/-- How a request counts as a transaction of an account. -/
def Request.counts (pf : Platform) (r : Request) (sender : Address) : Nonce :=
  if (r.call? pf).any fun call => call.1.from_ = sender then 1 else 0

/-- A request that executes a call counts for its sender. -/
theorem Request.counts_sender {r : Request} {tick : Nat} (h : r.call? pf = some (call, tick)) :
    r.counts pf call.from_ = 1 := by
  rw [counts, h, Option.any_some, if_pos (decide_eq_true rfl)]

private theorem Request.counts_of_ne {r : Request}
    (h : ∀ call tick, r.call? pf = some (call, tick) → call.from_ ≠ a) : r.counts pf a = 0#64 := by
  unfold counts
  cases hcall : r.call? pf with
  | none => rfl
  | some call =>
    rw [Option.any_some, if_neg]
    · rfl
    · simpa using h call.1 call.2 hcall

/-- The request leaves alone what the given senders can still deploy after it, and their nonces do
not run out. -/
structure Spares (S : Set Address) (st : Store) (r : Submission) : Prop where
  touched : ∀ sender ∈ S, ∀ k,
    nonceOf st.content sender + r.request.counts r.platform sender ≤ k →
      ¬Touches st r (generateAddress sender k)
  counted : ∀ call tick, r.request.call? r.platform = some (call, tick) → call.from_ ∈ S →
    (nonceOf st.content call.from_).toNat + 1 < 2 ^ 64

/-- A served request counts for its sender only. -/
theorem nonceOf_of_serve (h : serve st r = some st')
    (ha : ∀ call tick, r.request.call? r.platform = some (call, tick) →
      ¬Deploys call st.content a) :
    nonceOf st'.content a = nonceOf st.content a + r.request.counts r.platform a := by
  obtain ⟨w, hrun, hcontent⟩ := content_of_serve h
  rw [hcontent]
  rcases cases_of_handle hrun with ⟨hnone, hkeeps⟩ | ⟨call, tick, w₁, hcall, hreturns, hview⟩
  · have hzero : ZeroAdded (st.content .nonces a) (w.tx.view .nonces a) := by
      refine hkeeps startsAtZero.interacts (fun t ht => startsAtZero.puts ?_) a
      rintro rfl
      exact absurd ht (by decide)
    rw [Request.counts_of_ne (by simp [hnone]), BitVec.add_zero]
    exact hzero.getD_eq
  · obtain ⟨result, logs, address, hexit, hevm⟩ := hreturns.runInEvm
    obtain ⟨c, hprepared, hcount⟩ := prepared_of_runInEvm hexit hevm
    have hsame : nonceOf c a = nonceOf st.content a := hprepared.nonceOf_eq (ha call tick hcall)
    rw [nonceOf, hview .nonces (by decide), hcount]
    by_cases hfrom : call.from_ = a
    · subst hfrom
      rw [Request.counts_sender hcall, setRow_self, Function.update_self, Option.getD_some, hsame]
    · rw [Request.counts_of_ne (by simpa [hcall] using hfrom),
        setRow_apply_of_ne c .nonces (Ne.symm hfrom), BitVec.add_zero]
      exact hsame

private theorem Deploys.nonceOf_eq (h : Deploys call c a) : nonceOf c a = 0 := by
  have hnone : c .nonces a = none :=
    Option.not_isSome_iff_eq_none.mp fun hsome => h.not_existed (Or.inr (Or.inr hsome))
  rw [nonceOf, hnone, Option.getD_none]

/-- A served request leaves no nonce behind what it counts for the account. -/
theorem counted_le_of_serve (h : serve st r = some st') (a : Address) :
    nonceOf st.content a + r.request.counts r.platform a ≤ nonceOf st'.content a := by
  by_cases hdeploys : ∃ call tick, r.request.call? r.platform = some (call, tick) ∧
      Deploys call st.content a
  · obtain ⟨call, tick, hcall, hdeploys⟩ := hdeploys
    have hzero : r.request.counts r.platform a = 0 := by
      refine Request.counts_of_ne fun call' tick' hcall' => ?_
      rw [hcall] at hcall'
      cases hcall'
      exact hdeploys.ne_sender.symm
    rw [hdeploys.nonceOf_eq, hzero]
    exact Nat.zero_le _
  · rw [nonceOf_of_serve h fun call tick hcall hnew => hdeploys ⟨call, tick, hcall, hnew⟩]
    exact BitVec.le_refl _

/-- A nonce that does not run out is no smaller when it was counted. -/
theorem le_counted
    (h : ∀ call tick, r.request.call? r.platform = some (call, tick) → call.from_ = a →
      (nonceOf st.content a).toNat + 1 < 2 ^ 64) :
    nonceOf st.content a ≤ nonceOf st.content a + r.request.counts r.platform a := by
  by_cases hsender : ∃ call tick, r.request.call? r.platform = some (call, tick) ∧ call.from_ = a
  · obtain ⟨call, tick, hcall, rfl⟩ := hsender
    have hlt := h call tick hcall rfl
    rw [Request.counts_sender hcall, BitVec.le_def, BitVec.toNat_add]
    change _ ≤ ((nonceOf st.content call.from_).toNat + 1) % 2 ^ 64
    omega
  · rw [Request.counts_of_ne fun call tick hcall hfrom => hsender ⟨call, tick, hcall, hfrom⟩,
      BitVec.add_zero]
    exact BitVec.le_refl _

/-- No contract that the given senders can still deploy has rows. -/
def FutureFree (S : Set Address) (st : Store) : Prop :=
  ∀ sender ∈ S, ∀ k, nonceOf st.content sender ≤ k →
    Rowless st.content (generateAddress sender k)

/-- A request that spares the contracts to come leaves them without rows. -/
theorem futureFree_of_serve {S : Set Address} (hfree : FutureFree S st) (hspares : Spares S st r)
    (h : serve st r = some st') : FutureFree S st' := by
  intro sender hsender k hk
  -- whoever sent the request, the contracts from the new nonce on are among those spared
  have hspared := BitVec.le_trans (counted_le_of_serve h sender) hk
  have hbefore := BitVec.le_trans (le_counted fun call tick hcall hfrom =>
    hfrom ▸ hspares.counted call tick hcall (hfrom ▸ hsender)) hspared
  refine keysIn_of_serve (hfree sender hsender k hbefore) (fun a ha heq => ?_) h
  exact hspares.touched sender hsender k hspared (heq ▸ ha)

/-- As long as requests spare what some senders can still deploy, these can deploy. -/
theorem unblocked_of_reaches (S : Set Address) (s₀ st : Store) (h₀ : FutureFree S s₀)
    (h : Reaches serve (Spares S) s₀ st) : ∀ sender ∈ S, Unblocked st sender := by
  have hfree : FutureFree S st :=
    h.invariant (I := FutureFree S) h₀ fun _ _ _ => futureFree_of_serve
  exact fun sender hsender => (hfree sender hsender _ (BitVec.le_refl _)).unblocked

/-- The address of a new contract, by `digest`. -/
theorem generateAddress_eq_digest (sender : Address) (nonce : Nonce) :
    generateAddress sender nonce = addressOfDigest (Keccak.digest
      ((Rlp.encode [toByteString sender, Rlp.sizeBytes nonce.toNat]).take
        ((Rlp.encode [toByteString sender, Rlp.sizeBytes nonce.toNat]).length % 2 ^ 16))) := by
  rw [generateAddress, Tee.keccak256, Keccak.keccak256_eq_digest]

private theorem nextContract_seven :
    generateAddress 7 0 = 0x95d6168a2da3c0e52e60c80b6de31bada89fa9ca := by
  rw [generateAddress_eq_digest]
  decide +kernel

/-- Keys that are no addresses, so that none of them can be deployed. -/
abbrev distantSender : Address := 0x10000000000000000000000000000000000000007#256

abbrev distantAccount : Address := 0x10000000000000000000000000000000000000009#256

abbrev distantContract : Address := 0x10000000000000000000000000000000000000010#256

/-- The sender, and a contract that stops at once. -/
def distantStore : Store
  | .balances => .ofRows 1 [(distantSender, 0), (distantContract, 0)]
  | .codes => .ofRows 1 [(distantSender, []), (distantContract, [0x00])]
  | .nonces => .ofRows 1 [(distantSender, 0), (distantContract, 1)]
  | _ => .ofRows 0 []

/-- The account calls the contract. -/
def distantCall : MessageCall :=
  { from_ := distantSender, to_ := some distantContract, gas := 0, value := 0, data := [] }

def distantRequest : Submission := ⟨.query (.ethCall distantCall), .mute, 2, 2⟩

private theorem ne_generateAddress (h : a ∉ addresses) (sender : Address) (k : Nonce) :
    a ≠ generateAddress sender k := by
  rintro rfl
  exact h (addressOfDigest_mem _)

private theorem rowless_distantStore (sender : Address) (k : Nonce) :
    Rowless distantStore.content (generateAddress sender k) := by
  have hlive (t : TableName) :
      ((distantStore t).live.all fun key => (t.owner key).all fun a => 2 ^ 160 ≤ a.toNat) := by
    cases t <;> decide +kernel
  intro t key a hsome howner
  have hkey := List.all_eq_true.mp (hlive t) key
    (VersionedMap.mem_live.mpr (Option.isSome_iff_exists.mp hsome))
  rw [howner, Option.all_some, decide_eq_true_eq] at hkey
  exact ne_generateAddress (Nat.not_lt.mpr hkey) sender k

private theorem spares_balanceRequest (h : a ∉ addresses) (S : Set Address) (st : Store) :
    Spares S st (balanceRequest a) := by
  refine ⟨fun sender _ k _ ha => ?_, nofun⟩
  generalize hto : generateAddress sender k = to_ at ha
  cases ha with
  | getBalance => exact ne_generateAddress h sender k hto.symm
  | sender hcall => cases hcall
  | deployed hcall => cases hcall
  | named hcall => cases hcall

/-- The store after a balance was asked for. -/
def queriedStore : Store := (serve distantStore (balanceRequest distantAccount)).getD distantStore

private theorem not_names_distantCall {m₀ m : Machine}
    (h₀ : EVMC.Enters distantCall (World.fresh (start queriedStore) 0) m₀)
    (h : Reachable (next .mute distantCall.from_) m₀ m) (a : Address) : ¬m.Names .mute a := by
  have henters : ∃ m₁, EVMC.Enters distantCall (World.fresh (start queriedStore) 0) m₁ ∧
      Along (next .mute distantCall.from_)
        (fun m => ∀ op, m.opcode = some op → op = .stop) 2 m₁ := by
    refine ⟨_, ⟨_, _, _, rfl, rfl⟩, ?_, ?_⟩
    · rintro op ⟨⟩
      rfl
    · rintro m' ⟨⟩
      refine ⟨?_, ?_⟩
      · rintro op ⟨⟩
      · rintro m' ⟨⟩
  obtain ⟨m₁, hm₁, halong⟩ := henters
  rw [hm₁.unique h₀] at h
  rintro ⟨op, hop, hnames⟩
  rw [halong.of_reachable h op hop] at hnames
  exact hnames

private theorem spares_distantRequest : Spares {distantSender} queriedStore distantRequest := by
  have hcall :
      ∀ call tick, distantRequest.request.call? distantRequest.platform = some (call, tick) →
      call = distantCall ∧ tick = 0 := by
    rintro call tick ⟨⟩
    exact ⟨rfl, rfl⟩
  refine ⟨fun sender _ k _ ha => ?_, ?_⟩
  · generalize hto : generateAddress sender k = to_ at ha
    cases ha with
    | sender hsender =>
      obtain ⟨rfl, -⟩ := hcall _ _ hsender
      exact ne_generateAddress (by decide +kernel : ¬distantCall.from_.toNat < 2 ^ 160) sender k
        hto.symm
    | deployed hdeployed hnone =>
      obtain ⟨rfl, -⟩ := hcall _ _ hdeployed
      cases hnone
    | named hnamed henter hreach hnames =>
      obtain ⟨rfl, rfl⟩ := hcall _ _ hnamed
      exact not_names_distantCall henter hreach _ hnames
  · rintro call tick hsome -
    obtain ⟨rfl, -⟩ := hcall _ _ hsome
    decide +kernel

/-- A balance is asked for, then the account sends a transaction of its own, and can still deploy:
its next contract is another one. -/
theorem unblocked_after_call : ∃ st, Reaches serve (Spares {distantSender}) distantStore st ∧
      (st.content .balances distantAccount).isSome ∧ nonceOf st.content distantSender = 1 ∧
        Unblocked st distantSender := by
  have hspares := spares_balanceRequest (a := distantAccount)
    (by decide +kernel : ¬distantAccount.toNat < 2 ^ 160) {distantSender} distantStore
  have hserved : ((serve queriedStore distantRequest).any fun st =>
      (st.content .balances distantAccount).isSome ∧ nonceOf st.content distantSender = 1) := by
    decide +kernel
  obtain ⟨st, hserve, hst⟩ := (Option.any_eq_true _ _).mp hserved
  have hrun : Reaches serve (Spares {distantSender}) distantStore st :=
    .tail (.tail .refl hspares rfl) spares_distantRequest hserve
  obtain ⟨hrow, hnonce⟩ := of_decide_eq_true hst
  exact ⟨st, hrun, hrow, hnonce,
    unblocked_of_reaches _ _ _ (fun sender _ k _ => rowless_distantStore sender k) hrun _ rfl⟩

/-- The tables after the balance of the first contract of account `7` was asked for. -/
def blockedStore : Store :=
  (serve (balancesStore []) (balanceRequest 0x95d6168a2da3c0e52e60c80b6de31bada89fa9ca)).getD
    (balancesStore [])

private theorem nextContract_blockedStore :
    nextContract blockedStore.content 7 = 0x95d6168a2da3c0e52e60c80b6de31bada89fa9ca := by
  have hnonce : nonceOf blockedStore.content 7 = 0 := by decide +kernel
  rw [nextContract, hnonce, nextContract_seven]

/-- A deployment of account `7`. -/
def sampleDeployment : MessageCall :=
  { from_ := 7, to_ := none, gas := 0, value := 0, data := [] }

/-- The balance of its first contract is asked for, and account `7` cannot deploy it any more. -/
theorem blocked_by_query : ∃ st, Reachable serve (balancesStore []) st ∧ ¬Unblocked st 7 ∧
      ∃ w, EVMC.callee sampleDeployment (World.start st) =
        .error (.hasBalance (nextContract st.content 7)) w := by
  have hrun : Reachable serve (balancesStore []) blockedStore :=
    .tail .refl (a := balanceRequest 0x95d6168a2da3c0e52e60c80b6de31bada89fa9ca) trivial rfl
  have hrow : (blockedStore.content .balances (nextContract blockedStore.content 7)).isSome := by
    rw [nextContract_blockedStore]
    decide +kernel
  obtain ⟨p, w₁, hget⟩ : ∃ p w₁, get 7 (World.start blockedStore) = .ok p w₁ := ⟨_, _, rfl⟩
  exact ⟨blockedStore, hrun, fun h => h.not_existed (Or.inl hrow),
    @callee_of_row blockedStore sampleDeployment p w₁ rfl hget hrow⟩

end CloakBridge.Evm
