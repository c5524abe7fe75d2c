import CloakBridge.Core.Effect
import CloakBridge.Core.Run
import CloakBridge.Models.Mpt.SubmissionOrder

/-!
# The life cycle of a multi-party transaction

A transaction is pending until the agent reports on its proposal; it is then dropped, or
its old states are requested, the function is executed, and the agent reports on the
result. Only `add_cloakTransaction` looks at the status of a record. Messages that come
when they are expected keep to the life cycle.
-/

namespace CloakBridge.Mpt

open Std Tee

variable {J : Type}

/-- The steps of the life cycle; a transaction without a record has no status. -/
inductive Moves : Option Status → Option Status → Prop
  | stays (s : Option Status) : Moves s s
  | creates : Moves none (some .pending)
  | requests : Moves (some .pending) (some .requestingOldStates)
  | drops : Moves (some .pending) (some .dropped)
  | executes : Moves (some .requestingOldStates) (some .syncing)
  | synced : Moves (some .syncing) (some .synced)
  | failed : Moves (some .syncing) (some .syncFailed)

/-- The function has been executed. -/
def executed : Option Status → Bool
  | some .syncing | some .synced | some .syncFailed => true
  | _ => false

private theorem Moves.executed {s s' : Option Status} (h : Moves s s') (hs : executed s = true) :
    executed s' = true := by
  cases h <;> first | exact hs | cases hs

namespace Node

/-- The results that have been signed for a transaction. -/
def completions (st : Node J) (id : ByteString) : List ByteString :=
  st.agentLog.filterMap fun
    | .syncResult id' data _ _ => if id' = id then some data else none
    | _ => none

variable [Json J] [DecidableEq J]

def status (st : Node J) (id : ByteString) : Option Status :=
  (st.load id).map CloakPolicyTransaction.status

/-- What a request does to one transaction; it does nothing to any other. -/
structure Effect (st st' : Node J) (id : ByteString) (status : Status)
    (proposed completed : Nat) : Prop where
  status_eq : st'.status id = some status
  proposals_length : (st'.proposals id).length = (st.proposals id).length + proposed
  completions_length : (st'.completions id).length = (st.completions id).length + completed
  others : ∀ other ≠ id, st'.status other = st.status other ∧
    st'.proposals other = st.proposals other ∧ st'.completions other = st.completions other

variable {data : ByteString} {r' : CloakPolicyTransaction J} {mpt : MultiPartyTransaction J}
  {msg : Message J}

private theorem status_store (st : Node J) (id : ByteString) (r : CloakPolicyTransaction J) :
    (st.store id r).status id = some r.status := by
  rw [status, load_store]
  rfl

private theorem status_store_of_ne (st : Node J) {id other : ByteString}
    (r : CloakPolicyTransaction J)
    (h : other ≠ id) : (st.store id r).status other = st.status other := by
  simp [status, load, store, Function.update_of_ne h]

variable {st st' : Node J} {id : ByteString} {r : CloakPolicyTransaction J} {e : Engine J}

private theorem effect_store : Effect st (st.store id r) id r.status 0 0 where
  status_eq := status_store st id r
  proposals_length := rfl
  completions_length := rfl
  others _ h := ⟨status_store_of_ne st r h, rfl, rfl⟩

private theorem effect_send {notice : Notice}
    (h : (∃ from_ to_ data, notice = .requestOldState id from_ to_ data) ∨
      ∃ from_ to_ data, notice = .requestPublicKeys id from_ to_ data) :
    Effect st ((st.send notice).store id r) id r.status 0 0 where
  status_eq := status_store _ id r
  proposals_length := by
    rcases h with ⟨_, _, _, rfl⟩ | ⟨_, _, _, rfl⟩ <;> simp [proposals, send, store]
  completions_length := by
    rcases h with ⟨_, _, _, rfl⟩ | ⟨_, _, _, rfl⟩ <;> simp [completions, send, store]
  others other hother := by
    refine ⟨status_store_of_ne _ r hother, ?_, ?_⟩
    · rcases h with ⟨_, _, _, rfl⟩ | ⟨_, _, _, rfl⟩ <;> simp [proposals, send, store]
    · rcases h with ⟨_, _, _, rfl⟩ | ⟨_, _, _, rfl⟩ <;> simp [completions, send, store]

private theorem effect_propose {verifierAddr : Address} {partys : List Address}
    {inputHash : List ByteString} :
    Effect st ((st.store id r).signAndSend (.propose id verifierAddr partys inputHash)) id
      r.status 1 0 where
  status_eq := status_store st id r
  proposals_length := by
    rw [proposals_signAndSend_propose, List.length_append]
    rfl
  completions_length := by simp [completions, signAndSend, send, store]
  others other hother := by
    refine ⟨status_store_of_ne st r hother, ?_, ?_⟩
    · simp [proposals, signAndSend, send, store, Ne.symm hother]
    · simp [completions, signAndSend, send, store]

private theorem effect_complete {returnCommit : ByteString} :
    Effect st ((st.signAndSend (.syncResult id data returnCommit)).store id r) id r.status 0 1 where
  status_eq := status_store _ id r
  proposals_length := by simp [proposals, signAndSend, send, store]
  completions_length := by simp [completions, signAndSend, send, store]
  others other hother := by
    refine ⟨status_store_of_ne _ r hother, ?_, ?_⟩
    · simp [proposals, signAndSend, send, store]
    · simp [completions, signAndSend, send, store, Ne.symm hother]

private theorem Effect.of_statesDigests {digests : ByteString → Option ByteString} {s : Status}
    {proposed completed : Nat}
    (h : Effect { st with statesDigests := digests } st' id s proposed completed) :
    Effect st st' id s proposed completed :=
  ⟨h.status_eq, h.proposals_length, h.completions_length, h.others⟩

private theorem get_eq_ok : st.get id = .ok r ↔ st.load id = some r := by
  rw [get]
  cases st.load id <;> simp

private theorem status_of_get (h : st.get id = .ok r) : st.status id = some r.status := by
  rw [status, get_eq_ok.mp h]
  rfl

private theorem putContent_effect (h : st.putContent id r = .ok st') :
    ∃ n ≤ 1, Effect st st' id r.status n 0 := by
  rw [putContent] at h
  split at h
  · obtain ⟨_, -, h⟩ := except_bind_eq_ok.mp h
    obtain ⟨_, -, h⟩ := except_bind_eq_ok.mp h
    cases h
    exact ⟨1, le_rfl, effect_propose⟩
  · cases h
    exact ⟨0, Nat.zero_le 1, effect_store⟩

omit [DecidableEq J] in
private theorem status_setContent (h : r.setContent mpt = .ok r') : r'.status = r.status := by
  obtain ⟨f, -, h⟩ := except_bind_eq_ok.mp h
  cases h
  rfl

/-- A submission joins a pending transaction or begins a new one. -/
theorem addCloakTransaction_effect {digest : ByteString}
    (h : st.addCloakTransaction digest mpt = .ok st') :
    (mpt.to_.length = 32 ∧ st.status mpt.to_ = some .pending ∧
      ∃ n ≤ 1, Effect st st' mpt.to_ .pending n 0) ∨
    (mpt.to_.length ≠ 32 ∧ ∃ n ≤ 1, Effect st st' digest .pending n 0) := by
  rw [addCloakTransaction] at h
  split at h
  next hjoin =>
    obtain ⟨r, hget, h⟩ := except_bind_eq_ok.mp h
    split at h
    next => cases h
    next hpending =>
      rw [not_not] at hpending
      obtain ⟨r', hset, h⟩ := except_bind_eq_ok.mp h
      have heffect := putContent_effect h
      rw [status_setContent hset, hpending] at heffect
      refine .inl ⟨hjoin, ?_, heffect⟩
      rw [status_of_get hget, hpending]
  next hjoin =>
    refine .inr ⟨hjoin, ?_⟩
    split at h
    next =>
      obtain ⟨ppt, -, h⟩ := except_bind_eq_ok.mp h
      split at h
      next => cases h
      next =>
        obtain ⟨r, hcall, h⟩ := except_bind_eq_ok.mp h
        obtain ⟨f, -, hcall⟩ := except_bind_eq_ok.mp hcall
        obtain ⟨r', hset, h⟩ := except_bind_eq_ok.mp h
        have heffect := putContent_effect h
        rw [status_setContent hset] at heffect
        cases hcall
        exact heffect
    next => cases h

private theorem syncReport_effect {synced : Bool} (h : st.syncReport id synced = .ok st') :
    Effect st st' id (if synced then .synced else .syncFailed) 0 0 := by
  obtain ⟨r, -, h⟩ := except_bind_eq_ok.mp h
  cases h
  exact effect_store

private theorem syncPropose_effect {success : Bool} (h : st.syncPropose e id success = .ok st') :
    Effect st st' id (if success then .requestingOldStates else .dropped) 0 0 := by
  obtain ⟨r, -, h⟩ := except_bind_eq_ok.mp h
  cases success with
  | true =>
    obtain ⟨account, -, h⟩ := except_bind_eq_ok.mp h
    obtain ⟨data, -, h⟩ := except_bind_eq_ok.mp h
    cases h
    exact effect_send (.inl ⟨_, _, _, rfl⟩)
  | false =>
    cases h
    exact effect_store

private theorem execute_effect {oldStates : List ByteString}
    (h : st.execute e id r oldStates = .ok st') :
    Effect st st' id .syncing 0 1 := by
  obtain ⟨⟨rawOutputs, newStates⟩, -, h⟩ := except_bind_eq_ok.mp h
  obtain ⟨states, -, h⟩ := except_bind_eq_ok.mp h
  obtain ⟨encrypted, -, h⟩ := except_bind_eq_ok.mp h
  obtain ⟨proof, -, h⟩ := except_bind_eq_ok.mp h
  obtain ⟨packed, -, h⟩ := except_bind_eq_ok.mp h
  obtain ⟨service, -, h⟩ := except_bind_eq_ok.mp h
  cases h
  exact effect_complete

private theorem syncPublicKeys_effect (h : st.syncPublicKeys e id data = .ok st') :
    Effect st st' id .syncing 0 1 := by
  obtain ⟨r, -, h⟩ := except_bind_eq_ok.mp h
  obtain ⟨list, -, h⟩ := except_bind_eq_ok.mp h
  obtain ⟨keys, -, h⟩ := except_bind_eq_ok.mp h
  obtain ⟨account, -, h⟩ := except_bind_eq_ok.mp h
  obtain ⟨decrypted, -, h⟩ := except_bind_eq_ok.mp h
  exact execute_effect h

omit [Json J] [DecidableEq J] in
private theorem status_requestPublicKeys {request : Option ByteString}
    (h : r.requestPublicKeys e = .ok (r', request)) : r'.status = r.status := by
  obtain ⟨⟨owners, includedTee⟩, -, h⟩ := except_bind_eq_ok.mp h
  simp only at h
  split at h
  next =>
    split at h
    next =>
      obtain ⟨oldStates, -, h⟩ := except_bind_eq_ok.mp h
      cases h
      rfl
    next =>
      cases h
      rfl
  next =>
    obtain ⟨data, -, h⟩ := except_bind_eq_ok.mp h
    cases h
    rfl

/-- The old states lead to another request or to a result. -/
theorem syncStates_effect (h : st.syncStates e id data = .ok st') :
    (∃ s, st.status id = some s ∧ Effect st st' id s 0 0) ∨ Effect st st' id .syncing 0 1 := by
  obtain ⟨r, hget, h⟩ := except_bind_eq_ok.mp h
  obtain ⟨oldStates, -, h⟩ := except_bind_eq_ok.mp h
  split at h
  next =>
    obtain ⟨account, -, h⟩ := except_bind_eq_ok.mp h
    obtain ⟨service, -, h⟩ := except_bind_eq_ok.mp h
    obtain ⟨⟨r', request⟩, hrequest, h⟩ := except_bind_eq_ok.mp h
    simp only at h
    cases request with
    | some data =>
      cases h
      have hstatus := status_requestPublicKeys hrequest
      refine .inl ⟨r.status, status_of_get hget, ?_⟩
      rw [← show r'.status = r.status from hstatus]
      exact .of_statesDigests (effect_send (.inr ⟨_, _, _, rfl⟩))
    | none => exact .inr (.of_statesDigests (execute_effect h))
  next => cases h

/-- The message comes when it is expected. -/
def Expected (st : Node J) : Message J → Prop
  | .addCloakTransaction digest mpt =>
    if mpt.to_.length = 32 then st.proposals mpt.to_ = [] else st.status digest = none
  | .syncPropose id _ => st.status id = some .pending
  | .syncStates id _ => st.status id = some .requestingOldStates
  | .syncPublicKeys id _ => st.status id = some .requestingOldStates
  | .syncReport id _ => st.status id = some .syncing

instance (st : Node J) : (msg : Message J) → Decidable (st.Expected msg)
  | .addCloakTransaction digest mpt => inferInstanceAs (Decidable
      (if mpt.to_.length = 32 then st.proposals mpt.to_ = [] else st.status digest = none))
  | .syncPropose id _ => inferInstanceAs (Decidable (st.status id = some .pending))
  | .syncStates id _ | .syncPublicKeys id _ =>
    inferInstanceAs (Decidable (st.status id = some .requestingOldStates))
  | .syncReport id _ => inferInstanceAs (Decidable (st.status id = some .syncing))

/-- What may have been signed for a transaction by now. -/
structure Signed (st : Node J) (id : ByteString) : Prop where
  proposals_le : (st.proposals id).length ≤ 1
  completions_le : (st.completions id).length ≤ 1
  /-- Without a record, nothing has been signed. -/
  proposals_of_none : st.status id = none → st.proposals id = []
  /-- A result has been signed only if the status says so. -/
  completions_of_status : executed (st.status id) = false → st.completions id = []

/-- A message that is expected moves one transaction along, and signs what has not been signed. -/
theorem handle_cases (hexpected : st.Expected msg) (h : st.handle e msg = .ok st') :
    ∃ id s n m, Effect st st' id s n m ∧ Moves (st.status id) (some s) ∧
      ((n ≤ 1 ∧ m = 0 ∧ s = .pending ∧ (st.status id = none ∨ st.proposals id = [])) ∨
        (n = 0 ∧ m = 0) ∨
          (n = 0 ∧ m = 1 ∧ st.status id = some .requestingOldStates ∧ s = .syncing)) := by
  cases msg with
  | addCloakTransaction digest mpt =>
    rcases addCloakTransaction_effect h with ⟨hjoin, hpending, n, hn, heffect⟩ |
      ⟨hnew, n, hn, heffect⟩
    · rw [Expected, if_pos hjoin] at hexpected
      refine ⟨mpt.to_, .pending, n, 0, heffect, ?_, .inl ⟨hn, rfl, rfl, .inr hexpected⟩⟩
      rw [hpending]
      exact .stays _
    · rw [Expected, if_neg hnew] at hexpected
      refine ⟨digest, .pending, n, 0, heffect, ?_, .inl ⟨hn, rfl, rfl, .inl hexpected⟩⟩
      rw [hexpected]
      exact .creates
  | syncPropose id success =>
    refine ⟨id, _, 0, 0, syncPropose_effect h, ?_, .inr (.inl ⟨rfl, rfl⟩)⟩
    rw [show st.status id = _ from hexpected]
    cases success
    · exact .drops
    · exact .requests
  | syncStates id data =>
    have hstatus : st.status id = some .requestingOldStates := hexpected
    rcases syncStates_effect h with ⟨s, hs, heffect⟩ | heffect
    · refine ⟨id, s, 0, 0, heffect, ?_, .inr (.inl ⟨rfl, rfl⟩)⟩
      rw [hs]
      exact .stays _
    · refine ⟨id, .syncing, 0, 1, heffect, ?_, .inr (.inr ⟨rfl, rfl, hstatus, rfl⟩)⟩
      rw [hstatus]
      exact .executes
  | syncPublicKeys id data =>
    have hstatus : st.status id = some .requestingOldStates := hexpected
    refine ⟨id, .syncing, 0, 1, syncPublicKeys_effect h, ?_, .inr (.inr ⟨rfl, rfl, hstatus, rfl⟩)⟩
    rw [hstatus]
    exact .executes
  | syncReport id synced =>
    refine ⟨id, _, 0, 0, syncReport_effect h, ?_, .inr (.inl ⟨rfl, rfl⟩)⟩
    rw [show st.status id = _ from hexpected]
    cases synced
    · exact .failed
    · exact .synced

private theorem moves_of_expected (hexpected : st.Expected msg) (h : st.handle e msg = .ok st')
    (id : ByteString) : Moves (st.status id) (st'.status id) := by
  obtain ⟨target, s, n, m, heffect, hmoves, -⟩ := handle_cases hexpected h
  by_cases hid : id = target
  · rw [hid, heffect.status_eq]
    exact hmoves
  · rw [(heffect.others id hid).1]
    exact .stays _

private theorem Signed.handle (hs : ∀ id, st.Signed id) (hexpected : st.Expected msg)
    (h : st.handle e msg = .ok st') (id : ByteString) : st'.Signed id := by
  obtain ⟨target, s, n, m, heffect, hmoves, hcases⟩ := handle_cases hexpected h
  by_cases hid : id = target
  · subst hid
    have hp := heffect.proposals_length
    have hc := heffect.completions_length
    have hsome : st'.status id = none → st'.proposals id = [] := by
      rw [heffect.status_eq]
      exact nofun
    have hbefore : executed (some s) = false → st.completions id = [] := by
      intro hs'
      refine (hs id).completions_of_status ?_
      rw [← Bool.not_eq_true]
      intro hexecuted
      rw [hmoves.executed hexecuted] at hs'
      cases hs'
    rcases hcases with ⟨hn, rfl, rfl, hunsigned⟩ | ⟨rfl, rfl⟩ | ⟨rfl, rfl, hstatus, rfl⟩
    · have hnone : st.proposals id = [] := by
        rcases hunsigned with hnone | hnone
        · exact (hs id).proposals_of_none hnone
        · exact hnone
      rw [hbefore rfl] at hc
      rw [hnone] at hp
      exact ⟨by simpa [hp] using hn, by simp [hc], hsome, fun _ => List.length_eq_zero_iff.mp hc⟩
    · refine ⟨hp ▸ (hs id).proposals_le, hc ▸ (hs id).completions_le, hsome, ?_⟩
      rw [heffect.status_eq]
      intro hs'
      rw [hbefore hs'] at hc
      exact List.length_eq_zero_iff.mp hc
    · have hunsigned := (hs id).completions_of_status (by rw [hstatus]; rfl)
      rw [hunsigned] at hc
      refine ⟨hp ▸ (hs id).proposals_le, by simp [hc], hsome, ?_⟩
      rw [heffect.status_eq]
      exact nofun
  · obtain ⟨hstatus, hproposals, hcompletions⟩ := heffect.others id hid
    have hsigned := hs id
    constructor
    · rw [hproposals]
      exact hsigned.proposals_le
    · rw [hcompletions]
      exact hsigned.completions_le
    · rw [hstatus, hproposals]
      exact hsigned.proposals_of_none
    · rw [hstatus, hcompletions]
      exact hsigned.completions_of_status

/-- A request that is not rejected. -/
def step (st : Node J) (a : Engine J × Message J) : Option (Node J) := (st.handle a.1 a.2).toOption

private theorem step_eq_some {a : Engine J × Message J} : st.step a = some st' ↔
    st.handle a.1 a.2 = .ok st' := by
  rw [step]
  cases st.handle a.1 a.2 <;> simp [Except.toOption]

/-- No transaction has begun. -/
def Fresh (st : Node J) : Prop := (∀ id, st.cloakPolicys id = none) ∧ st.agentLog = []

/-- In the runs whose messages all meet `ok`, every transaction keeps to the life cycle, and at most
one proposal and one result are signed for it. -/
def KeepsLifeCycle (ok : Node J → Engine J × Message J → Prop) (st₀ : Node J) : Prop :=
  ∀ st, Reaches step ok st₀ st → ∀ id,
    (st.proposals id).length ≤ 1 ∧ (st.completions id).length ≤ 1 ∧
      ∀ a st', ok st a → st.step a = some st' → Moves (st.status id) (st'.status id)

private theorem Fresh.signed (h : st.Fresh) (id : ByteString) : st.Signed id := by
  constructor
  · simp [proposals, h.2]
  · simp [completions, h.2]
  · simp [proposals, h.2]
  · simp [completions, h.2]

/-- Messages that come when they are expected keep to the life cycle. -/
theorem keepsLifeCycle_of_expected (st₀ : Node J) (hfresh : st₀.Fresh) :
    KeepsLifeCycle (fun st a => st.Expected a.2) st₀ := by
  intro st hreaches id
  have hsigned : ∀ id, st.Signed id := hreaches.invariant (I := fun st => ∀ id, st.Signed id)
    hfresh.signed fun st a st' hs hexpected hstep => Signed.handle hs hexpected
      (step_eq_some.mp hstep)
  refine ⟨(hsigned id).proposals_le, (hsigned id).completions_le, ?_⟩
  intro a st' hexpected hstep
  exact moves_of_expected hexpected (step_eq_some.mp hstep) id

end Node

/-- A node with a policy for the contract 9, with a function that has one input. -/
def policyNode : Node Nat where
  cloakPolicys _ := none
  privacyDigests to_ := if to_ = 9 then some [1] else none
  privacys _ := some
    { to_ := 9, verifierAddr := 3, codeHash := [], states := []
      functions := [⟨[], [102], [], [emptyInput [120]], [], [], [], []⟩] }
  statesDigests _ := none
  nonces _ := 0
  teeAddress := some 4
  teeNonce := 0
  serviceAddr := some 5
  agentLog := []

/-- A call of that function, without a value. -/
def policyCall : MultiPartyTransaction Nat where
  nonce := 0
  to_ := List.replicate 19 0 ++ [9]
  publicKeys := ⟨[1]⟩
  params := ⟨[102], [], .nil⟩

/-- The encoding of one state, which is empty. -/
def emptyState : ByteString := wordBytes 32 ++ wordBytes 1 ++ wordBytes 32 ++ wordBytes 0

/-- An engine that does nothing. -/
def idleEngine : Engine Nat where
  getStatesCallData _ := .ok []
  owners _ := .ok ([], false)
  getPk _ := .ok []
  decryptStates _ := .ok []
  executeMpt _ _ := .ok ([], emptyState)
  encryptStates _ _ := .ok []
  setStates _ _ _ := .ok []

private theorem fresh_policyNode : policyNode.Fresh := ⟨fun _ => rfl, rfl⟩

/-- A transaction is created, gets its input, and is taken through the whole life cycle. -/
def wholeLife : List (Engine Nat × Message Nat) :=
  [.addCloakTransaction (List.replicate 32 7) policyCall,
    .addCloakTransaction [] (submission 1 [120] 1), .syncPropose (List.replicate 32 7) true,
    .syncStates (List.replicate 32 7) (Abicoder.toHexString emptyState),
    .syncReport (List.replicate 32 7) true].map (idleEngine, ·)

private theorem synced_wholeLife :
    (performAll Node.step (fun st a => st.Expected a.2) policyNode wholeLife).map (fun st =>
        (st.status (List.replicate 32 7), (st.proposals (List.replicate 32 7)).length,
          (st.completions (List.replicate 32 7)).length)) = some (some .synced, 1, 1) := by
  decide +kernel

/-- The policy node keeps to the life cycle, and takes a transaction to its end. -/
theorem keepsLifeCycle_policyNode : Node.KeepsLifeCycle (fun st a => st.Expected a.2) policyNode ∧
      ∃ st, Reaches Node.step (fun st a => st.Expected a.2) policyNode st ∧
        st.status (List.replicate 32 7) = some .synced ∧
          (st.completions (List.replicate 32 7)).length = 1 := by
  obtain ⟨st, hrun, hend⟩ := Option.map_eq_some_iff.mp synced_wholeLife
  rw [Prod.mk.injEq, Prod.mk.injEq] at hend
  exact ⟨Node.keepsLifeCycle_of_expected policyNode fresh_policyNode,
    st, reaches_of_performAll .refl hrun, hend.1, hend.2.2⟩

/-- The agent reports success for a transaction that is still pending. -/
theorem not_keepsLifeCycle_report :
    policyNode.Fresh ∧ ¬ Node.KeepsLifeCycle (fun _ _ => True) policyNode := by
  refine ⟨fresh_policyNode, fun h => ?_⟩
  obtain ⟨st, st', hcreate, hreport, hpending, hsynced⟩ : ∃ st st', policyNode.step (idleEngine,
      .addCloakTransaction [7] policyCall) = some st ∧ st.step (idleEngine, .syncReport [7] true) =
      some st' ∧ st.status [7] = some .pending ∧ st'.status [7] = some .synced := ⟨_, _, rfl, rfl,
      rfl, rfl⟩
  have hmoves := (h st (Reaches.refl.tail trivial hcreate) [7]).2.2 _ st' trivial hreport
  rw [hpending, hsynced] at hmoves
  cases hmoves

end CloakBridge.Mpt
