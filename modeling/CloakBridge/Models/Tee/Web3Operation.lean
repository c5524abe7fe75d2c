import CloakBridge.Models.Tee.TransactionSync

/-!
# The heartbeat and the success handler

`Web3Operation::on_heart_beat` turns the pending states into one signed `updateState`
transaction. What its transaction collects is returned here; the caller commits it and
sends the message. The multimap of states is flattened into two parallel lists, and the
address and the proof are those of its first contract.
-/

namespace CloakBridge.Tee

open Kv TransactionSync Exec CloakBridge.Frame

/-- A message handed to `send`. -/
structure Outgoing where
  /-- The encoded update; `call.contract` is also the target the host is told. -/
  call : UpdateState
  /-- The TEE nonce it was signed with. -/
  nonce : Nonce
  /-- The signed transaction. -/
  raw : ByteString
  deriving DecidableEq, Repr

namespace Web3Operation

/-- The digest passed as `proof`: the proof entry of the contract followed by the digest of the
old states. -/
def proofDigest (entry : Option Word) (oldStates : ByteString) : ByteString :=
  keccak256 (wordBytes (entry.getD 0) ++ oldStates.take 32)

/-- The part of `on_heart_beat` that signs: the key and the nonce of the TEE account. -/
def signUpdate (pf : Platform) (account : Option Address) (call : UpdateState) :
    Exec Outgoing := do
  let address ← orThrow .nullAccount account
  let keyRow ← get .teePrivateKey address
  let privateKey ← orThrow .keyNotFound keyRow
  let nonceRow ← get .teeNonces address
  let nonce := nonceRow.getD 0
  put .teeNonces address (nonce + 1)
  pure ⟨call, nonce, pf.signEthTx privateKey call nonce⟩

/-- `on_heart_beat` up to `tx.commit()`, with the order in which the pending set is visited. -/
def onHeartBeat (pf : Platform) (visited : List StorageKey) : Exec (Option Outgoing) := do
  let synced ← syncStates visited
  match synced.1 with
  | [] => pure none
  | first :: _ => do
    let account ← get .teeAddress ()
    let entry ← get .proof first.1
    let call : UpdateState :=
      ⟨first.1, proofDigest entry synced.2, synced.1.keys, synced.1.vals⟩
    let message ← signUpdate pf account call
    pure (some message)

/-- The `Web3Msg::success` handler up to `tx.commit()`. -/
def onSuccess (target : Address) (keys : List Word) : Exec Unit :=
  keys.forM fun key => updateSync target key

/-- What the generator's propose and complete steps do to the TEE nonce. -/
def incrementNonce : Exec Unit := do
  let account ← get .teeAddress ()
  let address ← orThrow .nullAccount account
  let nonceRow ← get .teeNonces address
  put .teeNonces address (nonceRow.getD 0 + 1)

variable {pf : Platform} {w w' : World} {m : Outgoing} {address : Address} {key : ByteString}
  {visited : List StorageKey}

private theorem signUpdate_eq_ok {account : Option Address} {call : UpdateState}
    (h : signUpdate pf account call w = .ok m w') :
    ∃ address, account = some address ∧ m.call = call ∧
      m.nonce = (w.tx.view .teeNonces address).getD 0 ∧
      w'.tx = ((w.tx.noteRead .teePrivateKey address).noteRead .teeNonces address).put
        .teeNonces address (m.nonce + 1) := by
  obtain ⟨address, w₁, haccount, h₁⟩ := bind_eq_ok.mp h
  obtain ⟨keyRow, w₂, hkeyRow, h₂⟩ := bind_eq_ok.mp h₁
  obtain ⟨privateKey, w₃, hkey, h₃⟩ := bind_eq_ok.mp h₂
  obtain ⟨nonceRow, w₄, hnonceRow, h₄⟩ := bind_eq_ok.mp h₃
  obtain ⟨⟨⟩, w₅, hput, h₅⟩ := bind_eq_ok.mp h₄
  obtain ⟨hsome, rfl⟩ := orThrow_eq_ok.mp haccount
  obtain ⟨-, rfl⟩ := orThrow_eq_ok.mp hkey
  cases hkeyRow
  cases hnonceRow
  cases hput
  cases h₅
  refine ⟨address, hsome, rfl, ?_, rfl⟩
  simp only [Tables.view_noteRead]

/-- What a heartbeat over the visited slots has done when it is about to send `m`. -/
structure Collected (visited : List StorageKey) (w w' : World) (m : Outgoing) : Prop where
  /-- The update lists all collected states under the address of the first. -/
  call : ∃ first, (statesOf w.tx.view visited).head? = some first ∧
    m.call = ⟨first.1, proofDigest (w.tx.view .proof first.1)
        (keccak256 (oldStates w.tx.view (updateKeys visited))), (statesOf w.tx.view visited).keys,
      (statesOf w.tx.view visited).vals⟩
  /-- It is signed with the TEE nonce, which is then incremented. -/
  nonce : ∃ address, w.tx.view .teeAddress () = some address ∧
    m.nonce = (w.tx.view .teeNonces address).getD 0 ∧
    w'.tx .teeNonces = ((w.tx .teeNonces).noteRead address).put address (m.nonce + 1)
  syncs : w'.tx .syncs = syncTx w.tx visited .syncs
  pendingStates : w'.tx .pendingStates = syncTx w.tx visited .pendingStates
  pendingStorage : w'.tx .pendingStorage = syncTx w.tx visited .pendingStorage
  writes : (writesOnly [.syncs, .pendingStates, .pendingStorage, .teeNonces]).rel w w'

/-- The tables a heartbeat writes to. -/
theorem keeps_onHeartBeat (pf : Platform) (visited : List StorageKey) :
    (writesOnly [.syncs, .pendingStates, .pendingStorage, .teeNonces]).Keeps
      (onHeartBeat pf visited) := by
  have hreads : (writesOnly [.syncs, .pendingStates, .pendingStorage, .teeNonces]).Reads :=
    writesOnly.reads
  refine keeps_bind ?_ fun synced => ?_
  · exact writesOnly.keeps_mono (by decide) (keeps_syncStates visited)
  · cases synced.1 with
    | nil => exact keeps_pure _
    | cons first rest =>
      refine keeps_bind (hreads.get _ _) fun account => ?_
      refine keeps_bind (hreads.get _ _) fun entry => ?_
      refine keeps_bind ?_ fun _ => keeps_pure _
      refine keeps_bind (keeps_orThrow _ _) fun address => ?_
      refine keeps_bind (hreads.get _ _) fun _ => ?_
      refine keeps_bind (keeps_orThrow _ _) fun _ => ?_
      refine keeps_bind (hreads.get _ _) fun _ => ?_
      exact keeps_bind (writesOnly.puts (by decide) _ _) fun _ => keeps_pure _

private theorem signUpdate_returns (pf : Platform) (call : UpdateState)
    (hkey : w.tx.view .teePrivateKey address = some key) :
    ∃ m w', (signUpdate pf (some address) call >>= fun message => pure (some message)) w =
      .ok (some m) w' := by
  rw [signUpdate, orThrow, pure_bind, bind_assoc, bind_of_ok (get_run _ _ _), hkey,
    orThrow, pure_bind]
  exact ⟨_, _, rfl⟩

/-- With a TEE account and pending slots, a heartbeat sends a message. -/
theorem onHeartBeat_sends (pf : Platform) (hvisited : visited ≠ [])
    (haddress : w.tx.view .teeAddress () = some address)
    (hkey : w.tx.view .teePrivateKey address = some key) :
    ∃ m w', onHeartBeat pf visited w = .ok (some m) w' := by
  have hview : ∀ {t : TableName}, t ∉ [.storage, .syncs, .pendingStates, .pendingStorage] →
      (syncTx w.tx visited).view t = w.tx.view t :=
    fun ht => congrArg ChangeSet.view (syncTx_of_notMem ht w.tx visited)
  rw [onHeartBeat, bind_of_ok (syncStates_run hvisited w)]
  cases hstates : statesOf w.tx.view visited with
  | nil => exact absurd hstates (statesOf_ne_nil _ hvisited)
  | cons first rest =>
    simp only [bind_of_ok (get_run _ _ _), hview (t := .teeAddress) (by decide), haddress]
    apply signUpdate_returns
    simp only [Tables.view_noteRead]
    rw [hview (by decide)]
    exact hkey

/-- A heartbeat sends what it collected. -/
theorem collected_of_onHeartBeat (h : onHeartBeat pf visited w = .ok (some m) w') :
    Collected visited w w' m := by
  have hwrites := (keeps_onHeartBeat pf visited).of_ok h
  by_cases hvisited : visited = []
  · subst hvisited
    cases h
  obtain ⟨synced, w₁, hsync, h₁⟩ := bind_eq_ok.mp h
  rw [syncStates_run hvisited] at hsync
  cases hsync
  cases hstates : statesOf w.tx.view visited with
  | nil =>
    simp only [hstates] at h₁
    cases h₁
  | cons first rest =>
    simp only [hstates] at h₁
    obtain ⟨account, w₂, haccount, h₂⟩ := bind_eq_ok.mp h₁
    obtain ⟨entry, w₃, hentry, h₃⟩ := bind_eq_ok.mp h₂
    obtain ⟨message, w₄, hsign, h₄⟩ := bind_eq_ok.mp h₃
    obtain ⟨address, haddress, hcall, hnonce, htx⟩ := signUpdate_eq_ok hsign
    cases haccount
    cases hentry
    cases h₄
    have hview : ∀ {t : TableName}, t ∉ [.storage, .syncs, .pendingStates, .pendingStorage] →
        (syncTx w.tx visited).view t = w.tx.view t :=
      fun ht => congrArg ChangeSet.view (syncTx_of_notMem ht w.tx visited)
    have htables : ∀ {t : TableName}, t ∉ [.teeAddress, .proof, .teePrivateKey, .teeNonces] →
        w'.tx t = syncTx w.tx visited t := by
      intro t ht
      simp only [List.mem_cons, List.not_mem_nil, or_false, not_or] at ht
      rw [htx]
      simp only [Tables.put, Tables.noteRead, Function.update_of_ne ht.2.2.2,
        Function.update_of_ne ht.2.2.1, Function.update_of_ne ht.2.1, Function.update_of_ne ht.1]
    refine ⟨⟨first, ?_, ?_⟩, ⟨address, ?_, ?_, ?_⟩, htables (by decide), htables (by decide),
      htables (by decide), hwrites⟩
    · rw [hstates]
      rfl
    · rw [hcall, hstates]
      simp only [Tables.view_noteRead]
      rw [hview (by decide)]
    · rw [← haddress]
      exact (congrFun (hview (t := .teeAddress) (by decide)) ()).symm
    · rw [hnonce]
      simp only [Tables.view_noteRead]
      rw [hview (by decide)]
    · rw [htx, ← syncTx_of_notMem (t := .teeNonces) (by decide) w.tx visited]
      rfl

end Web3Operation

end CloakBridge.Tee
