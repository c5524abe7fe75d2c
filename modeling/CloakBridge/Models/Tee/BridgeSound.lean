import CloakBridge.Models.Tee.UpdateAddressing

/-!
# What every step of the bridge respects

Three facts hold in every reachable state: versions only grow, every transaction in
progress began on an earlier state of the store and writes only to the tables its code
uses, and a heartbeat in progress is the result of `on_heart_beat` on the store it began
with.
-/

namespace CloakBridge.Tee

open Kv Web3Operation CloakBridge.Frame

/-- The tables that the storage instructions write to. -/
def storageTables : List TableName :=
  [.balances, .codes, .nonces, .storage, .pendingStates, .pendingStorage]

/-- The tables that transactions of the RPC frontend write to. -/
def txTables : List TableName := .teeNonces :: storageTables

variable {F : Frame World}

/-- A frame that holds for everything the storage instructions do. -/
theorem StorageOp.keeps_exec_of (hF : F.Reads) (hcache : F.Caches)
    (hputs : ∀ t ∈ storageTables, F.Puts t) (hremove : F.Removes .storage) (pf : Platform)
    (op : StorageOp) : F.Keeps (op.exec pf) := by
  have hfills : ∀ t ∈ storageTables, ∀ k v, F.FillsAt t k v := fun t ht => (hputs t ht).fillsAt
  have hlookup : ∀ a, F.Keeps (EthereumState.get a) := fun a =>
    EthereumState.keeps_get hF hcache.own (hfills .balances (by decide) a _)
      (hfills .codes (by decide) a _) (hfills .nonces (by decide) a _)
  cases op with
  | sstore contract key value =>
    refine keeps_bind (hlookup contract) fun p => ?_
    refine keeps_bind ?_ fun _ => keeps_pure _
    exact p.keeps_sstore hF (hputs _ (by decide) _) hremove (hputs _ (by decide)) pf value
  | sload contract key =>
    refine keeps_bind (hlookup contract) fun p => ?_
    refine keeps_bind ?_ fun _ => keeps_pure _
    exact p.keeps_load hF (hputs _ (by decide)) pf key

/-- Storage instructions write their tables only. -/
theorem StorageOp.keeps_exec (pf : Platform) (op : StorageOp) :
    (writesOnly storageTables).Keeps (op.exec pf) :=
  op.keeps_exec_of writesOnly.reads writesOnly.caches (fun _ ht => writesOnly.puts ht)
    (writesOnly.removes (by decide)) pf

/-- Incrementing the nonce stays in the frame. -/
theorem Web3Operation.keeps_incrementNonce (hF : F.Reads) (hput : F.Puts .teeNonces) :
    F.Keeps incrementNonce := by
  refine keeps_bind (hF.get _ _) fun _ => ?_
  refine keeps_bind (keeps_orThrow _ _) fun _ => ?_
  exact keeps_bind (hF.get _ _) fun _ => hput _ _

/-- The success handler writes the marks only. -/
theorem Web3Operation.keeps_onSuccess (target : Address) (keys : List Word) :
    (writesOnly [.syncs]).Keeps (onSuccess target keys) := by
  unfold onSuccess
  induction keys with
  | nil => exact keeps_pure _
  | cons key keys ih =>
    exact keeps_bind (writesOnly.removes (by decide) _) fun _ => ih

namespace Bridge

variable {t : TableName}

section TryCommit

variable {s : Bridge} {tx : Tx}

/-- A valid transaction is committed. -/
theorem tryCommit_of_valid (h : tx.Valid s.store) : s.tryCommit tx =
      { s with store := tx.commit (s.version + 1) s.store, version := s.version + 1 } := by
  rw [tryCommit, if_pos h, if_pos h]

/-- A conflicting transaction is discarded. -/
theorem tryCommit_of_not_valid (h : ¬ tx.Valid s.store) : s.tryCommit tx = s := by
  rw [tryCommit, if_neg h, if_neg h]

private theorem bounded_tryCommit (h : s.store.Bounded s.version) (tx : Tx) :
    (s.tryCommit tx).store.Bounded (s.tryCommit tx).version := by
  by_cases hvalid : tx.Valid s.store
  · rw [tryCommit_of_valid hvalid]
    exact tx.bounded_commit h (Nat.le_succ _)
  · rwa [tryCommit_of_not_valid hvalid]

/-- A commit extends the store. -/
theorem extends_tryCommit (h : s.store.Bounded s.version) (tx : Tx) :
    Tables.Extends s.store (s.tryCommit tx).store := by
  by_cases hvalid : tx.Valid s.store
  · rw [tryCommit_of_valid hvalid]
    exact tx.extends_commit h (Nat.lt_succ_self _)
  · rw [tryCommit_of_not_valid hvalid]
    exact Tables.Extends.refl _

/-- A table that the transaction did not write to is the same. -/
theorem store_tryCommit_of_writes_eq_empty (s : Bridge) (h : (tx t).writes = ∅) :
    (s.tryCommit tx).store t = s.store t := by
  by_cases hvalid : tx.Valid s.store
  · rw [tryCommit_of_valid hvalid]
    exact ChangeSet.commit_of_writes_eq_empty h _ _
  · rw [tryCommit_of_not_valid hvalid]

/-- A transaction that nothing happened beside leaves exactly what it saw. -/
theorem content_tryCommit_of_origin_eq (h : tx.origin = s.store) :
    (s.tryCommit tx).store.content = tx.view := by
  have hvalid : tx.Valid s.store := h ▸ tx.valid_origin
  rw [tryCommit_of_valid hvalid, ← h]
  exact tx.content_commit_origin (s.version + 1)

end TryCommit

/-- A transaction in progress on a store. -/
structure InProgress (store : Store) (w : World) : Prop where
  origin : Tables.Extends w.tx.origin store
  writes : ∀ t, t ∉ txTables → (w.tx t).writes = ∅

/-- A heartbeat in progress on a store. -/
structure Beating (pf : Platform) (store : Store) (b : Beat) : Prop where
  origin : Tables.Extends b.tx.origin store
  visited : b.visited.Perm (b.tx.origin .pendingStates).live
  collected : ∃ w, w.tx = b.tx ∧
    Web3Operation.Collected b.visited (World.start b.tx.origin) w b.message

/-- What holds in every reachable state. -/
structure Sound (pf : Platform) (s : Bridge) : Prop where
  bounded : s.store.Bounded s.version
  running : ∀ i w, s.running i = some w → InProgress s.store w
  beat : ∀ b, s.beat = some b → Beating pf s.store b

variable {store store' : Store} {w : World} {pf : Platform} {s : Bridge}

private theorem InProgress.mono (h : InProgress store w) (hext : Tables.Extends store store') :
    InProgress store' w :=
  ⟨h.origin.trans hext, h.writes⟩

private theorem Beating.mono {b : Beat} (h : Beating pf store b)
    (hext : Tables.Extends store store') :
    Beating pf store' b :=
  ⟨h.origin.trans hext, h.visited, h.collected⟩

private theorem inProgress_start (store : Store) : InProgress store (World.start store) :=
  ⟨Tables.Extends.refl _, fun _ _ => rfl⟩

/-- A run begins soundly. -/
theorem sound_start {version : Nat} (chain : Chain) (h : store.Bounded version) :
    (start store version chain).Sound pf :=
  ⟨h, fun _ _ hw => (nomatch hw), fun _ hb => (nomatch hb)⟩

/-- Code that writes only to the tables of transactions keeps a transaction in progress. -/
theorem InProgress.run {w' : World} (h : InProgress store w)
    (hrel : (writesOnly txTables).rel w w') :
    InProgress store w' :=
  ⟨hrel.1 ▸ h.origin, fun t ht => (hrel.2 t ht).trans (h.writes t ht)⟩

/-- What holds of every running transaction and of the new one holds after the update. -/
theorem running_update {P : World → Prop} {running : Nat → Option World} {i : Nat}
    {o : Option World} (h : ∀ j w, running j = some w → P w) (ho : ∀ w, o = some w → P w)
    (j : Nat) (w : World) (hj : Function.update running i o j = some w) : P w := by
  by_cases hji : j = i
  · subst hji
    rw [Function.update_self] at hj
    exact ho w hj
  · rw [Function.update_of_ne hji] at hj
    exact h j w hj

/-- Applying a transaction keeps what is in progress. -/
theorem Sound.tryCommit (h : s.Sound pf) (tx : Tx) : (s.tryCommit tx).Sound pf := by
  have hext := extends_tryCommit h.bounded tx
  exact ⟨bounded_tryCommit h.bounded tx, fun i w hw => (h.running i w hw).mono hext,
    fun b hb => (h.beat b hb).mono hext⟩

/-- A heartbeat that has a message is in progress. -/
theorem beating_of_onHeartBeat {visited : List StorageKey} {m : Outgoing}
    (hvisited : visited.Perm (store .pendingStates).live)
    (hrun : onHeartBeat pf visited (World.start store) = .ok (some m) w) :
    Beating pf store ⟨m, visited, w.tx⟩ := by
  have horigin : w.tx.origin = store := ((keeps_onHeartBeat pf visited).of_ok hrun).1
  refine ⟨?_, ?_, w, rfl, ?_⟩
  · rw [horigin]
    exact Tables.Extends.refl _
  · rw [horigin]
    exact hvisited
  · rw [horigin]
    exact collected_of_onHeartBeat hrun

namespace Beating

variable {pf : Platform} {store : Store} {b : Beat} (h : Beating pf store b)

include h

/-- The visited slots are those that were pending. -/
theorem mem_visited {x : StorageKey} :
    x ∈ b.visited ↔ b.tx.origin.content .pendingStates x = some () :=
  mem_live_pendingStates h.visited x

/-- A heartbeat with a message visited something. -/
theorem visited_ne_nil : b.visited ≠ [] := by
  intro hnil
  obtain ⟨w, -, hcollected⟩ := h.collected
  obtain ⟨x, hx, -⟩ := hcollected.contract
  rw [hnil] at hx
  cases hx

/-- A heartbeat writes four tables only. -/
theorem writes_eq_empty (ht : t ∉ [.syncs, .pendingStates, .pendingStorage, .teeNonces]) :
    (b.tx t).writes = ∅ := by
  obtain ⟨w, hw, hcollected⟩ := h.collected
  rw [← hw]
  exact hcollected.writes.2 t ht

/-- The heartbeat removes the visited slots from the pending set. -/
theorem lookup_pendingStates (x : StorageKey) :
    (b.tx .pendingStates).writes.lookup x = if x ∈ b.visited then some none else none := by
  obtain ⟨w, hw, hcollected⟩ := h.collected
  rw [← hw, hcollected.pendingStates, TransactionSync.lookup_syncTx_pendingStates]
  by_cases hx : x ∈ b.visited
  · obtain ⟨e, hrow, -⟩ := Option.bind_eq_some_iff.mp (h.mem_visited.mp hx)
    have hstate : ((World.start b.tx.origin).tx .pendingStates).state.rows x = some e := hrow
    rw [if_pos hx, if_pos hx, hstate, Option.map_some]
  · rw [if_neg hx, if_neg hx]
    rfl

/-- The heartbeat enters the visited slots into the set of slots being synchronised. -/
theorem lookup_syncs (x : StorageKey) :
    (b.tx .syncs).writes.lookup x = if x ∈ b.visited then some (some ()) else none := by
  obtain ⟨w, hw, hcollected⟩ := h.collected
  rw [← hw, hcollected.syncs, TransactionSync.lookup_syncTx_syncs]
  rfl

/-- A heartbeat that validates saw the current pending set. -/
theorem pendingStates_eq (hvalid : b.tx.Valid store) :
    store .pendingStates = b.tx.origin .pendingStates := by
  obtain ⟨w, hw, hcollected⟩ := h.collected
  refine (hvalid .pendingStates).eq_state_of_iterated (h.origin _) ?_ ?_
  · rw [← hw, hcollected.pendingStates, TransactionSync.syncTx_pendingStates,
      ChangeSet.iterated_foldl_remove]
    rfl
  · intro hempty
    obtain ⟨x, hx⟩ := List.exists_mem_of_ne_nil _ h.visited_ne_nil
    have hlookup := h.lookup_pendingStates x
    rw [if_pos hx] at hlookup
    have hmem := AList.mem_lookup_iff.mp hlookup
    rw [hempty] at hmem
    cases hmem

end Beating

/-- Every step keeps the bridge sound. -/
theorem Sound.step {s' : Bridge} {a : Action} (h : s.Sound pf) (hstep : Stepped pf s a s') :
    s'.Sound pf := by
  cases hstep with
  | txBegin hi =>
    refine ⟨h.bounded, running_update h.running ?_, h.beat⟩
    rintro w ⟨⟩
    exact inProgress_start s.store
  | txStorage hw hrun =>
    refine ⟨h.bounded, running_update h.running ?_, h.beat⟩
    rintro w'' ⟨⟩
    exact (h.running _ _ hw).run ((writesOnly.keeps_mono (by decide)
      (StorageOp.keeps_exec _ _)).of_ok hrun)
  | txNonce hw hrun =>
    refine ⟨h.bounded, running_update h.running ?_, h.beat⟩
    rintro w'' ⟨⟩
    exact (h.running _ _ hw).run ((keeps_incrementNonce writesOnly.reads
      (writesOnly.puts (by decide))).of_ok hrun)
  | txEnd ha => exact ⟨h.bounded, running_update h.running (by simp), h.beat⟩
  | @txCommit i w hw =>
    have hcommit := h.tryCommit w.tx
    exact ⟨hcommit.bounded, running_update hcommit.running (by simp), hcommit.beat⟩
  | beatIdle visited => exact h
  | beatBegin hbeat hvisited hrun =>
    refine ⟨h.bounded, h.running, ?_⟩
    rintro b ⟨⟩
    exact beating_of_onHeartBeat hvisited hrun
  | @beatCommit b hb =>
    have hcommit := h.tryCommit b.tx
    exact ⟨hcommit.bounded, hcommit.running, fun b hb => (nomatch hb)⟩
  | @acknowledge m toEnclave target keys w =>
    have hcommit := h.tryCommit w.tx
    exact ⟨hcommit.bounded, hcommit.running, hcommit.beat⟩
  | hostSend | rpcAccept | rpcReject | parseFailed | chainExecute =>
    exact ⟨h.bounded, h.running, h.beat⟩

end Bridge

end CloakBridge.Tee
