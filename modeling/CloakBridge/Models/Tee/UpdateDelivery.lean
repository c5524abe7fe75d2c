import CloakBridge.Models.Tee.StorageOps

/-!
# Which updates reach the chain

A slot of an escrowed contract that is not pending should have the value that the last
`updateState` message listing it carried, or its value at escrow time. This fails when
zero is stored, since the row is removed without a pending mark, and when a heartbeat
finds pending slots of two contracts. The invariant follows each slot: either nothing was
ever stored and no message listed it, or it has a row, which is the value of the last
message unless the slot is pending.
-/

namespace CloakBridge.Tee

open Kv ChangeSet Web3Operation

/-- The tables hold an escrowed contract whose states are kept in the clear. -/
def Escrowed (c : Contents) (a : Address) : Prop := proxyIn c a = ⟨a, none, .solidity⟩

instance (c : Contents) (a : Address) : Decidable (Escrowed c a) :=
  inferInstanceAs (Decidable (_ = _))

variable {value : Word}

/-- A value other than zero is marked when it is stored. -/
theorem Escrowed.marksPending {c : Contents} {a : Address} (h : Escrowed c a) (hvalue : value ≠ 0) :
    marksPending (proxyIn c a) value := by
  have hlevel : ContractLevel.basic < ContractLevel.solidity := by decide
  rw [Escrowed] at h
  rw [h]
  exact ⟨hvalue, hlevel⟩

/-- The value the most recent message listing the slot carried for it. -/
def carried (sent : List Sent) (x : StorageKey) : Option Word :=
  (sent.find? fun m => m.message.call.Lists x).bind fun m => m.message.call.value? x

/-- The value `SLOAD` returns for a slot in a fresh transaction, `none` if it throws. -/
def currentValue (pf : Platform) (s : Bridge) (x : StorageKey) : Option Word :=
  returned ((proxyIn s.store.content x.1).load (pf.withChain s.chain true) x.2)
    (World.start s.store)

/-- A slot is pending, or its value is the one last sent, or the one it was escrowed with. -/
def UpToDate (pf : Platform) (escrow : Chain) (s : Bridge) (x : StorageKey) : Prop :=
  s.store.content .pendingStates x = none →
    currentValue pf s x = some ((carried s.sent x).getD (escrow x))

/-- A zero is stored only where the transaction sees no row, and a heartbeat begins only while the
pending slots belong to one contract. -/
def Delivers (s : Bridge) : Action → Prop
  | .txStorage i (.sstore contract key value) _ => value = 0 → Escrowed s.store.content contract →
      ∀ w ∈ s.running i, w.tx.view .storage (contract, key) = none
  | .beatBegin _ => SingleContract (s.store .pendingStates).live
  | _ => True

instance (s : Bridge) : (a : Action) → Decidable (Delivers s a)
  | .txStorage _ (.sstore _ _ _) _ => inferInstanceAs (Decidable (_ → _ → ∀ w ∈ _, _))
  | .txStorage _ (.sload _ _) _ => isTrue trivial
  | .beatBegin _ => inferInstanceAs (Decidable (SingleContract _))
  | .txBegin _ | .txNonce _ | .txCommit _ | .txAbort _ | .beatCommit | .hostSend | .rpcReply _ _
  | .acknowledge | .chainExecute _ => isTrue trivial

namespace Delivery

/-- A slot of an escrowed contract: untouched since escrow, or with a row that is the value last
sent unless the slot is pending. -/
inductive SlotOk (escrow : Chain) (store : Store) (sent : List Sent) (chain : Chain)
    (x : StorageKey) : Prop
  | untouched (hrow : (store .storage).rows x = none)
    (hpending : store.content .pendingStates x = none)
    (hsent : ∀ m ∈ sent, ¬ m.message.call.Lists x) (hchain : chain x = escrow x)
  | written (v : Word) (hrow : store.content .storage x = some (wordBytes v))
    (hsent : store.content .pendingStates x = none → carried sent x = some v)

/-- What a transaction may have written for a slot of an escrowed contract. -/
inductive WritesOk (tx : Tx) (x : StorageKey) : Prop
  | none (hstorage : (tx .storage).writes.lookup x = none)
    (hpending : (tx .pendingStates).writes.lookup x = none)
  | stored (v : Word) (hstorage : (tx .storage).writes.lookup x = some (some (wordBytes v)))
    (hpending : (tx .pendingStates).writes.lookup x = some (some ()))

variable (E : Address → Prop)

/-- A transaction in progress: it sees the escrowed contracts, marks what it stores to them as
pending, and removes neither a row of theirs nor a mark. -/
structure TxOk (w : World) : Prop where
  cache : w.CacheOk
  escrowed : ∀ a, E a → Escrowed w.tx.view a
  row : ∀ x, E x.1 → w.tx.origin.content .storage x = none →
    (w.tx.origin .storage).rows x = none
  writes : ∀ x, E x.1 → WritesOk w.tx x
  marks : ∀ x, (w.tx .pendingStates).writes.lookup x ≠ some none

/-- A heartbeat in progress: its message speaks for the visited slots, these are still pending, and
unless the pending set was written since, no row of an escrowed contract was. -/
structure BeatOk (store : Store) (b : Beat) : Prop where
  lists : ∀ x, b.message.call.Lists x ↔ x ∈ b.visited
  value : ∀ x ∈ b.visited,
    b.message.call.value? x = some (TransactionSync.rowValue b.tx.origin.content x)
  pending : ∀ x ∈ b.visited, store.content .pendingStates x = some ()
  fresh : store .pendingStates = b.tx.origin .pendingStates → ∀ x, E x.1 →
    store.content .storage x = b.tx.origin.content .storage x

/-- The invariant. -/
structure Inv (pf : Platform) (escrow : Chain) (s : Bridge) : Prop where
  sound : s.Sound pf
  escrowed : ∀ a, E a ↔ Escrowed s.store.content a
  slots : ∀ x, E x.1 → SlotOk escrow s.store s.sent s.chain x
  running : ∀ i w, s.running i = some w → TxOk E w
  beat : ∀ b, s.beat = some b → BeatOk E s.store b

variable {E} {pf : Platform} {escrow : Chain} {s : Bridge} {x : StorageKey} {w w' : World}
  {contract key : Word} {store : Store} {sent : List Sent} {chain : Chain} {b : Beat} {m : Sent}

/-- The invariant says what it is for. -/
theorem Inv.upToDate (h : Inv E pf escrow s) (hx : E x.1) : UpToDate pf escrow s x := by
  intro hpending
  have hproxy : proxyIn s.store.content x.1 = ⟨x.1, none, .solidity⟩ := (h.escrowed x.1).mp hx
  have hlevel : ¬ ContractLevel.solidity < ContractLevel.solidity := by decide
  have hview : (World.start s.store).tx.view .storage
      (AccountProxy.translate ⟨x.1, none, .solidity⟩ x.2) = s.store.content .storage x := rfl
  rw [currentValue, hproxy, AccountProxy.returned_load _ _ hlevel, hview]
  cases h.slots x hx with
  | untouched hrow _ hsent hchain =>
    have hcontent : s.store.content .storage x = none := by
      rw [Tables.content, VersionedMap.content, hrow, Option.bind_none]
    have hcarried : carried s.sent x = none := by
      rw [carried, List.find?_eq_none.mpr fun m hm => by simpa using hsent m hm, Option.bind_none]
    rw [hcontent, hcarried, Option.getD_none, ← hchain]
    rfl
  | written v hrow hsent =>
    rw [hrow, hsent hpending]
    simp only [wordOfBytes_wordBytes, Option.getD_some]

private theorem txOk_start (h : Inv E pf escrow s) : TxOk E (World.start s.store) where
  cache := World.cacheOk_start s.store
  escrowed a := (h.escrowed a).mp
  row x hx hcontent := by
    cases h.slots x hx with
    | untouched hrow => exact hrow
    | written v hrow =>
      change s.store.content .storage x = none at hcontent
      rw [hrow] at hcontent
      cases hcontent
  writes x _ := .none rfl rfl
  marks x := by
    intro hmark
    cases hmark

private theorem TxOk.of_rel {S : List TableName} (h : TxOk E w) (hrel : (writesOnly S).rel w w')
    (hcache : w'.CacheOk)
    (hS : ∀ t ∈ [TableName.storage, .pendingStates, .levels, .encrypted], t ∉ S) : TxOk E w' := by
  have hstorage := hrel.2 .storage (hS _ (by decide))
  have hpending := hrel.2 .pendingStates (hS _ (by decide))
  refine ⟨hcache, fun a ha => ?_, fun x hx => ?_, fun x hx => ?_, fun x => ?_⟩
  · rw [Escrowed, proxyIn_eq_of_rel hrel (hS _ (by decide)) (hS _ (by decide))]
    exact h.escrowed a ha
  · rw [hrel.1]
    exact h.row x hx
  · cases h.writes x hx with
    | none h₁ h₂ => exact .none (hstorage ▸ h₁) (hpending ▸ h₂)
    | stored v h₁ h₂ => exact .stored v (hstorage ▸ h₁) (hpending ▸ h₂)
  · rw [hpending]
    exact h.marks x

/-- A store to a slot of an escrowed contract leaves a row and a mark; a zero changes nothing where
there is no row. -/
private theorem writesOk_of_stored (h : TxOk E w)
    (hstored : Stored (proxyIn w.tx.view contract) key value w w')
    (hzero : value = 0 → E contract → w.tx.view .storage (contract, key) = none) (hx : E x.1) :
    WritesOk w'.tx x := by
  obtain ⟨state, hstate, hstorage⟩ := hstored.storage
  have hstorage := hstorage x
  have hpending := hstored.pendingStates x
  by_cases hkey : x = (proxyIn w.tx.view contract).translate key
  · rw [if_pos hkey] at hstorage
    obtain rfl : x = (contract, key) := hkey
    have hproxy : proxyIn w.tx.view contract = ⟨contract, none, .solidity⟩ := h.escrowed _ hx
    by_cases hvalue : value = 0
    · rw [if_pos hvalue] at hstorage
      rw [if_neg fun hmark => hmark.2.1 hvalue] at hpending
      have hview := hzero hvalue hx
      cases h.writes _ hx with
      | none hs hp =>
        have hcontent : w.tx.origin.content .storage (contract, key) = none := by
          rw [← hview, Tables.view, view, hs]
          rfl
        refine .none ?_ (hpending.trans hp)
        rw [hstorage, h.row _ hx hcontent, Option.map_none]
      | stored v hs _ =>
        rw [Tables.view, view, hs] at hview
        cases hview
    · rw [if_neg hvalue, hstate (by rw [hproxy])] at hstorage
      rw [if_pos ⟨rfl, (h.escrowed _ hx).marksPending hvalue⟩] at hpending
      exact .stored value hstorage hpending
  · rw [if_neg hkey] at hstorage
    rw [if_neg fun hmark => hkey hmark.1] at hpending
    cases h.writes x hx with
    | none hs hp => exact .none (hstorage.trans hs) (hpending.trans hp)
    | stored v hs hp => exact .stored v (hstorage.trans hs) (hpending.trans hp)

private theorem TxOk.stored (h : TxOk E w)
    (hstored : Stored (proxyIn w.tx.view contract) key value w w')
    (hzero : value = 0 → E contract → w.tx.view .storage (contract, key) = none) : TxOk E w' := by
  refine ⟨hstored.cache, fun a ha => ?_, fun x hx => ?_, fun x hx => ?_, fun x hmark => ?_⟩
  · rw [Escrowed, proxyIn_eq_of_rel hstored.tables (by decide) (by decide)]
    exact h.escrowed a ha
  · rw [hstored.tables.1]
    exact h.row x hx
  · exact writesOk_of_stored h hstored hzero hx
  · rw [hstored.pendingStates x] at hmark
    split at hmark
    next => cases hmark
    next => exact h.marks x hmark

/-- The storage instructions keep a transaction right. -/
theorem TxOk.exec {op : StorageOp} {r : Option Word} (h : TxOk E w) (hrun : op.exec pf w = .ok r w')
    (hzero : ∀ contract key, op = .sstore contract key 0 → E contract →
      w.tx.view .storage (contract, key) = none) : TxOk E w' := by
  cases op with
  | sstore contract key value =>
    refine h.stored (StorageOp.stored_of_exec h.cache hrun) fun hvalue hE => ?_
    exact hzero contract key (by rw [hvalue]) hE
  | sload contract key =>
    have hloaded := StorageOp.loaded_of_exec h.cache hrun
    exact h.of_rel hloaded.tables hloaded.cache (by decide)

section Commit

variable {tx : Tx}

private theorem SlotOk.congr {store' : Store} {sent' : List Sent} {chain' : Chain}
    (h : SlotOk escrow store sent chain x)
    (hrow : (store' .storage).rows x = (store .storage).rows x)
    (hpending : store'.content .pendingStates x = store.content .pendingStates x)
    (hlists : ∀ m ∈ sent', m.message.call.Lists x → m ∈ sent)
    (hcarried : carried sent' x = carried sent x)
    (hchain : (∀ m ∈ sent, ¬ m.message.call.Lists x) → chain' x = chain x) :
    SlotOk escrow store' sent' chain' x := by
  have hcontent : store'.content .storage x = store.content .storage x := by
    simp only [Tables.content, VersionedMap.content, hrow]
  cases h with
  | untouched hrow' hpending' hsent hchain' =>
    refine .untouched (hrow.trans hrow') (hpending.trans hpending') (fun m hm hlist => ?_)
      ((hchain hsent).trans hchain')
    exact hsent m (hlists m hm hlist) hlist
  | written v hrow' hsent =>
    refine .written v (hcontent.trans hrow') fun hnone => ?_
    rw [hcarried]
    exact hsent (hpending.symm.trans hnone)

/-- Committing a transaction keeps every slot of an escrowed contract right. -/
theorem SlotOk.tryCommit (h : SlotOk escrow s.store sent chain x) (hwrites : WritesOk tx x) :
    SlotOk escrow (s.tryCommit tx).store sent chain x := by
  by_cases hvalid : tx.Valid s.store
  · rw [Bridge.tryCommit_of_valid hvalid]
    cases hwrites with
    | none hstorage hpending =>
      refine h.congr (rows_commit_of_lookup_eq_none hstorage) ?_ (fun _ hm _ => hm) rfl fun _ => rfl
      exact (content_commit _ _ _ x).trans (by rw [hpending]; rfl)
    | stored v hstorage hpending =>
      refine .written v ?_ fun hnone => ?_
      · exact (content_commit _ _ _ x).trans (by rw [hstorage]; rfl)
      · have hmark : ((tx .pendingStates).commit (s.version + 1) (s.store .pendingStates)).content x
            = some () := by
          rw [content_commit, hpending]
          rfl
        cases hmark.symm.trans hnone
  · rwa [Bridge.tryCommit_of_not_valid hvalid]

/-- A commit that leaves the pending set alone stores nothing to an escrowed contract. -/
theorem content_storage_of_pendingStates_eq (hb : s.store.Bounded s.version)
    (hwrites : WritesOk tx x)
    (heq : (s.tryCommit tx).store .pendingStates = s.store .pendingStates) :
    (s.tryCommit tx).store.content .storage x = s.store.content .storage x := by
  by_cases hvalid : tx.Valid s.store
  · rw [Bridge.tryCommit_of_valid hvalid] at heq ⊢
    cases hwrites with
    | none hstorage _ => exact (content_commit _ _ _ x).trans (by rw [hstorage]; rfl)
    | stored v _ hpending =>
      have hrow := congrArg (fun m => VersionedMap.rows m x) heq
      have hnew : ((tx .pendingStates).commit (s.version + 1) (s.store .pendingStates)).rows x =
          some ⟨s.version + 1, some ()⟩ := by
        rw [rows_commit, hpending]
        rfl
      have hle := (hb .pendingStates).row_le x _ (hrow.symm.trans hnew)
      simp only at hle
      omega
  · rw [Bridge.tryCommit_of_not_valid hvalid]

private theorem content_pendingStates_tryCommit
    (hmark : (tx .pendingStates).writes.lookup x ≠ some none)
    (hx : s.store.content .pendingStates x = some ()) :
    (s.tryCommit tx).store.content .pendingStates x = some () := by
  by_cases hvalid : tx.Valid s.store
  · rw [Bridge.tryCommit_of_valid hvalid]
    refine (content_commit _ _ _ x).trans ?_
    rcases hw : (tx .pendingStates).writes.lookup x with _ | _ | ⟨⟩
    · exact hx
    · exact absurd hw hmark
    · rfl
  · rwa [Bridge.tryCommit_of_not_valid hvalid]

/-- What a committed transaction must satisfy for the invariant to survive. -/
structure CommitOk (E : Address → Prop) (tx : Tx) : Prop where
  levels : (tx .levels).writes = ∅
  encrypted : (tx .encrypted).writes = ∅
  writes : ∀ x, E x.1 → WritesOk tx x
  marks : ∀ x, (tx .pendingStates).writes.lookup x ≠ some none

private theorem BeatOk.tryCommit (h : BeatOk E s.store b) (hb : s.store.Bounded s.version)
    (horigin : Tables.Extends b.tx.origin s.store) (htx : CommitOk E tx) :
    BeatOk E (s.tryCommit tx).store b := by
  refine ⟨h.lists, h.value, fun x hx => ?_, fun heq x hx => ?_⟩
  · exact content_pendingStates_tryCommit (htx.marks x) (h.pending x hx)
  · have hmid := (horigin .pendingStates).eq_of_eq (Bridge.extends_tryCommit hb tx _) heq
    rw [content_storage_of_pendingStates_eq hb (htx.writes x hx) (heq.trans hmid.symm)]
    exact h.fresh hmid x hx

private theorem escrowed_tryCommit (hlevels : (tx .levels).writes = ∅)
    (hencrypted : (tx .encrypted).writes = ∅) (a : Address) :
    Escrowed (s.tryCommit tx).store.content a ↔ Escrowed s.store.content a := by
  rw [Escrowed, proxyIn, Tables.content, Tables.content, Bridge.store_tryCommit_of_writes_eq_empty s
    hlevels, Bridge.store_tryCommit_of_writes_eq_empty s hencrypted]
  rfl

private theorem Inv.tryCommit (h : Inv E pf escrow s) (htx : CommitOk E tx) :
    Inv E pf escrow (s.tryCommit tx) where
  sound := h.sound.tryCommit tx
  escrowed a := (h.escrowed a).trans (escrowed_tryCommit htx.levels htx.encrypted a).symm
  slots x hx := (h.slots x hx).tryCommit (htx.writes x hx)
  running := h.running
  beat b hb := (h.beat b hb).tryCommit h.sound.bounded (h.sound.beat b hb).origin htx

end Commit

private theorem commitOk_of_running (h : Inv E pf escrow s) {i : Nat} (hw : s.running i = some w) :
    CommitOk E w.tx where
  levels := (h.sound.running i w hw).writes .levels (by decide)
  encrypted := (h.sound.running i w hw).writes .encrypted (by decide)
  writes := (h.running i w hw).writes
  marks := (h.running i w hw).marks

private theorem commitOk_of_onSuccess {target : Address} {keys : List Word}
    (hrun : onSuccess target keys (World.start store) = .ok () w) : CommitOk E w.tx := by
  have hrel := (keeps_onSuccess target keys).of_ok hrun
  have hpending : (w.tx .pendingStates).writes = ∅ := hrel.2 .pendingStates (by decide)
  have hstorage : (w.tx .storage).writes = ∅ := hrel.2 .storage (by decide)
  refine ⟨hrel.2 .levels (by decide), hrel.2 .encrypted (by decide), fun x _ => ?_, fun x => ?_⟩
  · exact .none (by rw [hstorage]; rfl) (by rw [hpending]; rfl)
  · rw [hpending]
    intro hmark
    cases hmark

/-- A heartbeat that begins while one contract has pending slots is right. -/
theorem beatOk_of_onHeartBeat {visited : List StorageKey} {m : Outgoing}
    (hvisited : visited.Perm (store .pendingStates).live)
    (hone : SingleContract (store .pendingStates).live)
    (hrun : onHeartBeat pf visited (World.start store) = .ok (some m) w) :
    BeatOk E store ⟨m, visited, w.tx⟩ := by
  have hcollected := collected_of_onHeartBeat hrun
  have horigin : w.tx.origin = store := hcollected.writes.1
  have hone : SingleContract visited := fun x hx y hy =>
    hone x (hvisited.mem_iff.mp hx) y (hvisited.mem_iff.mp hy)
  refine ⟨fun x => hcollected.lists_iff hone, fun x hx => ?_, fun x hx => ?_, fun _ x _ => ?_⟩
  · rw [horigin]
    exact hcollected.value?_eq hone hx
  · exact (mem_live_pendingStates hvisited x).mp hx
  · rw [horigin]

private theorem carried_cons_of_not_lists (h : ¬ m.message.call.Lists x) (sent : List Sent) :
    carried (m :: sent) x = carried sent x := by
  rw [carried, carried, List.find?_cons_of_neg (by simpa using h)]

private theorem carried_cons_of_lists (h : m.message.call.Lists x) (sent : List Sent) :
    carried (m :: sent) x = m.message.call.value? x := by
  rw [carried, List.find?_cons_of_pos (by simpa using h), Option.bind_some]

/-- The commit and the message of a heartbeat keep every slot of an escrowed contract right. -/
theorem slotOk_of_beatCommit (h : Inv E pf escrow s) (hb : s.beat = some b)
    (hm : m.message = b.message) (hx : E x.1) :
    SlotOk escrow (s.tryCommit b.tx).store (m :: s.sent) s.chain x := by
  have hbeating := h.sound.beat b hb
  have hok := h.beat b hb
  have hstorage : (s.tryCommit b.tx).store .storage = s.store .storage :=
    Bridge.store_tryCommit_of_writes_eq_empty s (hbeating.writes_eq_empty (by decide))
  have hlists : m.message.call.Lists x ↔ x ∈ b.visited := by
    rw [hm]
    exact hok.lists x
  by_cases hmem : x ∈ b.visited
  · have hpending := hok.pending x hmem
    cases h.slots x hx with
    | untouched _ hnone => cases hpending.symm.trans hnone
    | written v hrow _ =>
      refine .written v (by rw [Tables.content, hstorage]; exact hrow) fun hnone => ?_
      by_cases hvalid : b.tx.Valid s.store
      · have hfresh := hok.fresh (hbeating.pendingStates_eq hvalid) x hx
        rw [carried_cons_of_lists (hlists.mpr hmem), hm, hok.value x hmem, TransactionSync.rowValue,
          ← hfresh, hrow, Option.map_some, Option.getD_some, wordOfBytes_wordBytes]
      · rw [Bridge.tryCommit_of_not_valid hvalid] at hnone
        cases hpending.symm.trans hnone
  · have hnot : ¬ m.message.call.Lists x := fun hlist => hmem (hlists.mp hlist)
    refine (h.slots x hx).congr (by rw [hstorage]) ?_ (fun m' hm' hlist => ?_)
      (carried_cons_of_not_lists hnot s.sent) fun _ => rfl
    · by_cases hvalid : b.tx.Valid s.store
      · rw [Bridge.tryCommit_of_valid hvalid]
        refine (content_commit _ _ _ x).trans ?_
        rw [hbeating.lookup_pendingStates, if_neg hmem]
        rfl
      · rw [Bridge.tryCommit_of_not_valid hvalid]
    · rcases List.mem_cons.mp hm' with rfl | hm'
      · exact absurd hlist hnot
      · exact hm'

private theorem SlotOk.apply (hm : m ∈ sent) (h : SlotOk escrow store sent chain x) :
    SlotOk escrow store sent (m.message.call.apply chain) x := by
  refine h.congr rfl rfl (fun _ hm' _ => hm') rfl fun hnot => ?_
  change (m.message.call.value? x).getD (chain x) = chain x
  rw [UpdateState.value?_eq_none (hnot m hm), Option.getD_none]

/-- Every step that meets the condition keeps the invariant. -/
theorem Inv.step {s' : Bridge} {a : Action} (h : Inv E pf escrow s) (hok : Delivers s a)
    (hstep : Bridge.Stepped pf s a s') : Inv E pf escrow s' := by
  have hsound := h.sound.step hstep
  cases hstep with
  | txBegin hi =>
    refine ⟨hsound, h.escrowed, h.slots, Bridge.running_update h.running ?_, h.beat⟩
    rintro w ⟨⟩
    exact txOk_start h
  | @txStorage i op answers w w' r hw hrun =>
    refine ⟨hsound, h.escrowed, h.slots, Bridge.running_update h.running ?_, h.beat⟩
    rintro w'' ⟨⟩
    refine (h.running i w hw).exec hrun fun contract key hop hcontract => ?_
    subst hop
    exact hok rfl ((h.escrowed contract).mp hcontract) w hw
  | @txNonce i w w' hw hrun =>
    refine ⟨hsound, h.escrowed, h.slots, Bridge.running_update h.running ?_, h.beat⟩
    rintro w'' ⟨⟩
    have hrel : (writesOnly [.teeNonces]).rel w w' :=
      (keeps_incrementNonce writesOnly.reads (writesOnly.puts (by decide))).of_ok hrun
    have hcache : w'.cache = w.cache :=
      (keeps_incrementNonce sameCache.reads (sameCache.puts _)).of_ok hrun
    have hw := h.running i w hw
    exact hw.of_rel hrel (hw.cache.of_rel hrel (by decide) (by decide) hcache) (by decide)
  | txEnd ha =>
    exact ⟨hsound, h.escrowed, h.slots, Bridge.running_update h.running (by simp), h.beat⟩
  | txCommit hw =>
    have hcommit := h.tryCommit (commitOk_of_running h hw)
    exact ⟨hsound, hcommit.escrowed, hcommit.slots,
      Bridge.running_update hcommit.running (by simp), hcommit.beat⟩
  | beatIdle visited => exact h
  | beatBegin hbeat hvisited hrun =>
    refine ⟨hsound, h.escrowed, h.slots, h.running, ?_⟩
    rintro b ⟨⟩
    exact beatOk_of_onHeartBeat hvisited hok hrun
  | @beatCommit b hb =>
    have hbeating := h.sound.beat b hb
    refine ⟨hsound, fun a => (h.escrowed a).trans ?_, fun x hx => ?_, h.running,
      fun b hb => (nomatch hb)⟩
    · exact (escrowed_tryCommit (hbeating.writes_eq_empty (by decide))
        (hbeating.writes_eq_empty (by decide)) a).symm
    · exact slotOk_of_beatCommit h hb rfl hx
  | acknowledge hqueue hbeat htarget hkeys hrun =>
    have hcommit := h.tryCommit (commitOk_of_onSuccess hrun)
    exact ⟨hsound, hcommit.escrowed, hcommit.slots, hcommit.running, hcommit.beat⟩
  | chainExecute hm =>
    refine ⟨hsound, h.escrowed, fun x hx => ?_, h.running, h.beat⟩
    exact (h.slots x hx).apply (List.mem_of_getElem? hm)
  | hostSend | rpcAccept | rpcReject | parseFailed =>
    exact ⟨hsound, h.escrowed, h.slots, h.running, h.beat⟩

private theorem inv_start {version : Nat} (chain : Chain) (hb : store.Bounded version)
    (hfresh : ∀ x, Escrowed store.content x.1 →
      (store .storage).rows x = none ∧ store.content .pendingStates x = none) :
    Inv (Escrowed store.content) pf chain (Bridge.start store version chain) where
  sound := Bridge.sound_start chain hb
  escrowed _ := Iff.rfl
  slots x hx := .untouched (hfresh x hx).1 (hfresh x hx).2 (fun _ hm => (nomatch hm)) rfl
  running _ _ hw := nomatch hw
  beat _ hb := nomatch hb

end Delivery

/-- No update is lost in a run that begins with freshly escrowed contracts, stores zero only where
there is no row, and starts heartbeats only while one contract has pending slots. -/
theorem upToDate_of_reaches (pf : Platform) (store : Store) (version : Nat) (escrow : Chain)
    (hb : store.Bounded version) (hfresh : ∀ x, Escrowed store.content x.1 →
      (store .storage).rows x = none ∧ store.content .pendingStates x = none) (s : Bridge)
    (hs : Reaches (Bridge.step pf) Delivers (Bridge.start store version escrow) s)
    (x : StorageKey) (hx : Escrowed store.content x.1) : UpToDate pf escrow s x := by
  have hinv : Delivery.Inv (Escrowed store.content) pf escrow s :=
    hs.invariant (Delivery.inv_start escrow hb hfresh) fun _ _ _ h hok hstep =>
      h.step hok (Bridge.stepped_of_step hstep)
  exact hinv.upToDate hx

/-- What a run is observed to leave for a slot: its mark, its value, and the value last sent. -/
def observeSlot (pf : Platform) (x : StorageKey) (s : Bridge) :
    Option Unit × Option Word × Option Word :=
  (s.store.content .pendingStates x, currentValue pf s x, carried s.sent x)

/-- After a store and a heartbeat the slot is up to date. -/
theorem upToDate_after_heartbeat :
    ∃ s, performAll (Bridge.step .mute) Delivers (.start (escrowedStore [7]) 1 fun _ => 3)
        [.txBegin 0, .txStorage 0 (.sstore 7 1 5) true, .txCommit 0, .beatBegin [(7, 1)],
          .beatCommit] = some s ∧
      s.store.content .pendingStates (7, 1) = none ∧ UpToDate .mute (fun _ => 3) s (7, 1) := by
  have hrun : (performAll (Bridge.step .mute) Delivers (.start (escrowedStore [7]) 1 fun _ => 3)
      [.txBegin 0, .txStorage 0 (.sstore 7 1 5) true, .txCommit 0, .beatBegin [(7, 1)],
        .beatCommit]).map (observeSlot .mute (7, 1)) = some (none, some 5, some 5) := by
    decide +kernel
  obtain ⟨s, hs, hobserved⟩ := Option.map_eq_some_iff.mp hrun
  refine ⟨s, hs, congrArg Prod.fst hobserved, ?_⟩
  exact upToDate_of_reaches .mute (escrowedStore [7]) 1 (fun _ => 3) (bounded_escrowedStore [7])
    (fun _ _ => ⟨rfl, rfl⟩) s (reaches_of_performAll .refl hs) (7, 1) (by decide +kernel)

/-- Storing a value and then zero before a heartbeat: the message carries zero, and the slot falls
back to its value on the chain. -/
theorem not_upToDate_after_zero_store :
    ∃ s, Reachable (Bridge.step .mute) (.start (escrowedStore [7]) 1 fun _ => 3) s ∧
      Escrowed (escrowedStore [7]).content 7 ∧ ¬ UpToDate .mute (fun _ => 3) s (7, 1) := by
  have hrun : (performAll (Bridge.step .mute) (fun _ _ => True)
      (.start (escrowedStore [7]) 1 fun _ => 3)
      [.txBegin 0, .txStorage 0 (.sstore 7 1 5) true, .txStorage 0 (.sstore 7 1 0) true,
        .txCommit 0, .beatBegin [(7, 1)], .beatCommit]).map (observeSlot .mute (7, 1)) =
      some (none, some 3, some 0) := by
    decide +kernel
  obtain ⟨s, hs, hobserved⟩ := Option.map_eq_some_iff.mp hrun
  simp only [observeSlot, Prod.mk.injEq] at hobserved
  obtain ⟨hpending, hvalue, hcarried⟩ := hobserved
  refine ⟨s, reaches_of_performAll .refl hs, by decide +kernel, fun h => ?_⟩
  have hclaimed := h hpending
  rw [hvalue, hcarried] at hclaimed
  exact absurd hclaimed (by decide)

end CloakBridge.Tee
