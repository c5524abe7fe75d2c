import CloakBridge.Core.Run
import CloakBridge.Models.Tee.EthereumState
import CloakBridge.Models.Tee.Web3Operation

/-!
# The bridge: transactions, heartbeats, host and chain

Transactions of the RPC frontend run concurrently, each on the store it began with; the
messages of the ring buffer are handled one after the other, so only one heartbeat is
between its begin and its commit. A commit applies the collected writes if validation
finds no conflict; `on_heart_beat` does not look at the outcome. The chain may execute any
update that was handed to `send`, at any time and in any order, or never.
-/

namespace CloakBridge.Tee

open Kv Function Web3Operation

/-- The tables once the given contracts were escrowed and a TEE account was created. -/
def escrowedStore (contracts : List Address) : Store
  | .levels => .ofRows 1 (contracts.map fun c => (c, .solidity))
  | .teeAddress => .ofRows 1 [((), 1)]
  | .teePrivateKey => .ofRows 1 [(1, [])]
  | _ => .ofRows 0 []

/-- The store with escrowed contracts has version 1. -/
theorem bounded_escrowedStore (contracts : List Address) : (escrowedStore contracts).Bounded 1 := by
  intro t
  cases t
  case levels => exact VersionedMap.bounded_ofRows 1 _
  case teeAddress => exact VersionedMap.bounded_ofRows 1 _
  case teePrivateKey => exact VersionedMap.bounded_ofRows 1 _
  all_goals exact (VersionedMap.bounded_ofRows 0 []).mono (Nat.zero_le 1)

/-- One `SSTORE` or `SLOAD` of a contract. -/
inductive StorageOp where
  | sstore (contract key value : Word)
  | sload (contract key : Word)
  deriving DecidableEq, Repr

/-- Execute the operation on the storage of the contract; a load returns its value. -/
def StorageOp.exec (pf : Platform) : StorageOp → Exec (Option Word)
  | .sstore contract key value => do
    let p ← EthereumState.get contract
    p.sstore pf key value
    pure none
  | .sload contract key => do
    let p ← EthereumState.get contract
    let value ← p.load pf key
    pure (some value)

/-- Storage of all contracts on the chain. -/
abbrev Chain := StorageKey → Word

/-- The platform whose host call reads the given chain, or fails. -/
def Platform.withChain (pf : Platform) (chain : Chain) (answers : Bool) : Platform :=
  { pf with exportState := fun _ a k => if answers then some (chain (a, k)) else none }

namespace UpdateState

/-- The value an update carries for a slot; the last occurrence of a key counts. -/
def value? (m : UpdateState) (x : StorageKey) : Option Word :=
  if m.contract = x.1 then (m.keys.zip m.vals).reverse.lookup x.2 else none

/-- The update lists the slot: it is addressed to the contract and names the key. -/
def Lists (m : UpdateState) (x : StorageKey) : Prop := m.contract = x.1 ∧ x.2 ∈ m.keys

instance (m : UpdateState) (x : StorageKey) : Decidable (m.Lists x) :=
  inferInstanceAs (Decidable (_ ∧ _))

/-- Execute the update on the chain. -/
def apply (m : UpdateState) (chain : Chain) : Chain := fun x => (m.value? x).getD (chain x)

end UpdateState

/-- A message that was handed to `send`, with its number in the order of sending and the slots the
heartbeat had visited. -/
structure Sent where
  id : Nat
  message : Outgoing
  slots : List StorageKey

/-- `Web3Msg::success`: the entries the host found for the answered transaction, and the number of
that transaction. -/
structure Success where
  id : Nat
  target : Option Address
  keys : Option (List Word)

/-- `Web3HostImpl`: the two maps keyed by transaction hash. -/
structure Host where
  pending : ByteString → Option Address
  pendingKeys : ByteString → Option (List Word)

namespace Host

/-- Enter the target and the keys of a message under the hash of its transaction; entries that are
already there stay. -/
def record (h : Host) (m : Outgoing) : Host :=
  let txHash := keccak256 m.raw
  { pending := update h.pending txHash
      (some ((h.pending txHash).getD m.call.contract))
    pendingKeys := update h.pendingKeys txHash
      (some ((h.pendingKeys txHash).getD m.call.keys)) }

/-- The success message for a transaction that was answered with its hash. -/
def success (h : Host) (m : Sent) : Success :=
  let txHash := Keccak.keccak256 m.message.raw
  ⟨m.id, h.pending txHash, h.pendingKeys txHash⟩

/-- Forget the entries of a transaction. -/
def erase (h : Host) (txHash : ByteString) : Host :=
  ⟨update h.pending txHash none, update h.pendingKeys txHash none⟩

end Host

/-- A heartbeat between its begin and its commit. -/
structure Beat where
  message : Outgoing
  visited : List StorageKey
  tx : Tx

/-- The state of the whole system. -/
structure Bridge where
  /-- The committed tables, and the version of the last commit. -/
  store : Store
  version : Nat
  /-- Transactions of the RPC frontend in execution. -/
  running : Nat → Option World
  beat : Option Beat
  /-- Messages in the ring buffer to the host. -/
  toHost : List Sent
  host : Host
  /-- Raw transactions that the RPC endpoint has not answered. -/
  requests : List Sent
  /-- Messages in the ring buffer to the enclave. -/
  toEnclave : List Success
  /-- Everything handed to `send`, the latest first. -/
  sent : List Sent
  /-- The numbers of the messages whose success was processed. -/
  processed : List Nat
  chain : Chain

/-- What can happen. -/
inductive Action where
  | txBegin (i : Nat)
  | txStorage (i : Nat) (op : StorageOp) (answers : Bool)
  | txNonce (i : Nat)
  | txCommit (i : Nat)
  | txAbort (i : Nat)
  | beatBegin (visited : List StorageKey)
  | beatCommit
  | hostSend
  | rpcReply (i : Nat) (accepted : Bool)
  | acknowledge
  | chainExecute (i : Nat)

/-- The action can end a transaction without a commit: by an exception, or by giving up. -/
def Action.MayEnd (a : Action) (i : Nat) : Prop :=
  (∃ op answers, a = .txStorage i op answers) ∨ a = .txNonce i ∨ a = .txAbort i

namespace Bridge

/-- The system with nothing in progress and nothing sent. -/
def start (store : Store) (version : Nat) (chain : Chain) : Bridge where
  store := store
  version := version
  running _ := none
  beat := none
  toHost := []
  host := ⟨fun _ => none, fun _ => none⟩
  requests := []
  toEnclave := []
  sent := []
  processed := []
  chain := chain

/-- Commit a transaction: apply its writes at the next version if it validates. -/
def tryCommit (s : Bridge) (tx : Tx) : Bridge :=
  { s with
    store := if tx.Valid s.store then tx.commit (s.version + 1) s.store else s.store
    version := if tx.Valid s.store then s.version + 1 else s.version }

/-- Let a running transaction execute code; an exception ends it without a commit. -/
def advance {α : Type} (s : Bridge) (i : Nat) (x : Exec α) : Option Bridge :=
  (s.running i).map fun w =>
    match x w with
    | .ok _ w' => { s with running := update s.running i (some w') }
    | .error _ _ => { s with running := update s.running i none }

/-- A heartbeat begins: everything up to the commit happens on the store of this moment. -/
def beatBegin (pf : Platform) (s : Bridge) (visited : List StorageKey) : Option Bridge :=
  if s.beat.isNone ∧ visited.Perm (s.store .pendingStates).live then
    match onHeartBeat pf visited (World.start s.store) with
    | .ok (some m) w => some { s with beat := some ⟨m, visited, w.tx⟩ }
    | _ => some s
  else none

/-- `tx.commit()` and `send(..)` -/
def beatCommit (s : Bridge) : Option Bridge :=
  s.beat.map fun b =>
    let message : Sent := ⟨s.sent.length, b.message, b.visited⟩
    { s.tryCommit b.tx with
      beat := none
      toHost := s.toHost ++ [message]
      sent := message :: s.sent }

/-- The host's `Web3Msg::send` handler. -/
def hostSend (s : Bridge) : Option Bridge :=
  match s.toHost with
  | [] => none
  | m :: toHost =>
    some { s with toHost := toHost, requests := s.requests ++ [m], host := s.host.record m.message }

/-- The endpoint answers a request, with the hash of its bytes or with an error. -/
def rpcReply (s : Bridge) (i : Nat) (accepted : Bool) : Option Bridge :=
  (s.requests[i]?).map fun m =>
    if accepted then
      { s with
        requests := s.requests.eraseIdx i
        toEnclave := s.toEnclave ++ [s.host.success m]
        host := s.host.erase (Keccak.keccak256 m.message.raw) }
    else { s with requests := s.requests.eraseIdx i }

/-- The enclave's `Web3Msg::success` handler; without entries it fails while parsing. It is not
entered while a heartbeat is in progress. -/
def acknowledge (s : Bridge) : Option Bridge :=
  match s.toEnclave, s.beat with
  | m :: toEnclave, none =>
    let s' := { s with toEnclave := toEnclave, processed := m.id :: s.processed }
    match m.target, m.keys with
    | some target, some keys =>
      match onSuccess target keys (World.start s.store) with
      | .ok _ w => some (s'.tryCommit w.tx)
      | .error _ _ => some s'
    | _, _ => some s'
  | _, _ => none

variable {pf : Platform} {s s' : Bridge}

private theorem onSuccess_ok (target : Address) (keys : List Word) (w : World) :
    ∃ w', onSuccess target keys w = .ok () w' := by
  unfold onSuccess
  induction keys generalizing w with
  | nil => exact ⟨w, rfl⟩
  | cons key keys ih => exact ih { w with tx := w.tx.remove .syncs (target, key) }

/-- One step of the system. -/
def step (pf : Platform) (s : Bridge) : Action → Option Bridge
  | .txBegin i =>
    if (s.running i).isNone then
      some { s with running := update s.running i (some (World.start s.store)) }
    else none
  | .txStorage i op answers => s.advance i (op.exec (pf.withChain s.chain answers))
  | .txNonce i => s.advance i incrementNonce
  | .txCommit i =>
    (s.running i).map fun w =>
      { s.tryCommit w.tx with running := update s.running i none }
  | .txAbort i => some { s with running := update s.running i none }
  | .beatBegin visited => s.beatBegin pf visited
  | .beatCommit => s.beatCommit
  | .hostSend => s.hostSend
  | .rpcReply i accepted => s.rpcReply i accepted
  | .acknowledge => s.acknowledge
  | .chainExecute i =>
    (s.sent[i]?).map fun m => { s with chain := m.message.call.apply s.chain }

/-- The steps of the system, one constructor for each outcome an action can have. -/
inductive Stepped (pf : Platform) (s : Bridge) : Action → Bridge → Prop
  | txBegin {i : Nat} (hi : s.running i = none) :
    Stepped pf s (.txBegin i)
      { s with running := update s.running i (some (World.start s.store)) }
  | txStorage {i : Nat} {op : StorageOp} {answers : Bool} {w w' : World} {r : Option Word}
    (hw : s.running i = some w) (hrun : op.exec (pf.withChain s.chain answers) w = .ok r w') :
    Stepped pf s (.txStorage i op answers)
      { s with running := update s.running i (some w') }
  | txNonce {i : Nat} {w w' : World} (hw : s.running i = some w)
    (hrun : incrementNonce w = .ok () w') :
    Stepped pf s (.txNonce i) { s with running := update s.running i (some w') }
  | txEnd {a : Action} {i : Nat} (ha : a.MayEnd i) :
    Stepped pf s a { s with running := update s.running i none }
  | txCommit {i : Nat} {w : World} (hw : s.running i = some w) :
    Stepped pf s (.txCommit i)
      { s.tryCommit w.tx with running := update s.running i none }
  | beatIdle (visited : List StorageKey) : Stepped pf s (.beatBegin visited) s
  | beatBegin {visited : List StorageKey} {m : Outgoing} {w : World} (hbeat : s.beat = none)
    (hvisited : visited.Perm (s.store .pendingStates).live)
    (hrun : onHeartBeat pf visited (World.start s.store) = .ok (some m) w) :
    Stepped pf s (.beatBegin visited) { s with beat := some ⟨m, visited, w.tx⟩ }
  | beatCommit {b : Beat} (hb : s.beat = some b) :
    Stepped pf s .beatCommit
      { s.tryCommit b.tx with
        beat := none
        toHost := s.toHost ++ [⟨s.sent.length, b.message, b.visited⟩]
        sent := ⟨s.sent.length, b.message, b.visited⟩ :: s.sent }
  | hostSend {m : Sent} {toHost : List Sent} (hqueue : s.toHost = m :: toHost) :
    Stepped pf s .hostSend
      { s with toHost := toHost, requests := s.requests ++ [m], host := s.host.record m.message }
  | rpcAccept {i : Nat} {m : Sent} (hm : s.requests[i]? = some m) :
    Stepped pf s (.rpcReply i true)
      { s with
        requests := s.requests.eraseIdx i
        toEnclave := s.toEnclave ++ [s.host.success m]
        host := s.host.erase (Keccak.keccak256 m.message.raw) }
  | rpcReject {i : Nat} {m : Sent} (hm : s.requests[i]? = some m) :
    Stepped pf s (.rpcReply i false) { s with requests := s.requests.eraseIdx i }
  | parseFailed {m : Success} {toEnclave : List Success} (hqueue : s.toEnclave = m :: toEnclave)
    (hbeat : s.beat = none) (hm : m.target = none ∨ m.keys = none) :
    Stepped pf s .acknowledge
      { s with toEnclave := toEnclave, processed := m.id :: s.processed }
  | acknowledge {m : Success} {toEnclave : List Success} {target : Address} {keys : List Word}
    {w : World} (hqueue : s.toEnclave = m :: toEnclave) (hbeat : s.beat = none)
    (htarget : m.target = some target) (hkeys : m.keys = some keys)
    (hrun : onSuccess target keys (World.start s.store) = .ok () w) :
    Stepped pf s .acknowledge
      { s.tryCommit w.tx with toEnclave := toEnclave, processed := m.id :: s.processed }
  | chainExecute {i : Nat} {m : Sent} (hm : s.sent[i]? = some m) :
    Stepped pf s (.chainExecute i) { s with chain := m.message.call.apply s.chain }

private theorem stepped_of_beatBegin {visited : List StorageKey}
    (h : s.beatBegin pf visited = some s') :
    Stepped pf s (.beatBegin visited) s' := by
  unfold beatBegin at h
  split at h
  next hguard =>
    split at h
    next m w hrun =>
      cases h
      exact .beatBegin (Option.isNone_iff_eq_none.mp hguard.1) hguard.2 hrun
    next =>
      cases h
      exact .beatIdle visited
  next => cases h

private theorem stepped_of_acknowledge (h : s.acknowledge = some s') :
    Stepped pf s .acknowledge s' := by
  unfold acknowledge at h
  split at h
  next m toEnclave hqueue hbeat =>
    simp only at h
    split at h
    next target keys htarget hkeys =>
      obtain ⟨w, hrun⟩ := onSuccess_ok target keys (World.start s.store)
      rw [hrun] at h
      cases h
      exact .acknowledge hqueue hbeat htarget hkeys hrun
    next hnone =>
      cases h
      refine .parseFailed hqueue hbeat ?_
      cases htarget : m.target with
      | none => exact Or.inl rfl
      | some target =>
        cases hkeys : m.keys with
        | none => exact Or.inr rfl
        | some keys => exact absurd hkeys (hnone target keys htarget)
  next => cases h

private theorem advance_eq_some {α : Type} {i : Nat} {x : Exec α} (h : s.advance i x = some s') :
    ∃ w, s.running i = some w ∧ ((∃ r w', x w = .ok r w' ∧
          s' = { s with running := update s.running i (some w') }) ∨
        s' = { s with running := update s.running i none }) := by
  obtain ⟨w, hw, rfl⟩ := Option.map_eq_some_iff.mp h
  refine ⟨w, hw, ?_⟩
  cases hrun : x w with
  | ok r w' => exact Or.inl ⟨r, w', rfl, rfl⟩
  | error e w' => exact Or.inr rfl

/-- Every step is one of the listed outcomes. -/
theorem stepped_of_step {a : Action} (h : s.step pf a = some s') : Stepped pf s a s' := by
  cases a with
  | txBegin i =>
    simp only [step] at h
    split at h
    next hi =>
      cases h
      exact .txBegin (Option.isNone_iff_eq_none.mp hi)
    next => cases h
  | txStorage i op answers =>
    obtain ⟨w, hw, ⟨r, w', hrun, rfl⟩ | rfl⟩ := advance_eq_some h
    · exact .txStorage hw hrun
    · exact .txEnd (Or.inl ⟨op, answers, rfl⟩)
  | txNonce i =>
    obtain ⟨w, hw, ⟨⟨⟩, w', hrun, rfl⟩ | rfl⟩ := advance_eq_some h
    · exact .txNonce hw hrun
    · exact .txEnd (Or.inr (Or.inl rfl))
  | txCommit i =>
    obtain ⟨w, hw, rfl⟩ := Option.map_eq_some_iff.mp h
    exact .txCommit hw
  | txAbort i =>
    cases h
    exact .txEnd (Or.inr (Or.inr rfl))
  | beatBegin visited => exact stepped_of_beatBegin h
  | beatCommit =>
    obtain ⟨b, hb, rfl⟩ := Option.map_eq_some_iff.mp h
    exact .beatCommit hb
  | hostSend =>
    simp only [step, hostSend] at h
    split at h
    next => cases h
    next m toHost hqueue =>
      cases h
      exact .hostSend hqueue
  | rpcReply i accepted =>
    obtain ⟨m, hm, rfl⟩ := Option.map_eq_some_iff.mp h
    cases accepted with
    | true => exact .rpcAccept hm
    | false => exact .rpcReject hm
  | acknowledge => exact stepped_of_acknowledge h
  | chainExecute i =>
    obtain ⟨m, hm, rfl⟩ := Option.map_eq_some_iff.mp h
    exact .chainExecute hm

end Bridge

end CloakBridge.Tee
