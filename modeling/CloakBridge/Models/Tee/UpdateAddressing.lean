import CloakBridge.Models.Tee.Bridge

/-!
# Which slots an update speaks for

An `updateState` call carries one contract address and parallel lists of keys and values.
A heartbeat fills it with the pending slots of all contracts, so the call speaks for the
slots it was collected from exactly when they belong to a single contract.
-/

namespace CloakBridge.Tee

open Kv List

/-- All given slots belong to one contract. -/
def SingleContract (slots : List StorageKey) : Prop := ∀ x ∈ slots, ∀ y ∈ slots, x.1 = y.1

instance (slots : List StorageKey) : Decidable (SingleContract slots) :=
  have (x : StorageKey) : Decidable (∀ y ∈ slots, x.1 = y.1) := List.decidableBAll _ slots
  List.decidableBAll _ slots

variable {slots : List StorageKey} {x : StorageKey} {k v : Word}

/-- Among entries made from slots, a key is found with the value of the slot it identifies. -/
private theorem lookup_map_slots (g : StorageKey → Word) (hx : x ∈ slots)
    (hkey : ∀ y ∈ slots, x.2 = y.2 → x = y) :
    (slots.map fun y => (y.2, g y)).lookup x.2 = some (g x) := by
  induction slots with
  | nil => cases hx
  | cons y slots ih =>
    rw [map_cons, lookup_cons]
    by_cases heq : x.2 = y.2
    · rw [heq, beq_self_eq_true, hkey y mem_cons_self heq]
    · have hmem : x ∈ slots := (mem_cons.mp hx).resolve_left fun h => heq (h ▸ rfl)
      rw [beq_false_of_ne heq]
      exact ih hmem fun z hz => hkey z (mem_cons_of_mem _ hz)

namespace UpdateState

/-- A slot that is not listed has no value. -/
theorem value?_eq_none {m : UpdateState} (h : ¬ m.Lists x) : m.value? x = none := by
  unfold value?
  split
  next hcontract =>
    refine lookup_eq_none_iff.mpr fun p hp => ?_
    have hkey : p.1 ∈ m.keys := (of_mem_zip (mem_reverse.mp hp)).1
    rw [bne_iff_ne]
    intro heq
    exact h ⟨hcontract, heq ▸ hkey⟩
  next => rfl

end UpdateState

namespace TransactionSync

variable {c : Contents} {visited : List StorageKey}

/-- The contracts of the entries are those of the visited slots. -/
theorem exists_mem_of_mem_statesOf {e : Address × Word × Word} (h : e ∈ statesOf c visited) :
    ∃ x ∈ visited, entryOf c x = e :=
  mem_map.mp ((statesOf_perm c visited).mem_iff.mp h)

private theorem mem_statesOf_of_mem (h : x ∈ visited) : entryOf c x ∈ statesOf c visited :=
  (statesOf_perm c visited).mem_iff.mpr (mem_map_of_mem h)

private theorem mem_zip_keys_vals {states : States} :
    (k, v) ∈ states.keys.zip states.vals ↔ ∃ a, (a, k, v) ∈ states := by
  rw [States.keys, States.vals, zip_map', mem_map]
  constructor
  · rintro ⟨e, he, heq⟩
    cases heq
    exact ⟨e.1, he⟩
  · rintro ⟨a, ha⟩
    exact ⟨(a, k, v), ha, rfl⟩

end TransactionSync

namespace Web3Operation

open TransactionSync

variable {visited : List StorageKey} {w w' : World} {m : Outgoing}

/-- The contract of an update is that of some visited slot. -/
theorem Collected.contract (h : Collected visited w w' m) :
    ∃ x ∈ visited, m.call.contract = x.1 := by
  obtain ⟨first, hfirst, hcall⟩ := h.call
  obtain ⟨x, hx, rfl⟩ := exists_mem_of_mem_statesOf (mem_of_head? hfirst)
  exact ⟨x, hx, by rw [hcall]; rfl⟩

/-- The keys of the message are those of the states. -/
theorem Collected.keys_eq (h : Collected visited w w' m) :
    m.call.keys = (statesOf w.tx.view visited).keys := by
  obtain ⟨first, -, hcall⟩ := h.call
  rw [hcall]

private theorem Collected.vals_eq (h : Collected visited w w' m) :
    m.call.vals = (statesOf w.tx.view visited).vals := by
  obtain ⟨first, -, hcall⟩ := h.call
  rw [hcall]

private theorem Collected.proof_eq (h : Collected visited w w' m) :
    m.call.proof = proofDigest (w.tx.view .proof m.call.contract)
      (keccak256 (oldStates w.tx.view (updateKeys visited))) := by
  obtain ⟨first, -, hcall⟩ := h.call
  rw [hcall]

private theorem Collected.mem_zip (h : Collected visited w w' m) :
    (k, v) ∈ m.call.keys.zip m.call.vals ↔
      ∃ x ∈ visited, x.2 = k ∧ rowValue w.tx.view x = v := by
  rw [h.keys_eq, h.vals_eq, mem_zip_keys_vals]
  constructor
  · rintro ⟨a, ha⟩
    obtain ⟨x, hx, heq⟩ := exists_mem_of_mem_statesOf ha
    cases heq
    exact ⟨x, hx, rfl, rfl⟩
  · rintro ⟨x, hx, rfl, rfl⟩
    exact ⟨x.1, mem_statesOf_of_mem hx⟩

section OneContract

variable (h : Collected visited w w' m) (hone : SingleContract visited)

include h hone

private theorem Collected.contract_eq (hx : x ∈ visited) : m.call.contract = x.1 := by
  obtain ⟨y, hy, hcontract⟩ := h.contract
  rw [hcontract]
  exact hone y hy x hx

private theorem Collected.zip_eq :
    m.call.keys.zip m.call.vals = visited.map fun x => (x.2, rowValue w.tx.view x) := by
  have hstates := statesOf_of_contract w.tx.view (fun x hx => (h.contract_eq hone hx).symm)
  rw [h.keys_eq, h.vals_eq, hstates, States.keys, States.vals, zip_map', map_map]
  rfl

/-- An update of one contract lists the slots that were visited. -/
theorem Collected.lists_iff : m.call.Lists x ↔ x ∈ visited := by
  have hstates := statesOf_of_contract w.tx.view (fun x hx => (h.contract_eq hone hx).symm)
  have hkeys : m.call.keys = visited.map Prod.snd := by
    rw [h.keys_eq, hstates, States.keys, map_map]
    rfl
  constructor
  · rintro ⟨hcontract, hkey⟩
    rw [hkeys] at hkey
    obtain ⟨y, hy, hyx⟩ := mem_map.mp hkey
    have hyx : y = x := Prod.ext ((h.contract_eq hone hy).symm.trans hcontract) hyx
    exact hyx ▸ hy
  · intro hx
    refine ⟨h.contract_eq hone hx, ?_⟩
    rw [hkeys]
    exact mem_map_of_mem hx

/-- An update of one contract carries the value that was read for each slot. -/
theorem Collected.value?_eq (hx : x ∈ visited) : m.call.value? x = some (rowValue w.tx.view x) := by
  rw [UpdateState.value?, if_pos (h.contract_eq hone hx), h.zip_eq hone, ← map_reverse]
  refine lookup_map_slots _ (mem_reverse.mpr hx) fun y hy hkey => ?_
  exact Prod.ext (hone x hx y (mem_reverse.mp hy)) hkey

end OneContract

private theorem Collected.view_pendingStates (h : Collected visited w w' m) (x : StorageKey) :
    w'.tx.view .pendingStates x = if x ∈ visited then none else w.tx.view .pendingStates x := by
  rw [Tables.view, h.pendingStates, syncTx_pendingStates, ChangeSet.view_foldl_remove]
  simp only [mem_updateKeys]
  rfl

/-- Every slot that left the pending set is listed with its value, under the address of its own
contract and with a proof made from that contract's entry, and nothing else is listed. -/
structure Addressed (before after : Contents) (digest : ByteString) (call : UpdateState) :
    Prop where
  removed : ∀ x, before .pendingStates x = some () → after .pendingStates x = none →
    call.contract = x.1 ∧ (x.2, rowValue before x) ∈ call.keys.zip call.vals ∧
      call.proof = proofDigest (before .proof x.1) digest
  own : ∀ k v, (k, v) ∈ call.keys.zip call.vals →
    before .pendingStates (call.contract, k) = some () ∧ rowValue before (call.contract, k) = v

private theorem Collected.addressed_iff (h : Collected visited w w' m)
    (hvisited : ∀ x, x ∈ visited ↔ w.tx.view .pendingStates x = some ()) :
    Addressed w.tx.view w'.tx.view (keccak256 (oldStates w.tx.view (updateKeys visited))) m.call ↔
      SingleContract visited := by
  constructor
  · intro haddressed x hx y hy
    have hcontract : ∀ z ∈ visited, m.call.contract = z.1 := by
      intro z hz
      have hafter : w'.tx.view .pendingStates z = none := by rw [h.view_pendingStates, if_pos hz]
      exact (haddressed.removed z ((hvisited z).mp hz) hafter).1
    rw [← hcontract x hx, hcontract y hy]
  · intro hone
    refine ⟨fun x hx _ => ?_, fun k v hkv => ?_⟩
    · have hmem := (hvisited x).mpr hx
      have hcontract := h.contract_eq hone hmem
      refine ⟨hcontract, h.mem_zip.mpr ⟨x, hmem, rfl, rfl⟩, ?_⟩
      rw [← hcontract]
      exact h.proof_eq
    · obtain ⟨x, hx, rfl, rfl⟩ := h.mem_zip.mp hkv
      rw [h.contract_eq hone hx]
      exact ⟨(hvisited x).mp hx, rfl⟩

end Web3Operation

/-- The pending set of a store, as a reader visits it. -/
theorem mem_live_pendingStates {store : Store} {visited : List StorageKey}
    (h : visited.Perm (store .pendingStates).live) (x : StorageKey) :
    x ∈ visited ↔ store.content .pendingStates x = some () := by
  rw [h.mem_iff, VersionedMap.mem_live]
  exact ⟨fun ⟨_, hv⟩ => hv, fun hv => ⟨(), hv⟩⟩

/-- Escrowed contracts with the given pending slots. -/
def pendingStore (slots : List StorageKey) : Store :=
  Function.update (escrowedStore (slots.map Prod.fst)) .pendingStates
    (.ofRows 1 (slots.map fun x => (x, ())))

/-- The store with pending slots has version 1. -/
theorem bounded_pendingStore (slots : List StorageKey) : (pendingStore slots).Bounded 1 := by
  intro t
  by_cases ht : t = .pendingStates
  · subst ht
    exact VersionedMap.bounded_ofRows 1 _
  · rw [pendingStore, Function.update_of_ne ht]
    exact bounded_escrowedStore _ t

private theorem onHeartBeat_pendingStore_sends (h : slots ≠ []) :
    ∃ m w', Web3Operation.onHeartBeat .mute slots (World.start (pendingStore slots)) =
      .ok (some m) w' := by
  have haddress : (World.start (pendingStore slots)).tx.view .teeAddress () = some 1 := rfl
  exact Web3Operation.onHeartBeat_sends .mute h haddress rfl

open TransactionSync Web3Operation in
/-- A heartbeat addresses its updates correctly exactly when the pending slots belong to one
contract. -/
theorem onHeartBeat_addressed_iff (pf : Platform) (store : Store) (visited : List StorageKey)
    (hvisited : visited.Perm (store .pendingStates).live) (m : Outgoing) (w' : World)
    (hrun : onHeartBeat pf visited (World.start store) = .ok (some m) w') :
    Addressed store.content w'.tx.view
        (keccak256 (oldStates store.content (updateKeys visited))) m.call ↔
      ∀ x y, store.content .pendingStates x = some () → store.content .pendingStates y = some () →
        x.1 = y.1 := by
  refine ((collected_of_onHeartBeat hrun).addressed_iff (mem_live_pendingStates hvisited)).trans ?_
  simp only [SingleContract, mem_live_pendingStates hvisited]
  exact ⟨fun h x y hx hy => h x hx y hy, fun h x hx y hy => h x y hx hy⟩

/-- The slots of one contract are addressed right. -/
theorem onHeartBeat_addressed_one_contract :
    ∃ m w', Web3Operation.onHeartBeat .mute [(7, 1), (7, 2)]
        (World.start (pendingStore [(7, 1), (7, 2)])) = .ok (some m) w' ∧
      Web3Operation.Addressed (pendingStore [(7, 1), (7, 2)]).content w'.tx.view
        (keccak256 (TransactionSync.oldStates (pendingStore [(7, 1), (7, 2)]).content
          (TransactionSync.updateKeys [(7, 1), (7, 2)]))) m.call := by
  have hvisited : [(7, 1), (7, 2)].Perm (pendingStore [(7, 1), (7, 2)] .pendingStates).live := by
    decide +kernel
  have hone : SingleContract [(7, 1), (7, 2)] := by decide
  obtain ⟨m, w', hrun⟩ := onHeartBeat_pendingStore_sends (cons_ne_nil (7, 1) [(7, 2)])
  refine ⟨m, w', hrun, (onHeartBeat_addressed_iff _ _ _ hvisited m w' hrun).mpr ?_⟩
  intro x y hx hy
  rw [← mem_live_pendingStates hvisited] at hx hy
  exact hone x hx y hy

/-- With pending slots of two contracts, one of them is updated under the other's address. -/
theorem onHeartBeat_not_addressed_two_contracts :
    ∃ m w', [(7, 1), (9, 2)].Perm (pendingStore [(7, 1), (9, 2)] .pendingStates).live ∧
      Web3Operation.onHeartBeat .mute [(7, 1), (9, 2)]
        (World.start (pendingStore [(7, 1), (9, 2)])) = .ok (some m) w' ∧
      ¬ Web3Operation.Addressed (pendingStore [(7, 1), (9, 2)]).content w'.tx.view
        (keccak256 (TransactionSync.oldStates (pendingStore [(7, 1), (9, 2)]).content
          (TransactionSync.updateKeys [(7, 1), (9, 2)]))) m.call := by
  have hvisited : [(7, 1), (9, 2)].Perm (pendingStore [(7, 1), (9, 2)] .pendingStates).live := by
    decide +kernel
  obtain ⟨m, w', hrun⟩ := onHeartBeat_pendingStore_sends (cons_ne_nil (7, 1) [(9, 2)])
  refine ⟨m, w', hvisited, hrun, fun haddressed => ?_⟩
  have hone := ((Web3Operation.collected_of_onHeartBeat hrun).addressed_iff
    (mem_live_pendingStates hvisited)).mp haddressed
  exact absurd (hone (7, 1) (by decide) (9, 2) (by decide)) (by decide)

end CloakBridge.Tee
