import CloakBridge.Core.Keccak
import CloakBridge.Models.Tee.World
import Mathlib.Data.List.Sort

/-!
# Collecting the pending states

`TransactionSync::sync_states` takes every pending slot out of the pending set, marks it
as being synchronised, and returns the slots' values in a multimap keyed by contract, with
a digest of their saved old values. `load(uint8_t*, ..)` advances its own copy of the
cursor, so every old value is copied to the start of the buffer.
-/

namespace CloakBridge.Tee

open Kv Tables CloakBridge.Frame Function List

/-- `eevm::Keccak256` of a vector. The length is passed to `keccak_update` in 16 bits, so only
the first `length % 2 ^ 16` bytes are hashed. -/
def keccak256 (data : ByteString) : ByteString :=
  Keccak.keccak256 (data.take (data.length % 2 ^ 16))

@[simp] theorem length_keccak256 (data : ByteString) : (keccak256 data).length = 32 :=
  Keccak.length_keccak256 _

/-- Data shorter than 64 KiB is hashed whole. -/
theorem keccak256_of_lt {data : ByteString} (h : data.length < 2 ^ 16) :
    keccak256 data = Keccak.keccak256 data := by
  rw [keccak256, Nat.mod_eq_of_lt h, take_length]

/-- The order of `std::pair<uint256_t, uint256_t>`. -/
def StorageKey.lt (a b : StorageKey) : Prop := a.1 < b.1 ∨ a.1 = b.1 ∧ a.2 < b.2

instance : DecidableRel StorageKey.lt := fun a b =>
  inferInstanceAs (Decidable (a.1 < b.1 ∨ a.1 = b.1 ∧ a.2 < b.2))

/-- The entries of a `std::multimap` from contracts to keys with values. -/
abbrev States := List (Address × Word × Word)

namespace States

/-- `states.emplace`: after the entries whose contract is not greater. -/
def emplace (states : States) (contract key value : Word) : States :=
  states.orderedInsert (fun a b => a.1 < b.1) (contract, key, value)

/-- The listed keys, in order. -/
def keys (states : States) : List Word := states.map fun e => e.2.1

/-- The listed values, in order. -/
def vals (states : States) : List Word := states.map fun e => e.2.2

end States

namespace TransactionSync

/-- `update_keys.emplace` -/
def emplaceKey (keys : List StorageKey) (key : StorageKey) : List StorageKey :=
  if key ∈ keys then keys else keys.orderedInsert StorageKey.lt key

/-- `update_sync` -/
def updateSync (contractAddress key : Word) : Exec Unit := Exec.remove .syncs (contractAddress, key)

/-- `load(storage_key)`: the first 32 bytes of the row. -/
def load (storageKey : StorageKey) : Exec Word := do
  let state ← Exec.get .storage storageKey
  pure ((state.map wordOfBytes).getD 0)

/-- `load(data, storage_key)` with `data` at the start of the buffer. -/
def loadOld (buffer : ByteString) (storageKey : StorageKey) : Exec ByteString := do
  let val ← Exec.get .pendingStorage storageKey
  match val with
  | some val => do
    Exec.remove .pendingStorage storageKey
    pure (val.take 32 ++ buffer.drop 32)
  | none => pure buffer

/-- The visitor of the pending set. -/
def collect (acc : States × List StorageKey) (storageKey : StorageKey) :
    Exec (States × List StorageKey) := do
  let value ← load storageKey
  pure (acc.1.emplace storageKey.1 storageKey.2 value, emplaceKey acc.2 storageKey)

/-- The body of the loop that removes the collected keys from the pending set. -/
def moveKey (oldStates : ByteString) (key : StorageKey) : Exec ByteString := do
  let oldStates ← loadOld oldStates key
  Exec.put .syncs key ()
  Exec.remove .pendingStates key
  pure oldStates

/-- `sync_states`, where `visited` is the order in which the pending set is iterated. -/
def syncStates (visited : List StorageKey) : Exec (States × ByteString) := do
  Exec.iterate .pendingStates
  let collected ← visited.foldlM collect ([], [])
  if collected.2.isEmpty then pure (collected.1, [])
  else do
    let oldStates ← collected.2.foldlM moveKey (List.replicate (collected.2.length * 32) 0)
    pure (collected.1, keccak256 oldStates)

/-- The value `load` finds for a slot. -/
def rowValue (c : Contents) (x : StorageKey) : Word := ((c .storage x).map wordOfBytes).getD 0

/-- The multimap that visiting the given slots builds. -/
def statesOf (c : Contents) (visited : List StorageKey) : States :=
  visited.foldl (fun states x => states.emplace x.1 x.2 (rowValue c x)) []

/-- The set of the given slots, in its iteration order. -/
def updateKeys (visited : List StorageKey) : List StorageKey := visited.foldl emplaceKey []

/-- The buffer after one old value was copied to it. -/
def copyOld (val : Option ByteString) (buffer : ByteString) : ByteString :=
  match val with
  | some val => val.take 32 ++ buffer.drop 32
  | none => buffer

/-- The buffer that is hashed for the given slots, in the order of the set. -/
def oldStates (c : Contents) (keys : List StorageKey) : ByteString :=
  keys.foldl (fun buffer x => copyOld (c .pendingStorage x) buffer)
    (List.replicate (keys.length * 32) 0)

/-- What moving one slot does to the transaction. -/
def moveTx (tx : Tx) (x : StorageKey) : Tx :=
  let tx' := tx.noteRead .pendingStorage x
  let tx' := if (tx.view .pendingStorage x).isSome then tx'.remove .pendingStorage x else tx'
  (tx'.put .syncs x ()).remove .pendingStates x

variable {x y : StorageKey} {visited : List StorageKey} {states : States} {a : Address}
  {t : TableName}

private theorem collect_run (acc : States × List StorageKey) (x : StorageKey) (w : World) :
    collect acc x w = .ok (acc.1.emplace x.1 x.2 (rowValue w.tx.view x), emplaceKey acc.2 x)
        { w with tx := w.tx.noteRead .storage x } :=
  rfl

private theorem loadOld_run (buffer : ByteString) (x : StorageKey) (w : World) :
    loadOld buffer x w =
      .ok (copyOld (w.tx.view .pendingStorage x) buffer) { w with
          tx :=
            if (w.tx.view .pendingStorage x).isSome then
              (w.tx.noteRead .pendingStorage x).remove .pendingStorage x
            else w.tx.noteRead .pendingStorage x } := by
  rw [loadOld, bind_of_ok (Exec.get_run _ _ w)]
  cases w.tx.view .pendingStorage x <;> rfl

private theorem moveKey_run (buffer : ByteString) (x : StorageKey) (w : World) :
    moveKey buffer x w =
      .ok (copyOld (w.tx.view .pendingStorage x) buffer) { w with tx := moveTx w.tx x } := by
  rw [moveKey, bind_of_ok (loadOld_run buffer x w)]
  rfl

private theorem foldlM_collect_run (visited : List StorageKey) (acc : States × List StorageKey)
    (w : World) : visited.foldlM collect acc w =
      .ok (visited.foldl (fun s x => s.emplace x.1 x.2 (rowValue w.tx.view x)) acc.1,
          visited.foldl emplaceKey acc.2)
        { w with tx := visited.foldl (fun tx x => tx.noteRead .storage x) w.tx } := by
  induction visited generalizing acc w with
  | nil => rfl
  | cons x visited ih =>
    rw [foldlM_cons, bind_of_ok (collect_run acc x w), ih]
    simp only [view_noteRead, foldl_cons]

private theorem view_moveTx_of_ne {tx : Tx} (h : y ≠ x) :
    (moveTx tx x).view .pendingStorage y = tx.view .pendingStorage y := by
  simp only [moveTx, view_remove, view_put]
  rw [setRow_of_ne _ (by decide), setRow_of_ne _ (by decide)]
  split
  · rw [view_remove, setRow_apply_of_ne _ _ h, view_noteRead]
  · rw [view_noteRead]

/-- Moving distinct slots copies the old values that the transaction saw before. -/
theorem foldlM_moveKey_run {keys : List StorageKey} (hkeys : keys.Nodup) (buffer : ByteString)
    (w : World) : keys.foldlM moveKey buffer w =
      .ok (keys.foldl (fun b x => copyOld (w.tx.view .pendingStorage x) b) buffer)
        { w with tx := keys.foldl moveTx w.tx } := by
  induction keys generalizing buffer w with
  | nil => rfl
  | cons x keys ih =>
    obtain ⟨hx, hkeys⟩ := nodup_cons.mp hkeys
    rw [foldlM_cons, bind_of_ok (moveKey_run buffer x w), ih hkeys]
    simp only [foldl_cons]
    congr 1
    refine foldl_ext _ _ _ fun b y hy => ?_
    have hne : y ≠ x := fun h => hx (h ▸ hy)
    rw [view_moveTx_of_ne hne]

private theorem mem_emplaceKey {keys : List StorageKey} :
    y ∈ emplaceKey keys x ↔ y = x ∨ y ∈ keys := by
  unfold emplaceKey
  split
  next h =>
    constructor
    · exact Or.inr
    · rintro (rfl | hy)
      · exact h
      · exact hy
  next h => exact mem_orderedInsert _

private theorem nodup_emplaceKey {keys : List StorageKey} (hkeys : keys.Nodup) (x : StorageKey) :
    (emplaceKey keys x).Nodup := by
  unfold emplaceKey
  split
  next h => exact hkeys
  next h =>
    rw [(perm_orderedInsert StorageKey.lt x keys).nodup_iff]
    exact nodup_cons.mpr ⟨h, hkeys⟩

private theorem foldl_emplaceKey_spec (visited keys : List StorageKey) (hkeys : keys.Nodup) :
    (visited.foldl emplaceKey keys).Nodup ∧
      ∀ y, y ∈ visited.foldl emplaceKey keys ↔ y ∈ visited ∨ y ∈ keys := by
  induction visited generalizing keys with
  | nil => exact ⟨hkeys, fun y => by simp⟩
  | cons x visited ih =>
    obtain ⟨hnodup, hmem⟩ := ih (emplaceKey keys x) (nodup_emplaceKey hkeys x)
    refine ⟨hnodup, fun y => ?_⟩
    rw [foldl_cons, hmem, mem_emplaceKey, mem_cons]
    tauto

/-- A slot is moved once. -/
theorem nodup_updateKeys (visited : List StorageKey) : (updateKeys visited).Nodup :=
  (foldl_emplaceKey_spec visited [] nodup_nil).1

/-- The visited slots are moved. -/
@[simp] theorem mem_updateKeys : y ∈ updateKeys visited ↔ y ∈ visited := by
  rw [updateKeys, (foldl_emplaceKey_spec visited [] nodup_nil).2]
  simp

/-- Nothing is moved if nothing is visited. -/
theorem updateKeys_eq_nil : updateKeys visited = [] ↔ visited = [] := by
  simp only [eq_nil_iff_forall_not_mem, mem_updateKeys]

/-- The entry a visited slot contributes. -/
def entryOf (c : Contents) (x : StorageKey) : Address × Word × Word := (x.1, x.2, rowValue c x)

private theorem foldl_emplace_perm (c : Contents) (visited : List StorageKey) (states : States) :
    (visited.foldl (fun s x => s.emplace x.1 x.2 (rowValue c x)) states).Perm
      (states ++ visited.map (entryOf c)) := by
  induction visited generalizing states with
  | nil => simp
  | cons x visited ih =>
    rw [foldl_cons, map_cons]
    refine (ih _).trans ?_
    refine ((perm_orderedInsert _ _ states).append_right _).trans ?_
    exact perm_middle.symm

/-- The multimap holds exactly one entry for each visited slot. -/
theorem statesOf_perm (c : Contents) (visited : List StorageKey) :
    (statesOf c visited).Perm (visited.map (entryOf c)) :=
  foldl_emplace_perm c visited []

private theorem emplace_of_contract (h : ∀ e ∈ states, e.1 = a) (key value : Word) :
    states.emplace a key value = states ++ [(a, key, value)] := by
  unfold States.emplace
  induction states with
  | nil => rfl
  | cons e states ih =>
    have he : e.1 = a := h e mem_cons_self
    rw [orderedInsert_of_not_le _ _ (by simp [he]),
      ih fun e' he' => h e' (mem_cons_of_mem _ he'), cons_append]

private theorem foldl_emplace_of_contract (c : Contents) (hv : ∀ x ∈ visited, x.1 = a)
    (hs : ∀ e ∈ states, e.1 = a) :
    visited.foldl (fun s x => s.emplace x.1 x.2 (rowValue c x)) states =
      states ++ visited.map (entryOf c) := by
  induction visited generalizing states with
  | nil => simp
  | cons x visited ih =>
    have hx : x.1 = a := hv x mem_cons_self
    have hstates : ∀ e ∈ states ++ [(a, x.2, rowValue c x)], e.1 = a := by
      intro e he
      rcases mem_append.mp he with he | he
      · exact hs e he
      · rw [mem_singleton.mp he]
    rw [foldl_cons, hx, emplace_of_contract hs,
      ih (fun y hy => hv y (mem_cons_of_mem _ hy)) hstates, append_assoc, map_cons, entryOf, hx]
    rfl

/-- The entries of a single contract stay in the order in which they were visited. -/
theorem statesOf_of_contract (c : Contents) (h : ∀ x ∈ visited, x.1 = a) :
    statesOf c visited = visited.map (entryOf c) :=
  foldl_emplace_of_contract c h (by simp)

/-- If something is visited there are states. -/
theorem statesOf_ne_nil (c : Contents) (h : visited ≠ []) : statesOf c visited ≠ [] := by
  intro hnil
  have hlength := (statesOf_perm c visited).length_eq
  rw [hnil, length_map, length_nil] at hlength
  exact h (length_eq_zero_iff.mp hlength.symm)

/-- The transaction after `sync_states`. -/
def syncTx (tx : Tx) (visited : List StorageKey) : Tx :=
  (updateKeys visited).foldl moveTx
    (visited.foldl (fun tx x => tx.noteRead .storage x) (tx.noteIteration .pendingStates))

private theorem view_foldl_noteRead (tx : Tx) (visited : List StorageKey) :
    (visited.foldl (fun tx x => tx.noteRead .storage x) tx).view = tx.view := by
  induction visited generalizing tx with
  | nil => rfl
  | cons x visited ih => rw [foldl_cons, ih, view_noteRead]

/-- `sync_states` returns the collected states and the digest of the old-state buffer. -/
theorem syncStates_run (hvisited : visited ≠ []) (w : World) : syncStates visited w =
      .ok (statesOf w.tx.view visited, keccak256 (oldStates w.tx.view (updateKeys visited)))
        { w with tx := syncTx w.tx visited } := by
  have hiterate : Exec.iterate .pendingStates w =
      .ok () { w with tx := w.tx.noteIteration .pendingStates } := rfl
  rw [syncStates, bind_of_ok hiterate, bind_of_ok (foldlM_collect_run visited ([], []) _)]
  have hkeys : (visited.foldl emplaceKey []).isEmpty = false := by
    rw [isEmpty_eq_false_iff]
    exact fun h => hvisited (updateKeys_eq_nil.mp h)
  have hnodup : (visited.foldl emplaceKey []).Nodup := nodup_updateKeys visited
  simp only [hkeys, Bool.false_eq_true, if_false]
  rw [bind_of_ok (foldlM_moveKey_run hnodup _ _)]
  simp only [view_foldl_noteRead, view_noteIteration]
  rfl

private theorem moveTx_syncs (tx : Tx) (x : StorageKey) :
    moveTx tx x .syncs = (tx .syncs).put x () := by
  unfold moveTx
  split <;> rfl

private theorem moveTx_pendingStates (tx : Tx) (x : StorageKey) :
    moveTx tx x .pendingStates = (tx .pendingStates).remove x := by
  unfold moveTx
  split <;> rfl

private theorem foldl_noteRead_of_ne (tx : Tx) (visited : List StorageKey) (ht : t ≠ .storage) :
    visited.foldl (fun tx x => tx.noteRead .storage x) tx t = tx t := by
  induction visited generalizing tx with
  | nil => rfl
  | cons x visited ih =>
    rw [foldl_cons, ih, noteRead, update_of_ne ht]

private theorem foldl_moveTx_syncs (tx : Tx) (keys : List StorageKey) :
    keys.foldl moveTx tx .syncs = keys.foldl (fun cs x => cs.put x ()) (tx .syncs) := by
  induction keys generalizing tx with
  | nil => rfl
  | cons x keys ih => rw [foldl_cons, ih, moveTx_syncs, foldl_cons]

private theorem foldl_moveTx_pendingStates (tx : Tx) (keys : List StorageKey) :
    keys.foldl moveTx tx .pendingStates = keys.foldl ChangeSet.remove (tx .pendingStates) := by
  induction keys generalizing tx with
  | nil => rfl
  | cons x keys ih => rw [foldl_cons, ih, moveTx_pendingStates, foldl_cons]

private theorem moveTx_of_notMem (ht : t ∉ [.syncs, .pendingStates, .pendingStorage]) (tx : Tx)
    (x : StorageKey) : moveTx tx x t = tx t := by
  simp only [mem_cons, not_mem_nil, or_false, not_or] at ht
  obtain ⟨hsyncs, hpending, hstorage⟩ := ht
  unfold moveTx
  split <;>
    simp only [remove, put, noteRead, update_of_ne hpending,
      update_of_ne hsyncs, update_of_ne hstorage]

private theorem foldl_moveTx_of_notMem (ht : t ∉ [.syncs, .pendingStates, .pendingStorage])
    (tx : Tx) (keys : List StorageKey) : keys.foldl moveTx tx t = tx t := by
  induction keys generalizing tx with
  | nil => rfl
  | cons x keys ih => rw [foldl_cons, ih, moveTx_of_notMem ht]

/-- A table that `sync_states` does not use is untouched. -/
theorem syncTx_of_notMem (ht : t ∉ [.storage, .syncs, .pendingStates, .pendingStorage]) (tx : Tx)
    (visited : List StorageKey) : syncTx tx visited t = tx t := by
  obtain ⟨hstorage, hmoved⟩ := not_or.mp (mt mem_cons.mpr ht)
  rw [syncTx, foldl_moveTx_of_notMem hmoved, foldl_noteRead_of_ne _ _ hstorage,
    noteIteration, update_of_ne]
  rintro rfl
  exact hmoved (by decide)

/-- The visited slots are removed from the pending table. -/
theorem syncTx_pendingStates (tx : Tx) (visited : List StorageKey) :
    syncTx tx visited .pendingStates =
      (updateKeys visited).foldl ChangeSet.remove (tx .pendingStates).noteIteration := by
  rw [syncTx, foldl_moveTx_pendingStates, foldl_noteRead_of_ne _ _ (by decide)]
  rfl

private theorem view_moveTx_self (tx : Tx) (x : StorageKey) :
    (moveTx tx x).view .pendingStorage x = none := by
  simp only [moveTx, view_remove, view_put]
  rw [setRow_of_ne _ (by decide), setRow_of_ne _ (by decide)]
  split
  next => rw [view_remove, setRow_self, update_self]
  next h => rwa [view_noteRead, ← Option.not_isSome_iff_eq_none]

/-- The saved values of the visited slots are dropped. -/
theorem view_syncTx_pendingStorage (tx : Tx) (visited : List StorageKey) (y : StorageKey) :
    (syncTx tx visited).view .pendingStorage y =
      if y ∈ visited then none else tx.view .pendingStorage y := by
  have hfold : ∀ (keys : List StorageKey) (tx : Tx), (keys.foldl moveTx tx).view .pendingStorage y =
        if y ∈ keys then none else tx.view .pendingStorage y := by
    intro keys
    induction keys with
    | nil => simp
    | cons x keys ih =>
      intro tx
      rw [foldl_cons, ih]
      by_cases hkeys : y ∈ keys
      · simp [hkeys]
      · by_cases hx : y = x
        · simp [hx, view_moveTx_self]
        · simp [hkeys, hx, view_moveTx_of_ne hx]
  rw [syncTx, hfold, view_foldl_noteRead, view_noteIteration]
  simp only [mem_updateKeys]

/-- Every visited slot is written to the set of slots being synchronised. -/
theorem lookup_syncTx_syncs (tx : Tx) (visited : List StorageKey) (y : StorageKey) :
    (syncTx tx visited .syncs).writes.lookup y =
      if y ∈ visited then some (some ()) else (tx .syncs).writes.lookup y := by
  rw [syncTx, foldl_moveTx_syncs, foldl_noteRead_of_ne _ _ (by decide), ChangeSet.lookup_foldl_put]
  simp only [mem_updateKeys]
  rfl

/-- Every visited slot that the pending set has an entry for is removed from it. -/
theorem lookup_syncTx_pendingStates (tx : Tx) (visited : List StorageKey) (y : StorageKey) :
    (syncTx tx visited .pendingStates).writes.lookup y =
      if y ∈ visited then ((tx .pendingStates).state.rows y).map fun _ => none
      else (tx .pendingStates).writes.lookup y := by
  rw [syncTx_pendingStates, ChangeSet.lookup_foldl_remove]
  simp only [mem_updateKeys]
  rfl

private theorem view_syncTx_pendingStates (tx : Tx) (visited : List StorageKey) (y : StorageKey) :
    (syncTx tx visited).view .pendingStates y =
      if y ∈ visited then none else tx.view .pendingStates y := by
  have hview : (syncTx tx visited).view .pendingStates =
      ((updateKeys visited).foldl ChangeSet.remove (tx .pendingStates).noteIteration).view :=
    congrArg ChangeSet.view (syncTx_pendingStates tx visited)
  rw [hview, ChangeSet.view_foldl_remove]
  simp only [mem_updateKeys, ChangeSet.view_noteIteration]
  rfl

private theorem view_syncTx_syncs (tx : Tx) (visited : List StorageKey) (y : StorageKey) :
    (syncTx tx visited).view .syncs y = if y ∈ visited then some () else tx.view .syncs y := by
  have hview : (syncTx tx visited).view .syncs =
      ((updateKeys visited).foldl (fun cs x => cs.put x ()) (tx .syncs)).view := by
    refine congrArg ChangeSet.view ?_
    rw [syncTx, foldl_moveTx_syncs, foldl_noteRead_of_ne _ _ (by decide)]
    rfl
  rw [hview, ChangeSet.view_foldl_put]
  simp only [mem_updateKeys]
  rfl

/-- The tables `sync_states` writes to. -/
theorem keeps_syncStates (visited : List StorageKey) :
    (writesOnly [.syncs, .pendingStates, .pendingStorage]).Keeps (syncStates visited) := by
  have hreads : (writesOnly [.syncs, .pendingStates, .pendingStorage]).Reads := writesOnly.reads
  refine keeps_bind (writesOnly.keeps_iterate _) fun _ => ?_
  refine keeps_bind (keeps_foldlM (fun acc x => ?_) _ _) fun _ => ?_
  · refine keeps_bind ?_ fun _ => keeps_pure _
    exact keeps_bind (hreads.get _ _) fun _ => keeps_pure _
  · refine keeps_ite (fun _ => keeps_pure _) fun _ => ?_
    refine keeps_bind (keeps_foldlM (fun buffer x => ?_) _ _) fun _ => keeps_pure _
    refine keeps_bind (keeps_bind (hreads.get _ _) fun val => ?_) fun _ => ?_
    · cases val with
      | none => exact keeps_pure _
      | some val =>
        exact keeps_bind (writesOnly.removes (by decide) _) fun _ => keeps_pure _
    · refine keeps_bind (writesOnly.puts (by decide) _ _) fun _ => ?_
      exact keeps_bind (writesOnly.removes (by decide) _) fun _ => keeps_pure _

/-- The order in which a transaction that sees `c` visits its pending set: every pending slot
once. -/
structure Visits (c : Contents) (visited : List StorageKey) : Prop where
  nodup : visited.Nodup
  mem_iff : ∀ x, x ∈ visited ↔ (c .pendingStates x).isSome

/-- A transaction that just began visits the rows of the committed set. -/
theorem visits_of_perm {store : Store} (h : visited.Perm (store .pendingStates).live) :
    Visits store.content visited where
  nodup := h.nodup_iff.mpr (VersionedMap.nodup_live _)
  mem_iff x := by
    rw [h.mem_iff, VersionedMap.mem_live, Option.isSome_iff_exists]
    rfl

/-- Between the contents `c` and `c'` the slots `moved` went from the pending set to the set of
slots being synchronised, with `states` as their values. -/
structure Moves (c c' : Contents) (moved : Finset StorageKey) (states : States) : Prop where
  pending : ∀ x ∈ moved, (c .pendingStates x).isSome
  states : (states : Multiset (Address × Word × Word)) = moved.val.map (entryOf c)
  pendingStates : ∀ x, c' .pendingStates x = if x ∈ moved then none else c .pendingStates x
  syncs : ∀ x, c' .syncs x = if x ∈ moved then some () else c .syncs x
  pendingStorage : ∀ x, c' .pendingStorage x = if x ∈ moved then none else c .pendingStorage x
  unchanged : ∀ t, t ∉ [.syncs, .pendingStates, .pendingStorage] → c' t = c t
  nonempty : (∃ x, (c .pendingStates x).isSome) → moved.Nonempty

/-- `sync_states` returns the collected states and leaves the tables of `syncTx`, also when
nothing is pending. -/
theorem syncStates_eq_ok (visited : List StorageKey) (w : World) : ∃ digest, syncStates visited w =
      .ok (statesOf w.tx.view visited, digest) { w with tx := syncTx w.tx visited } := by
  by_cases hvisited : visited = []
  · subst hvisited
    exact ⟨[], rfl⟩
  · exact ⟨_, syncStates_run hvisited w⟩

/-- `sync_states` moves a set of pending slots, all of them, and changes nothing else. -/
theorem syncStates_moves (w : World) {visited : List StorageKey}
    (hvisited : Visits w.tx.view visited) : ∃ states digest w' moved,
      syncStates visited w = .ok (states, digest) w' ∧ Moves w.tx.view w'.tx.view moved states := by
  obtain ⟨digest, hrun⟩ := syncStates_eq_ok visited w
  have hwrites := (keeps_syncStates visited).of_ok hrun
  have hmem : ∀ x, x ∈ (⟨visited, hvisited.nodup⟩ : Finset StorageKey) ↔ x ∈ visited :=
    fun x => Multiset.mem_coe
  refine ⟨_, digest, _, ⟨visited, hvisited.nodup⟩, hrun, ?_⟩
  constructor
  case pending => exact fun x hx => (hvisited.mem_iff x).mp hx
  case states => exact Multiset.coe_eq_coe.mpr (statesOf_perm w.tx.view visited)
  case pendingStates =>
    intro x
    rw [view_syncTx_pendingStates, if_congr (hmem x) rfl rfl]
  case syncs =>
    intro x
    rw [view_syncTx_syncs, if_congr (hmem x) rfl rfl]
  case pendingStorage =>
    intro x
    rw [view_syncTx_pendingStorage, if_congr (hmem x) rfl rfl]
  case unchanged => exact fun t ht => writesOnly.view_eq hwrites ht
  case nonempty =>
    rintro ⟨x, hx⟩
    exact ⟨x, (hvisited.mem_iff x).mpr hx⟩

/-- A store with two pending slots of contract `7`, only the first of which has a row. -/
def twoPending : Store := fun t =>
  match t with
  | .pendingStates => VersionedMap.ofRows 1 [((7, 1), ()), ((7, 2), ())]
  | .storage => VersionedMap.ofRows 1 [((7, 1), wordBytes 5)]
  | _ => VersionedMap.ofRows 1 []

/-- Two pending slots are moved. -/
theorem syncStates_moves_twoPending : ∃ states digest w' moved,
      syncStates [(7, 2), (7, 1)] (World.start twoPending) = .ok (states, digest) w' ∧
      Moves twoPending.content w'.tx.view moved states :=
  syncStates_moves (World.start twoPending) (visits_of_perm (by decide +kernel))

end TransactionSync

end CloakBridge.Tee
