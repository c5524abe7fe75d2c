import CloakBridge.Models.Tee.BridgeSound

/-!
# What storage instructions do to a transaction

`SSTORE` and `SLOAD` are described by the rows they write. A store of a non-zero
value writes the slot and, above `basic` level, its pending mark; a store of zero
writes a removal and no mark. A load writes neither. Both see the level and the
key that the tables hold for the contract.
-/

namespace CloakBridge.Tee

open Kv ChangeSet

variable {S : List TableName} {w w' : World} {p : AccountProxy} {key value : Word}

/-- Proxies stay right when neither they nor the level and key tables change. -/
theorem World.CacheOk.of_rel (h : w.CacheOk) (hrel : (writesOnly S).rel w w')
    (hlevels : .levels ∉ S) (hencrypted : .encrypted ∉ S) (hcache : w'.cache = w.cache) :
    w'.CacheOk := by
  intro a p hp
  rw [hcache] at hp
  rw [h a p hp, proxyIn, proxyIn, writesOnly.view_eq hrel hlevels,
    writesOnly.view_eq hrel hencrypted]

/-- Code that leaves levels and keys leaves the proxies. -/
theorem proxyIn_eq_of_rel (hrel : (writesOnly S).rel w w') (hlevels : .levels ∉ S)
    (hencrypted : .encrypted ∉ S) : proxyIn w'.tx.view = proxyIn w.tx.view := by
  funext a
  rw [proxyIn, proxyIn, writesOnly.view_eq hrel hlevels, writesOnly.view_eq hrel hencrypted]

/-- The pending mark that a store leaves. -/
def marksPending (p : AccountProxy) (value : Word) : Prop :=
  value ≠ 0 ∧ ContractLevel.basic < p.level

instance (p : AccountProxy) (value : Word) : Decidable (marksPending p value) :=
  inferInstanceAs (Decidable (_ ∧ _))

/-- What an `SSTORE` that returned did to its transaction. -/
structure Stored (p : AccountProxy) (key value : Word) (w w' : World) : Prop where
  cache : w'.CacheOk
  tables : (writesOnly storageTables).rel w w'
  storage : ∃ state, (p.encryptor = none → state = wordBytes value) ∧
    ∀ y, (w'.tx .storage).writes.lookup y =
      if y = p.translate key then
        if value = 0 then ((w.tx.origin .storage).rows y).map fun _ => none else some (some state)
      else (w.tx .storage).writes.lookup y
  pendingStates : ∀ y, (w'.tx .pendingStates).writes.lookup y =
    if y = p.translate key ∧ marksPending p value then some (some ())
    else (w.tx .pendingStates).writes.lookup y

/-- A store is seen by the transaction that made it; a zero leaves no row. -/
theorem Stored.view_storage (h : Stored p key value w w') :
    ∃ state, (p.encryptor = none → state = wordBytes value) ∧
      w'.tx.view .storage = Function.update (w.tx.view .storage) (p.translate key)
        (if value = 0 then none else some state) := by
  obtain ⟨state, hstate, hwrites⟩ := h.storage
  have horigin : (w'.tx .storage).state = (w.tx .storage).state := congrFun h.tables.1 .storage
  refine ⟨state, hstate, funext fun y => ?_⟩
  rw [Tables.view, view_eq_getD, hwrites y, horigin]
  by_cases hy : y = p.translate key
  · rw [if_pos hy, ← hy, Function.update_self]
    by_cases hzero : value = 0
    · rw [if_pos hzero, if_pos hzero]
      cases hrow : (w.tx.origin .storage).rows y with
      | some e => rfl
      | none =>
        have hnone : (w.tx .storage).state.rows y = none := hrow
        rw [Option.map_none, Option.getD_none, VersionedMap.content, hnone, Option.bind_none]
    · rw [if_neg hzero, if_neg hzero, Option.getD_some]
  · rw [if_neg hy, Function.update_of_ne hy, ← view_eq_getD]
    rfl

/-- What an `SLOAD` that returned did to its transaction. -/
structure Loaded (w w' : World) : Prop where
  cache : w'.CacheOk
  tables : (writesOnly [.balances, .codes, .nonces, .pendingStorage]).rel w w'

namespace AccountProxy

variable {pf : Platform} {u : Unit}

private theorem storedTx_storage (p : AccountProxy) (key : Word) (state : ByteString) (tx : Tx) :
    p.storedTx key state tx .storage = (tx .storage).put (p.translate key) state := by
  unfold storedTx
  split <;> rfl

private theorem storedTx_pendingStates (p : AccountProxy) (key : Word) (state : ByteString)
    (tx : Tx) :
    p.storedTx key state tx .pendingStates =
      if ContractLevel.basic < p.level then (tx .pendingStates).put (p.translate key) ()
      else tx .pendingStates := by
  unfold storedTx
  split <;> rfl

private theorem cache_of_sstore (h : p.sstore pf key value w = .ok u w') : w'.cache = w.cache :=
  (p.keeps_sstore sameCache.reads (sameCache.puts _ _) (sameCache.removes _) (sameCache.puts _) pf
    value).of_ok h

private theorem cache_of_load (h : p.load pf key w = .ok value w') : w'.cache = w.cache :=
  (p.keeps_load sameCache.reads (sameCache.puts _) pf key).of_ok h

/-- The rows that `SSTORE` writes for a proxy. -/
theorem stored_of_sstore (hw : w.CacheOk) (h : p.sstore pf key value w = .ok u w') :
    Stored p key value w w' := by
  have htables : (writesOnly storageTables).rel w w' :=
    (p.keeps_sstore writesOnly.reads (writesOnly.puts (by decide) _)
      (writesOnly.removes (by decide)) (writesOnly.puts (by decide)) pf value).of_ok h
  have hcache := hw.of_rel htables (by decide) (by decide) (cache_of_sstore h)
  unfold sstore at h
  split at h
  next hzero =>
    cases h
    refine ⟨hcache, htables, ⟨wordBytes value, fun _ => rfl, fun y => ?_⟩, fun y => ?_⟩
    · rw [if_pos hzero]
      change ((w.tx .storage).remove (p.translate key)).writes.lookup y = _
      rw [lookup_remove]
      by_cases hy : y = p.translate key
      · rw [if_pos hy, if_pos hy, hy]
        rfl
      · rw [if_neg hy, if_neg hy]
    · rw [if_neg fun hy => hy.2.1 hzero]
      rfl
  next hnonzero =>
    obtain ⟨state, hstate, htx, -⟩ := store_eq_ok h
    refine ⟨hcache, htables, ⟨state, hstate, fun y => ?_⟩, fun y => ?_⟩
    · rw [if_neg hnonzero, htx, storedTx_storage, lookup_put]
    · rw [htx, storedTx_pendingStates]
      by_cases hlevel : ContractLevel.basic < p.level
      · rw [if_pos hlevel, lookup_put]
        by_cases hy : y = p.translate key
        · rw [if_pos hy, if_pos ⟨hy, hnonzero, hlevel⟩]
        · rw [if_neg hy, if_neg fun h => hy h.1]
      · rw [if_neg hlevel, if_neg fun h => hlevel h.2.2]

end AccountProxy

namespace StorageOp

variable {pf : Platform} {contract key value : Word} {w w' : World} {r : Option Word}

/-- An `SSTORE` that returned stored its value. -/
theorem stored_of_exec (hw : w.CacheOk) (h : (sstore contract key value).exec pf w = .ok r w') :
    Stored (proxyIn w.tx.view contract) key value w w' := by
  obtain ⟨p, w₁, hlookup, h₁⟩ := bind_eq_ok.mp h
  obtain ⟨⟨⟩, w₂, hstore, h₂⟩ := bind_eq_ok.mp h₁
  obtain ⟨-, rfl⟩ := pure_eq_ok.mp h₂
  obtain ⟨rfl, hw₁⟩ := EthereumState.get_eq_ok hw hlookup
  have hrel := (keeps_lookup contract).of_ok hlookup
  obtain ⟨hcache, htables, ⟨state, hstate, hstorage⟩, hpending⟩ :=
    AccountProxy.stored_of_sstore hw₁ hstore
  refine ⟨hcache, ?_, ⟨state, hstate, fun y => ?_⟩, fun y => ?_⟩
  · exact (writesOnly storageTables).trans ((writesOnly.keeps_mono (by decide)
      (keeps_lookup contract)).of_ok hlookup) htables
  · rw [hstorage y, hrel.1, hrel.2 .storage (by decide)]
  · rw [hpending y, hrel.2 .pendingStates (by decide)]

/-- An `SLOAD` that returned wrote what loads write. -/
theorem loaded_of_exec (hw : w.CacheOk) (h : (sload contract key).exec pf w = .ok r w') :
    Loaded w w' := by
  obtain ⟨p, w₁, hlookup, h₁⟩ := bind_eq_ok.mp h
  obtain ⟨v, w₂, hload, h₂⟩ := bind_eq_ok.mp h₁
  obtain ⟨-, rfl⟩ := pure_eq_ok.mp h₂
  obtain ⟨-, hw₁⟩ := EthereumState.get_eq_ok hw hlookup
  have hrel := (p.keeps_load writesOnly.reads (writesOnly.puts (S := [.pendingStorage])
    (by decide)) pf key).of_ok hload
  refine ⟨hw₁.of_rel hrel (by decide) (by decide) (AccountProxy.cache_of_load hload), ?_⟩
  refine (writesOnly _).trans ((writesOnly.keeps_mono (by decide)
    (keeps_lookup contract)).of_ok hlookup) ?_
  exact (writesOnly.keeps_mono (by decide) (p.keeps_load writesOnly.reads
    (writesOnly.puts (S := [.pendingStorage]) (by decide)) pf key)).of_ok hload

end StorageOp

end CloakBridge.Tee
