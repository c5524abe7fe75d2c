import CloakBridge.Models.Evm.Frames

/-!
# Frames that every execution keeps

Executions stay over the store they began with, hand out each account under its own
address, and never change a nonce that is already there. The last fact is about the
interpreter alone: behind a run the nonce of the sender is incremented.
-/

namespace CloakBridge.Tee

open Kv Tables

/-- The transaction stays over the store it began with. -/
def sameOrigin : Frame World := .observing fun w => w.tx.origin

namespace sameOrigin

theorem reads : sameOrigin.Reads where
  get t k w := origin_noteRead w.tx t k
  ask _ _ := rfl

private theorem caches : sameOrigin.Caches := fun _ _ _ => rfl

theorem puts (t : TableName) : sameOrigin.Puts t := fun k v w => origin_put w.tx t k v

private theorem removes (t : TableName) : sameOrigin.Removes t := fun k w => origin_remove w.tx t k

/-- An execution leaves the origin. -/
theorem executes : sameOrigin.Executes :=
  Frame.executes_of_puts reads caches.own (fun t _ => puts t) (removes _) (puts _).fills

end sameOrigin

/-- Every proxy handed out carries the address it was asked for. -/
def World.OwnProxies (w : World) : Prop := ∀ a p, w.cache a = some p → p.address = a

/-- A transaction begins without proxies. -/
theorem World.ownProxies_start (s : Store) : (World.start s).OwnProxies := by
  intro a p h
  cases h

/-- Proxies keep being handed out under their own addresses. -/
def ownProxies : Frame World := .preserving World.OwnProxies

namespace ownProxies

private theorem reads : ownProxies.Reads where
  get _ _ _ h := h
  ask _ _ h := h

theorem caches : ownProxies.CachesOwn := by
  intro a level key w h a' p hp
  by_cases ha : a' = a
  · subst ha
    have hself : Function.update w.cache a' (some (AccountProxy.ofRows a' level key)) a' = some p :=
      hp
    rw [Function.update_self] at hself
    cases hself
    rfl
  · have hother : Function.update w.cache a (some (AccountProxy.ofRows a level key)) a' = some p :=
      hp
    rw [Function.update_of_ne ha] at hother
    exact h a' p hother

theorem puts (t : TableName) : ownProxies.Puts t := fun _ _ _ h => h

private theorem removes (t : TableName) : ownProxies.Removes t := fun _ _ h => h

/-- An execution keeps proxies under their addresses. -/
theorem executes : ownProxies.Executes :=
  Frame.executes_of_puts reads caches (fun t _ => puts t) (removes _) (puts _).fills

end ownProxies

/-- The rows of a table keep their values. -/
def rowsStay (t : TableName) : Frame World where
  rel w w' := ∀ k v, w.tx.view t k = some v → w'.tx.view t k = some v
  refl _ _ _ h := h
  trans h h' k v hv := h' k v (h k v hv)

namespace rowsStay

variable {t : TableName} {t' : TableName}

theorem reads : (rowsStay t).Reads where
  get t' k w k' v hv := by
    change (w.tx.noteRead t' k).view t k' = some v
    rw [view_noteRead]
    exact hv
  ask _ _ _ _ hv := hv

theorem caches : (rowsStay t).Caches := fun _ _ _ _ _ hv => hv

theorem puts (h : t ≠ t') : (rowsStay t).Puts t' := by
  intro k v w k' v' hv'
  change (w.tx.put t' k v).view t k' = some v'
  rw [view_put, setRow_of_ne _ h]
  exact hv'

theorem removes (h : t ≠ t') : (rowsStay t).Removes t' := by
  intro k w k' v' hv'
  change (w.tx.remove t' k).view t k' = some v'
  rw [view_remove, setRow_of_ne _ h]
  exact hv'

/-- A row that is missing may be added. -/
theorem fills (t' : TableName) (v : t'.Val) : (rowsStay t).Fills t' v := by
  intro k w hnone
  by_cases h : t = t'
  · subst h
    intro k' v' hv'
    have hk : k' ≠ k := by
      rintro rfl
      rw [hnone] at hv'
      cases hv'
    change (w.tx.put t k v).view t k' = some v'
    rw [view_put, setRow_apply_of_ne _ _ hk]
    exact hv'
  · exact puts h k v w

/-- A lookup changes no row of most tables. -/
theorem lookups (h : t ≠ .pendingStorage) : (rowsStay t).Lookups :=
  Frame.lookups_of_fills reads caches.own (fills _ _) (fills _ _) (fills _ _) (puts h)

/-- No execution changes a nonce. -/
theorem executes_nonces : (rowsStay .nonces).Executes := by
  refine Frame.executes_of_puts reads caches.own (fun t ht => puts ?_) (removes (by decide))
    (fills _)
  rintro rfl
  exact absurd ht (by decide)

end rowsStay

namespace EthereumState

variable {a : Address} {w w' : World} {p : AccountProxy} {balance : Word} {code : ByteString}

/-- An account is found under the address it was looked up by. -/
theorem address_of_get (hw : w.OwnProxies) (h : get a w = .ok p w') : p.address = a := by
  obtain ⟨cached, w₁, h₁, h⟩ := bind_eq_ok.mp h
  obtain ⟨rfl, rfl⟩ := modifyGet_eq_ok.mp h₁
  cases hcached : w₁.cache a with
  | some q =>
    simp only [hcached] at h
    obtain ⟨rfl, -⟩ := pure_eq_ok.mp h
    exact hw a p hcached
  | none =>
    simp only [hcached] at h
    obtain ⟨row, w₂, -, h⟩ := bind_eq_ok.mp h
    split at h
    · obtain ⟨⟨⟩, w₃, -, h⟩ := bind_eq_ok.mp h
      rw [(addToCache_eq_ok h).1]
      rfl
    · rw [(addToCache_eq_ok h).1]
      rfl

/-- A created account has the address it was created at. -/
theorem address_of_create (h : create a balance code w = .ok p w') : p.address = a := by
  obtain ⟨⟨⟩, w₁, -, h⟩ := bind_eq_ok.mp h
  rw [(addToCache_eq_ok h).1]
  rfl

/-- A proxy is added to the cache if there is none. -/
theorem exists_addToCache (hcache : w.cache a = none) : ∃ p w', addToCache a w = .ok p w' := by
  have hcached : ∀ w : World, Exec.cached a w = .ok (w.cache a) w := fun _ => rfl
  rw [addToCache, bind_of_ok (Exec.get_run _ _ _), bind_of_ok (Exec.get_run _ _ _),
    bind_of_ok (hcached _)]
  dsimp only
  rw [hcache]
  exact ⟨_, _, rfl⟩

/-- The contents with the rows of a new account. -/
def withAccount (a : Address) (balance : Word) (code : ByteString) (c : Contents) : Contents :=
  ((c.setRow .balances a (some balance)).setRow .codes a (some code)).setRow .nonces a
    (some (if code.isEmpty then 0 else 1))

private theorem fill_eq_ok {β : Type} {t : TableName} {k : t.Key} {v : t.Val} {e : Error}
    {rest : Unit → Exec β} {w w' : World} {b : β} (h : (do
      let row ← Exec.get t k
      Exec.throwIf row.isSome e
      let u ← Exec.put t k v
      rest u) w = .ok b w') : w.tx.view t k = none ∧
      ∃ w₁, w₁.tx.view = w.tx.view.setRow t k (some v) ∧ rest () w₁ = .ok b w' := by
  obtain ⟨row, w₁, hget, h⟩ := bind_eq_ok.mp h
  obtain ⟨rfl, rfl⟩ := Exec.get_eq_ok.mp hget
  obtain ⟨⟨⟩, w₂, hthrow, h⟩ := bind_eq_ok.mp h
  obtain ⟨hnone, rfl⟩ := Exec.throwIf_eq_ok.mp hthrow
  obtain ⟨⟨⟩, w₃, hput, h⟩ := bind_eq_ok.mp h
  obtain rfl := Exec.put_eq_ok.mp hput
  refine ⟨Option.not_isSome_iff_eq_none.mp hnone, _, ?_, h⟩
  rw [view_put, view_noteRead]

/-- A creation finds no row of the account and leaves all three. -/
theorem view_of_create (h : create a balance code w = .ok p w') :
    w.tx.view .balances a = none ∧ w.tx.view .codes a = none ∧ w.tx.view .nonces a = none ∧
      w'.tx.view = withAccount a balance code w.tx.view := by
  obtain ⟨⟨⟩, w₀, hrows, hcache⟩ := bind_eq_ok.mp h
  obtain ⟨hbalance, w₁, hw₁, hrows⟩ := fill_eq_ok hrows
  obtain ⟨hcode, w₂, hw₂, hrows⟩ := fill_eq_ok hrows
  obtain ⟨hnonce, w₃, hw₃, hrows⟩ := @fill_eq_ok _ _ _ _ _ pure _ _ _ hrows
  obtain ⟨-, rfl⟩ := pure_eq_ok.mp hrows
  rw [hw₁, setRow_of_ne _ (by decide)] at hcode
  rw [hw₂, hw₁, setRow_of_ne _ (by decide), setRow_of_ne _ (by decide)] at hnonce
  refine ⟨hbalance, hcode, hnonce, ?_⟩
  rw [(addToCache_eq_ok hcache).2.1, hw₃, hw₂, hw₁]
  rfl

end EthereumState

end CloakBridge.Tee
