import CloakBridge.Models.Tee.AccountProxy

/-!
# The account lookup of a transaction

`EthereumState` hands out account proxies. A lookup of an unknown account creates
it, with rows in the balance, code and nonce tables; a proxy keeps the level and
the key the contract had when the transaction first looked it up.
-/

namespace CloakBridge.Tee

open Kv

/-- The proxy `add_to_cache` builds from the level and key rows of an address. -/
def AccountProxy.ofRows (address : Address) (level : Option ContractLevel)
    (encryptKey : Option ByteString) : AccountProxy :=
  ⟨address, encryptKey, level.getD .basic⟩

/-- The proxy that given table contents determine for an address. -/
def proxyIn (c : Contents) (address : Address) : AccountProxy :=
  AccountProxy.ofRows address (c .levels address) (c .encrypted address)

namespace EthereumState

/-- `add_to_cache` -/
def addToCache (address : Address) : Exec AccountProxy := do
  let level ← Exec.get .levels address
  let key ← Exec.get .encrypted address
  let cached ← Exec.cached address
  Exec.throwIf cached.isSome (.proxyCached address)
  Exec.cacheProxy address (AccountProxy.ofRows address level key)
  pure (AccountProxy.ofRows address level key)

/-- The rows `create` writes, each only if the address has none of that kind. -/
def writeInitialRows (address : Address) (balance : Word) (code : ByteString) : Exec Unit := do
  let initialNonce : Nonce := if code.isEmpty then 0 else 1
  let balanceRow ← Exec.get .balances address
  Exec.throwIf balanceRow.isSome (.hasBalance address)
  Exec.put .balances address balance
  let codeRow ← Exec.get .codes address
  Exec.throwIf codeRow.isSome (.hasCode address)
  Exec.put .codes address code
  let nonceRow ← Exec.get .nonces address
  Exec.throwIf nonceRow.isSome (.hasNonce address)
  Exec.put .nonces address initialNonce

/-- `create` -/
def create (address : Address) (balance : Word) (code : ByteString) : Exec AccountProxy := do
  writeInitialRows address balance code
  addToCache address

/-- `get` -/
def get (address : Address) : Exec AccountProxy := do
  let cached ← Exec.cached address
  match cached with
  | some proxy => pure proxy
  | none => do
    let balanceRow ← Exec.get .balances address
    if balanceRow.isNone then create address 0 [] else addToCache address

/-- `remove` -/
def remove (_address : Address) : Exec Unit := throw .removeNotImplemented

end EthereumState

end CloakBridge.Tee

namespace CloakBridge.Frame

open Tee Kv

/-- Adding a row where there is none stays in the frame. -/
def FillsAt (F : Frame World) (t : TableName) (k : t.Key) (v : t.Val) : Prop :=
  ∀ w : World, w.tx.view t k = none → F.rel w { w with tx := w.tx.put t k v }

/-- Keeping the proxy that the rows of an address determine stays in the frame. -/
def CachesOwn (F : Frame World) : Prop :=
  ∀ (a : Address) (level : Option ContractLevel) (key : Option ByteString),
    F.Keeps (Exec.cacheProxy a (AccountProxy.ofRows a level key))

variable {F : Frame World} {t : TableName}

/-- What may be put may be filled in. -/
theorem Puts.fillsAt (h : F.Puts t) (k : t.Key) (v : t.Val) : F.FillsAt t k v := fun w _ => h k v w

/-- If any proxy may be handed out, one under its own address may. -/
theorem Caches.own (h : F.Caches) : F.CachesOwn := fun a _ _ => h a _

private theorem keeps_fill (hF : F.Reads) {β : Type} {k : t.Key} {v : t.Val}
    (hfill : F.FillsAt t k v)
    (e : Error) {rest : Unit → Exec β} (hrest : ∀ u, F.Keeps (rest u)) : F.Keeps (do
      let row ← Exec.get t k
      Exec.throwIf row.isSome e
      let u ← Exec.put t k v
      rest u) := by
  intro w
  refine rel_bind (hF.get t k w) fun row w₁ hget => ?_
  obtain ⟨rfl, rfl⟩ := Exec.get_eq_ok.mp hget
  refine rel_bind (keeps_throwIf _ _ _) fun _ w₂ hthrow => ?_
  obtain ⟨hnone, rfl⟩ := Exec.throwIf_eq_ok.mp hthrow
  refine rel_bind (hfill _ ?_) fun u w₃ _ => hrest u w₃
  rw [Tables.view_noteRead]
  exact Option.not_isSome_iff_eq_none.mp hnone

end CloakBridge.Frame

namespace CloakBridge.Tee

open Kv CloakBridge.Frame

variable {a : Address} {balance : Word} {code : ByteString}

private theorem writesOnly.fillsAt {S : List TableName} (t : TableName) (ht : t ∈ S) (k : t.Key)
    (v : t.Val) : (writesOnly S).FillsAt t k v := (writesOnly.puts ht).fillsAt k v

namespace EthereumState

section Frames

variable {F : Frame World} (hF : F.Reads)

include hF

/-- Handing out a proxy stays in the frame. -/
theorem keeps_addToCache (hcache : F.CachesOwn) (a : Address) : F.Keeps (addToCache a) := by
  refine keeps_bind (hF.get _ _) fun level => ?_
  refine keeps_bind (hF.get _ _) fun key => ?_
  refine keeps_bind (keeps_cached a) fun _ => ?_
  refine keeps_bind (keeps_throwIf _ _) fun _ => ?_
  exact keeps_bind (hcache a level key) fun _ => keeps_pure _

/-- The rows of a new account are only added. -/
theorem keeps_writeInitialRows (hb : F.FillsAt .balances a balance) (hc : F.FillsAt .codes a code)
    (hn : F.FillsAt .nonces a (if code.isEmpty then 0 else 1)) :
    F.Keeps (writeInitialRows a balance code) := by
  refine keeps_fill hF hb _ fun _ => ?_
  refine keeps_fill hF hc _ fun _ => ?_
  exact keeps_fill hF hn _ fun u => keeps_pure u

variable (hcache : F.CachesOwn)

include hcache

/-- Creating an account stays in the frame if filling its rows does. -/
theorem keeps_create (hb : F.FillsAt .balances a balance) (hc : F.FillsAt .codes a code)
    (hn : F.FillsAt .nonces a (if code.isEmpty then 0 else 1)) : F.Keeps (create a balance code) :=
  keeps_bind (keeps_writeInitialRows hF hb hc hn) fun _ => keeps_addToCache hF hcache a

/-- A lookup adds at most the rows of an account with nothing. -/
theorem keeps_get (hb : F.FillsAt .balances a 0) (hc : F.FillsAt .codes a [])
    (hn : F.FillsAt .nonces a 0) : F.Keeps (get a) := by
  refine keeps_bind (keeps_cached a) fun cached => ?_
  cases cached with
  | some proxy => exact keeps_pure _
  | none =>
    refine keeps_bind (hF.get _ _) fun _ => ?_
    exact keeps_ite (fun _ => keeps_create hF hcache hb hc hn) fun _ =>
      keeps_addToCache hF hcache a

end Frames

end EthereumState

/-- The tables an account lookup may write to. -/
theorem keeps_lookup (a : Address) :
    (writesOnly [.balances, .codes, .nonces]).Keeps (EthereumState.get a) :=
  EthereumState.keeps_get writesOnly.reads writesOnly.caches.own
    (writesOnly.fillsAt .balances (by decide) a _) (writesOnly.fillsAt .codes (by decide) a _)
    (writesOnly.fillsAt .nonces (by decide) a _)

/-- Every proxy handed out agrees with the level and key tables. -/
def World.CacheOk (w : World) : Prop :=
  ∀ a p, w.cache a = some p → p = proxyIn w.tx.view a

/-- A transaction begins without proxies. -/
theorem World.cacheOk_start (s : Store) : (World.start s).CacheOk := by
  intro a p h
  cases h

namespace EthereumState

variable {w w' : World} {p : AccountProxy}

/-- A proxy that is added to the cache is the one the tables determine. -/
theorem addToCache_eq_ok (h : addToCache a w = .ok p w') :
    p = proxyIn w.tx.view a ∧ w'.tx.view = w.tx.view ∧
      w'.cache = Function.update w.cache a (some p) := by
  unfold addToCache at h
  obtain ⟨level, w₁, h₁, h⟩ := bind_eq_ok.mp h
  obtain ⟨key, w₂, h₂, h⟩ := bind_eq_ok.mp h
  obtain ⟨cached, w₃, h₃, h⟩ := bind_eq_ok.mp h
  obtain ⟨⟨⟩, w₄, h₄, h⟩ := bind_eq_ok.mp h
  obtain ⟨⟨⟩, w₅, h₅, h⟩ := bind_eq_ok.mp h
  obtain ⟨-, rfl⟩ := Exec.throwIf_eq_ok.mp h₄
  cases h₁
  cases h₂
  cases h₃
  cases h₅
  cases h
  exact ⟨by simp [proxyIn], by simp, rfl⟩

private theorem cacheOk_of_addToCache (hw : w.CacheOk) (h : addToCache a w = .ok p w') :
    w'.CacheOk := by
  obtain ⟨hp, hview, hcache⟩ := addToCache_eq_ok h
  intro a' p' hp'
  rw [hview]
  rw [hcache] at hp'
  by_cases ha : a' = a
  · subst ha
    rw [Function.update_self] at hp'
    cases hp'
    exact hp
  · rw [Function.update_of_ne ha] at hp'
    exact hw a' p' hp'

private theorem cacheOk_of_writeInitialRows {u : Unit} (hw : w.CacheOk)
    (h : writeInitialRows a balance code w = .ok u w') :
    w'.CacheOk ∧ proxyIn w'.tx.view = proxyIn w.tx.view := by
  have htables : (writesOnly [.balances, .codes, .nonces]).Keeps
      (writeInitialRows a balance code) :=
    keeps_writeInitialRows writesOnly.reads (writesOnly.fillsAt .balances (by decide) a balance)
      (writesOnly.fillsAt .codes (by decide) a code) (writesOnly.fillsAt .nonces (by decide) a _)
  have hrel := htables.of_ok h
  have hcache : w'.cache = w.cache :=
    (keeps_writeInitialRows sameCache.reads ((sameCache.puts .balances).fillsAt a balance)
      ((sameCache.puts .codes).fillsAt a code) ((sameCache.puts .nonces).fillsAt a _)).of_ok h
  have hproxy : proxyIn w'.tx.view = proxyIn w.tx.view := by
    funext a'
    rw [proxyIn, proxyIn, writesOnly.view_eq hrel (by decide), writesOnly.view_eq hrel (by decide)]
  refine ⟨fun a' p hp => ?_, hproxy⟩
  rw [hproxy]
  exact hw a' p (hcache ▸ hp)

/-- A lookup returns the proxy the tables determine. -/
theorem get_eq_ok (hw : w.CacheOk) (h : get a w = .ok p w') :
    p = proxyIn w.tx.view a ∧ w'.CacheOk := by
  obtain ⟨cached, w₁, h₁, h⟩ := bind_eq_ok.mp h
  cases h₁
  cases hcached : w.cache a with
  | some q =>
    simp only [hcached] at h
    cases h
    exact ⟨hw a p hcached, hw⟩
  | none =>
    simp only [hcached] at h
    obtain ⟨row, w₂, h₂, h⟩ := bind_eq_ok.mp h
    have hview : w₂.tx.view = w.tx.view := by
      cases h₂
      exact Tables.view_noteRead _ _ _
    have hw₂ : w₂.CacheOk := by
      cases h₂
      intro a' p' hp'
      rw [Tables.view_noteRead]
      exact hw a' p' hp'
    rw [← hview]
    split at h
    · obtain ⟨⟨⟩, w₃, h₃, h⟩ := bind_eq_ok.mp h
      obtain ⟨hw₃, hproxy⟩ := cacheOk_of_writeInitialRows hw₂ h₃
      refine ⟨?_, cacheOk_of_addToCache hw₃ h⟩
      rw [(addToCache_eq_ok h).1, hproxy]
    · exact ⟨(addToCache_eq_ok h).1, cacheOk_of_addToCache hw₂ h⟩

end EthereumState

end CloakBridge.Tee
