import CloakBridge.Core.Effect
import CloakBridge.Models.Tee.Tables

/-!
# Transactions in execution

The state that one `kv::Tx` and the objects built over it share while a handler runs. What
is not modelled is a parameter: AES-GCM, the entropy source, the clock, the signed
encoding of an update, and the host call that reads a slot from the chain. Answers that
may differ from call to call are indexed by the number of such calls made so far.
-/

namespace CloakBridge.Tee

open Kv

/-- `eevm::Exception::Type`, the exceptions that the interpreter catches. -/
inductive ExceptionType where
  | outOfBounds
  | outOfGas
  | outOfFunds
  | overflow
  | illegalInstruction
  | notImplemented
  | revert
  | staticModeViolation
  deriving DecidableEq, Repr

/-- What the modelled code can throw. Only `evm` is caught inside the interpreter. -/
inductive Error where
  | evm (type : ExceptionType)
  | integerOverflow
  | exportStateFailed
  | decryptFailed (key : Word)
  | enhancementUnsupported (address : Address)
  | cipherFailed
  | nullEncryptor
  | hasBalance (address : Address)
  | hasCode (address : Address)
  | hasNonce (address : Address)
  | proxyCached (address : Address)
  | removeNotImplemented
  | commonAddress (address : Address)
  | executionThrew (type : ExceptionType)
  | nullAccount
  | keyNotFound
  /-- `std::length_error` -/
  | lengthError
  /-- `rlp::decode_error` -/
  | decodeError
  /-- a `std::logic_error` about a signature -/
  | invalidSignature
  /-- an error response that a handler throws -/
  | badRequest
  /-- a null pointer to a context is followed -/
  | nullContext
  /-- no exception: the interpreter has not finished within its fuel -/
  | outOfFuel
  /-- no exception: a loop does not end -/
  | endless
  /-- no exception: an iterator is outside of its vector -/
  | undefined
  deriving DecidableEq, Repr

/-- The arguments of the `updateState` call a heartbeat encodes. -/
structure UpdateState where
  contract : Address
  proof : ByteString
  keys : List Word
  vals : List Word
  deriving DecidableEq, Repr

/-- What the enclave takes from outside the modelled code. -/
structure Platform where
  /-- AES-GCM encryption under a key and an initialisation vector: cipher text and tag. -/
  encrypt : (key iv plain : ByteString) → Option (ByteString × ByteString)
  /-- AES-GCM decryption, `none` if the tag does not verify. -/
  decrypt : (key iv tag cipher : ByteString) → Option ByteString
  /-- The initialisation vector drawn by a call. -/
  randomIv : Nat → ByteString
  /-- The contract key drawn by a call. -/
  randomKey : Nat → ByteString
  /-- The chain's answer to `export_state`, `none` if the host call fails. -/
  exportState : Nat → Address → Word → Option Word
  /-- The raw transaction that `sign_eth_tx` makes of a private key, an update and a nonce. -/
  signEthTx : (privateKey : ByteString) → UpdateState → Nonce → ByteString
  /-- The seconds shown by the clock. -/
  timestamp : Nat → Word
  /-- The stack bytes that follow the 32 bytes written by `to_big_endian`. -/
  stackBytes : Nat → ByteString
  /-- The bytes that lie behind a vector in memory. -/
  heapBytes : Nat → Nat → UInt8
  /-- The raw public key that `recover_key` finds for a recovery id, a signature and a digest. -/
  recoverKey : (recoveryId : Nat) → (signature digest : ByteString) → Option ByteString

/-- A platform on which every outside call fails or returns nothing. -/
def Platform.mute : Platform where
  encrypt _ _ _ := none
  decrypt _ _ _ _ := none
  randomIv _ := []
  randomKey _ := []
  exportState _ _ _ := none
  signEthTx _ _ _ := []
  timestamp _ := 0
  stackBytes _ := []
  heapBytes _ _ := 0
  recoverKey _ _ _ := none

/-- `AccountProxy`: an account with the level and key it had when it was looked up. -/
structure AccountProxy where
  address : Address
  encryptor : Option ByteString
  level : ContractLevel
  deriving DecidableEq, Repr

/-- A transaction in execution. -/
structure World where
  /-- The change sets of the transaction. -/
  tx : Tx
  /-- `EthereumState::cache` -/
  cache : Address → Option AccountProxy
  /-- How many outside answers were consumed. -/
  tick : Nat

/-- Code that runs in a transaction; an exception keeps the changes made before it. -/
abbrev Exec := EStateM Error World

/-- A transaction that just began. -/
def World.start (s : Store) : World := ⟨Tables.start s, fun _ => none, 0⟩

namespace Exec

/-- `handle.get(key)` -/
def get (t : TableName) (k : t.Key) : Exec (Option t.Val) :=
  modifyGet fun w => (w.tx.view t k, { w with tx := w.tx.noteRead t k })

/-- `handle.put(key, value)` -/
def put (t : TableName) (k : t.Key) (v : t.Val) : Exec Unit :=
  modify fun w => { w with tx := w.tx.put t k v }

/-- `handle.remove(key)` -/
def remove (t : TableName) (k : t.Key) : Exec Unit :=
  modify fun w => { w with tx := w.tx.remove t k }

/-- `handle.foreach(..)`: the dependency on the whole table. -/
def iterate (t : TableName) : Exec Unit :=
  modify fun w => { w with tx := w.tx.noteIteration t }

/-- `cache.find(address)` -/
def cached (address : Address) : Exec (Option AccountProxy) :=
  modifyGet fun w => (w.cache address, w)

/-- `cache.insert(address, proxy)` -/
def cacheProxy (address : Address) (proxy : AccountProxy) : Exec Unit :=
  modify fun w => { w with cache := Function.update w.cache address (some proxy) }

/-- Consume one outside answer. -/
def ask {α : Type} (answer : Nat → α) : Exec α :=
  modifyGet fun w => (answer w.tick, { w with tick := w.tick + 1 })

/-- Continue with a value, or throw. -/
def orThrow {α : Type} (e : Error) : Option α → Exec α
  | some a => pure a
  | none => throw e

/-- Throw under a condition. -/
def throwIf (c : Prop) [Decidable c] (e : Error) : Exec Unit := if c then throw e else pure ()

variable {t : TableName} {w w' : World} {u : Unit} {c : Prop} {e : Error}

/-- `get` returns the row that is seen. -/
theorem get_run (t : TableName) (k : t.Key) (w : World) :
    Exec.get t k w = .ok (w.tx.view t k) { w with tx := w.tx.noteRead t k } := rfl

/-- `put` writes its row. -/
theorem put_run (t : TableName) (k : t.Key) (v : t.Val) (w : World) :
    Exec.put t k v w = .ok () { w with tx := w.tx.put t k v } := rfl

/-- What `get` returns, and the world it leaves. -/
theorem get_eq_ok {k : t.Key} {r : Option t.Val} : Exec.get t k w = .ok r w' ↔
      r = w.tx.view t k ∧ w' = { w with tx := w.tx.noteRead t k } :=
  modifyGet_eq_ok

/-- The world that `put` leaves. -/
theorem put_eq_ok {k : t.Key} {v : t.Val} :
    Exec.put t k v w = .ok u w' ↔ w' = { w with tx := w.tx.put t k v } :=
  modifyGet_eq_ok.trans (and_iff_right rfl)

/-- A check passes if its condition fails. -/
theorem throwIf_eq_ok [Decidable c] : throwIf c e w = .ok u w' ↔ ¬c ∧ w' = w := by
  unfold throwIf
  by_cases h : c
  · rw [if_pos h]
    exact ⟨fun hthrow => (nomatch hthrow), fun hc => absurd h hc.1⟩
  · rw [if_neg h]
    constructor
    · rintro ⟨⟩
      exact ⟨h, rfl⟩
    · rintro ⟨-, rfl⟩
      rfl

/-- Otherwise it throws. -/
theorem throwIf_of_pos [Decidable c] (h : c) (e : Error) (w : World) :
    throwIf c e w = .error e w := by
  rw [throwIf, if_pos h]
  rfl

/-- A value that is there is returned. -/
theorem orThrow_eq_ok {α : Type} {o : Option α} {a : α} :
    orThrow e o w = .ok a w' ↔ o = some a ∧ w' = w := by
  cases o with
  | none => exact ⟨fun hthrow => (nomatch hthrow), fun h => (nomatch h.1)⟩
  | some b =>
    constructor
    · rintro ⟨⟩
      exact ⟨rfl, rfl⟩
    · rintro ⟨⟨⟩, rfl⟩
      rfl

end Exec

end CloakBridge.Tee

namespace CloakBridge.Frame

open Tee

variable {F : Frame World}

/-- Reading a row and consuming an outside answer stay in the frame. -/
structure Reads (F : Frame World) : Prop where
  get : ∀ (t : TableName) (k : t.Key), F.Keeps (Exec.get t k)
  ask : ∀ {α : Type} (answer : Nat → α), F.Keeps (Exec.ask answer)

/-- Keeping a proxy stays in the frame. -/
def Caches (F : Frame World) : Prop :=
  ∀ (a : Address) (p : AccountProxy), F.Keeps (Exec.cacheProxy a p)

/-- Every write to a table stays in the frame. -/
def Puts (F : Frame World) (t : TableName) : Prop :=
  ∀ (k : t.Key) (v : t.Val), F.Keeps (Exec.put t k v)

/-- Every removal from a table stays in the frame. -/
def Removes (F : Frame World) (t : TableName) : Prop :=
  ∀ k : t.Key, F.Keeps (Exec.remove t k)

theorem keeps_orThrow {α : Type} (e : Error) (o : Option α) : F.Keeps (Exec.orThrow e o) := by
  cases o with
  | none => exact keeps_throw e
  | some a => exact keeps_pure a

theorem keeps_cached (a : Address) : F.Keeps (Exec.cached a) := fun w => F.refl w

/-- A check stays in every frame. -/
theorem keeps_throwIf (c : Prop) [Decidable c] (e : Error) : F.Keeps (Exec.throwIf c e) :=
  keeps_ite (fun _ => keeps_throw e) fun _ => keeps_pure ()

end CloakBridge.Frame

namespace CloakBridge.Tee

open Kv Function

/-- No proxy is added to the cache. -/
def sameCache : Frame World := .observing World.cache

namespace sameCache

theorem reads : sameCache.Reads := ⟨fun _ _ _ => rfl, fun _ _ => rfl⟩

theorem puts (t : TableName) : sameCache.Puts t := fun _ _ _ => rfl

theorem removes (t : TableName) : sameCache.Removes t := fun _ _ => rfl

end sameCache

/-- No dependency is forgotten. -/
def readsGrow : Frame World where
  rel w w' := ∀ t, ∀ k ∈ (w.tx t).reads, k ∈ (w'.tx t).reads
  refl _ _ _ hk := hk
  trans h h' t k hk := h' t k (h t k hk)

namespace readsGrow

theorem reads : readsGrow.Reads where
  get t k := by
    intro w t' k' hk'
    change k' ∈ (w.tx.noteRead t k t').reads
    by_cases h : t' = t
    · subst h
      rw [Tables.noteRead, update_self]
      exact ChangeSet.mem_reads_noteRead hk' k
    · rw [Tables.noteRead, update_of_ne h]
      exact hk'
  ask _ := fun _ _ _ hk => hk

theorem caches : readsGrow.Caches := fun _ _ _ _ _ hk => hk

theorem puts (t : TableName) : readsGrow.Puts t := by
  intro k v w t' k' hk'
  change k' ∈ (w.tx.put t k v t').reads
  by_cases h : t' = t
  · subst h
    rw [Tables.put, update_self]
    exact hk'
  · rw [Tables.put, update_of_ne h]
    exact hk'

theorem removes (t : TableName) : readsGrow.Removes t := by
  intro k w t' k' hk'
  change k' ∈ (w.tx.remove t k t').reads
  by_cases h : t' = t
  · subst h
    rw [Tables.remove, update_self, ChangeSet.reads_remove]
    exact hk'
  · rw [Tables.remove, update_of_ne h]
    exact hk'

end readsGrow

/-- Only the tables in `S` are written to. -/
def writesOnly (S : List TableName) : Frame World where
  rel w w' := w'.tx.origin = w.tx.origin ∧ ∀ t, t ∉ S → (w'.tx t).writes = (w.tx t).writes
  refl _ := ⟨rfl, fun _ _ => rfl⟩
  trans h h' := ⟨h'.1.trans h.1, fun t ht => (h'.2 t ht).trans (h.2 t ht)⟩

namespace writesOnly

variable {S : List TableName} {t : TableName}

/-- A table that is not written to looks the same. -/
theorem view_eq {w w' : World} (h : (writesOnly S).rel w w') (ht : t ∉ S) :
    w'.tx.view t = w.tx.view t := by
  have hstate : (w'.tx t).state = (w.tx t).state := congrFun h.1 t
  funext k
  simp only [Tables.view, ChangeSet.view, h.2 t ht, hstate]

/-- Code may be allowed to write to more tables. -/
theorem keeps_mono {α : Type} {S' : List TableName} (hS : ∀ t ∈ S, t ∈ S') {x : Exec α}
    (h : (writesOnly S).Keeps x) : (writesOnly S').Keeps x :=
  fun w => ⟨(h w).1, fun t ht => (h w).2 t fun hmem => ht (hS t hmem)⟩

theorem reads : (writesOnly S).Reads where
  get t k := by
    intro w
    refine ⟨Tables.origin_noteRead w.tx t k, fun t' _ => ?_⟩
    change (w.tx.noteRead t k t').writes = (w.tx t').writes
    by_cases h : t' = t
    · subst h
      rw [Tables.noteRead, update_self, ChangeSet.writes_noteRead]
    · rw [Tables.noteRead, update_of_ne h]
  ask _ := fun _ => ⟨rfl, fun _ _ => rfl⟩

/-- An iteration writes to no table. -/
theorem keeps_iterate (t : TableName) : (writesOnly S).Keeps (Exec.iterate t) := by
  intro w
  refine ⟨Tables.origin_noteIteration w.tx t, fun t' _ => ?_⟩
  change (w.tx.noteIteration t t').writes = (w.tx t').writes
  by_cases h : t' = t
  · subst h
    rw [Tables.noteIteration, update_self]
    rfl
  · rw [Tables.noteIteration, update_of_ne h]

theorem caches : (writesOnly S).Caches := fun _ _ _ => ⟨rfl, fun _ _ => rfl⟩

/-- Rows may be put into the tables in `S`. -/
theorem puts (ht : t ∈ S) : (writesOnly S).Puts t := by
  intro k v w
  refine ⟨Tables.origin_put w.tx t k v, fun t' ht' => ?_⟩
  change (w.tx.put t k v t').writes = (w.tx t').writes
  have hne : t' ≠ t := fun h => ht' (h ▸ ht)
  rw [Tables.put, update_of_ne hne]

/-- Rows may be removed from the tables in `S`. -/
theorem removes (ht : t ∈ S) : (writesOnly S).Removes t := by
  intro k w
  refine ⟨Tables.origin_remove w.tx t k, fun t' ht' => ?_⟩
  change (w.tx.remove t k t').writes = (w.tx t').writes
  have hne : t' ≠ t := fun h => ht' (h ▸ ht)
  rw [Tables.remove, update_of_ne hne]

end writesOnly

end CloakBridge.Tee
