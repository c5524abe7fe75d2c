import CloakBridge.Models.Evm.Frames
import CloakBridge.Models.Tee.OldStateWindows

/-!
# Storage before and after a contract key is set

A contract at `solidity` level keeps its states in the clear. `set_contractKey` draws a
key and raises the level; from then on states are stored encrypted, while the rows written
before stay as they are. A load tells the two apart by their length.
-/

namespace CloakBridge.Evm

open Tee Kv Function Tables

/-- AES-GCM as `StateCipher` uses it: decryption inverts encryption, and the parts have the sizes
that the layout of a row has room for. -/
structure Seals (pf : Platform) : Prop where
  decrypt_encrypt : ∀ {key iv plain cipher tag},
    pf.encrypt key iv plain = some (cipher, tag) → pf.decrypt key iv tag cipher = some plain
  length_cipher : ∀ {key iv plain cipher tag},
    pf.encrypt key iv plain = some (cipher, tag) → cipher.length = plain.length
  length_tag : ∀ {key iv plain cipher tag},
    pf.encrypt key iv plain = some (cipher, tag) → tag.length = 16
  length_iv : ∀ n, (pf.randomIv n).length = 12

/-- The row is the value under the key. -/
def SealedRow (pf : Platform) (key : ByteString) (value : Word) (row : ByteString) : Prop :=
  ∃ n cipher tag, pf.encrypt key (pf.randomIv n) (wordBytes value) = some (cipher, tag) ∧
    row = StateCipher.serialise cipher tag (pf.randomIv n)

/-- The row is the value in the clear, or under the key if there is one. -/
def RowOf (pf : Platform) (key : Option ByteString) (value : Word) (row : ByteString) : Prop :=
  row = wordBytes value ∨ ∃ secret ∈ key, SealedRow pf secret value row

/-! ### Rows -/

section Rows

variable {pf : Platform} {p : AccountProxy} {key value : Word} {row secret : ByteString}
  {w w' : World}

private theorem rowOf_encodeState (h : p.encodeState pf value w = .ok row w') :
    RowOf pf p.encryptor value row := by
  unfold AccountProxy.encodeState at h
  cases hkey : p.encryptor with
  | none =>
    rw [hkey] at h
    exact Or.inl (pure_eq_ok.mp h).1
  | some secret =>
    rw [hkey] at h
    obtain ⟨iv, w₁, hiv, hrest⟩ := bind_eq_ok.mp h
    obtain ⟨sealed, w₂, hsealed, hpure⟩ := bind_eq_ok.mp hrest
    obtain ⟨hencrypt, -⟩ := Exec.orThrow_eq_ok.mp hsealed
    obtain ⟨hrow, -⟩ := pure_eq_ok.mp hpure
    obtain ⟨hdrawn, -⟩ := modifyGet_eq_ok.mp hiv
    rw [hdrawn] at hencrypt hrow
    exact Or.inr ⟨secret, rfl, w.tick, sealed.1, sealed.2, hencrypt, hrow⟩

/-- A store leaves a row of its value. -/
theorem rowOf_store {u : Unit} (h : p.store pf key value w = .ok u w') :
    ∃ row, RowOf pf p.encryptor value row ∧ w'.tx.view .storage (p.translate key) = some row := by
  obtain ⟨row, w₁, hencode, hrest⟩ := bind_eq_ok.mp h
  obtain ⟨_, w₂, hput, hmark⟩ := bind_eq_ok.mp hrest
  obtain rfl := Exec.put_eq_ok.mp hput
  refine ⟨row, rowOf_encodeState hencode, ?_⟩
  have hview : ({ w₁ with tx := w₁.tx.put .storage (p.translate key) row } : World).tx.view .storage
      (p.translate key) = some row := by
    rw [view_put, setRow_self, update_self]
  split at hmark
  · obtain rfl := Exec.put_eq_ok.mp hmark
    rw [view_put, setRow_of_ne _ (by decide)]
    exact hview
  · obtain ⟨-, rfl⟩ := pure_eq_ok.mp hmark
    exact hview

private theorem length_sealedRow (hpf : Seals pf) (h : SealedRow pf secret value row) :
    row.length = 64 := by
  obtain ⟨n, cipher, tag, hencrypt, rfl⟩ := h
  simp [StateCipher.serialise, hpf.length_cipher hencrypt, hpf.length_tag hencrypt, hpf.length_iv n]

private theorem decrypt_sealedRow (hpf : Seals pf) (h : SealedRow pf secret value row) (w : World) :
    StateEncryptor.decrypt pf secret row w = .ok (some (wordBytes value)) w := by
  have hlength := length_sealedRow hpf h
  obtain ⟨n, cipher, tag, hencrypt, rfl⟩ := h
  have hcipher : cipher.length = 32 := by simpa using hpf.length_cipher hencrypt
  have htag := hpf.length_tag hencrypt
  have hiv := hpf.length_iv n
  rw [StateEncryptor.decrypt, if_neg (by omega)]
  have hparts : (StateCipher.serialise cipher tag (pf.randomIv n)).take 32 = cipher ∧
      ((StateCipher.serialise cipher tag (pf.randomIv n)).drop 32).take 16 = tag ∧
      ((StateCipher.serialise cipher tag (pf.randomIv n)).drop 48).take 12 = pf.randomIv n := by
    simp [StateCipher.serialise, List.take_append, List.drop_append, hcipher, htag, hiv]
  obtain ⟨htake, hmiddle, hlast⟩ := hparts
  rw [htake, hmiddle, hlast, hpf.decrypt_encrypt hencrypt]
  rfl

/-- A row of a value is read as that value, at the level that goes with the key. -/
theorem returned_decodeState (hpf : Seals pf) (hrow : RowOf pf p.encryptor value row)
    (hlevel : ContractLevel.solidity < p.level ↔ p.encryptor ≠ none) (w : World) :
    returned (p.decodeState pf key row) w = some value := by
  rw [AccountProxy.decodeState]
  rcases hrow with hclear | ⟨secret, hsecret, hsealed⟩
  · rw [hclear, length_wordBytes, if_neg fun h => absurd h.2 (Nat.lt_irrefl 32),
      wordOfBytes_wordBytes]
    rfl
  · have hlength := length_sealedRow hpf hsealed
    rw [Option.mem_def] at hsecret
    have hkey : p.encryptor ≠ none := by simp [hsecret]
    have hplain : Exec.orThrow (.decryptFailed key) (some (wordBytes value)) w =
      .ok (wordBytes value) w := rfl
    rw [if_pos ⟨hlevel.mpr hkey, by omega⟩, hsecret]
    dsimp only
    rw [returned_bind_of_ok (decrypt_sealedRow hpf hsealed w), returned_bind_of_ok hplain,
      wordOfBytes_wordBytes]
    rfl

end Rows

/-! ### The record of stores -/

/-- The contract has a key exactly if its level is raised, and its rows hold the recorded values. -/
structure KeepsStores (pf : Platform) (a : Address) (c : Contents) (g : StorageKey → Option Word) :
    Prop where
  level : c .levels a = some (if c .encrypted a = none then .solidity else .solidityEnhance)
  rows : ∀ slot row, c .storage (a, slot) = some row →
    ∃ value, g (a, slot) = some value ∧ RowOf pf (c .encrypted a) value row

namespace KeepsStores

variable {pf : Platform} {a : Address} {c c' : Contents} {g : StorageKey → Option Word}

private theorem frame (hc : ∀ t ∈ [TableName.storage, .levels, .encrypted], c' t = c t)
    (h : KeepsStores pf a c g) : KeepsStores pf a c' g := by
  constructor
  · rw [hc .levels (by decide), hc .encrypted (by decide)]
    exact h.level
  · rw [hc .storage (by decide), hc .encrypted (by decide)]
    exact h.rows

private theorem keeps (pf : Platform) (a : Address) :
    storesRecorder.Keeps pf (KeepsStores pf a) where
  frame hc h := h.frame fun t ht => hc t ((by decide :
    ∀ t ∈ [TableName.storage, .levels, .encrypted], t ∈ recordedTables) t ht)
  beat hbeating horigin h := h.frame fun t ht => hbeating.view_eq horigin ((by decide :
    ∀ t ∈ [TableName.storage, .levels, .encrypted], t ∉ Bridge.beatTables) t ht)
  noBeat _ h := h

private theorem level_lt_iff (h : KeepsStores pf a c g) :
    ContractLevel.solidity < (proxyIn c a).level ↔ (proxyIn c a).encryptor ≠ none := by
  rw [proxyIn, h.level]
  cases c .encrypted a with
  | none =>
    rw [if_pos rfl]
    exact iff_of_false (Nat.lt_irrefl _) fun hkey => hkey rfl
  | some secret =>
    rw [if_neg (Option.some_ne_none secret)]
    exact iff_of_true (Nat.lt_succ_self _) (Option.some_ne_none secret)

variable {w w' : World}

/-- A load returns the recorded value of a slot that has a row. -/
theorem load (hpf : Seals pf) (h : KeepsStores pf a w.tx.view g) {slot : Word} {row : ByteString}
    (hrow : w.tx.view .storage (a, slot) = some row) : ∃ value, g (a, slot) = some value ∧
      returned ((proxyIn w.tx.view a).load pf slot) w = some value := by
  obtain ⟨value, hvalue, hrowOf⟩ := h.rows slot row hrow
  refine ⟨value, hvalue, ?_⟩
  have hslot : (proxyIn w.tx.view a).translate slot = (a, slot) := rfl
  rw [AccountProxy.load, returned_bind_of_ok (Exec.get_run _ _ w), hslot, hrow]
  obtain ⟨w₁, hsave⟩ := (proxyIn w.tx.view a).saveOldState_ok slot row
    { w with tx := w.tx.noteRead .storage (a, slot) }
  simp only [returned_bind_of_ok hsave]
  exact returned_decodeState hpf hrowOf h.level_lt_iff w₁

/-- A store is recorded. -/
theorem sstore (h : KeepsStores pf a w.tx.view g) (hw : w.CacheOk) {contract key value : Word}
    {r : Option Word} (hrun : (StorageOp.sstore contract key value).exec pf w = .ok r w') :
    KeepsStores pf a w'.tx.view (update g (contract, key) (some value)) := by
  have hstored := StorageOp.stored_of_exec hw hrun
  have hlevels : w'.tx.view .levels = w.tx.view .levels :=
    writesOnly.view_eq hstored.tables (by decide)
  have hencrypted : w'.tx.view .encrypted = w.tx.view .encrypted :=
    writesOnly.view_eq hstored.tables (by decide)
  constructor
  · rw [hlevels, hencrypted]
    exact h.level
  · intro slot row hrow
    rw [hencrypted]
    obtain ⟨state, -, hview⟩ := hstored.view_storage
    have hslot : (proxyIn w.tx.view contract).translate key = (contract, key) := rfl
    rw [hslot] at hview
    by_cases hkey : (a, slot) = (contract, key)
    · obtain ⟨rfl, rfl⟩ := Prod.mk.inj hkey
      refine ⟨value, update_self .., ?_⟩
      rw [hview, update_self] at hrow
      have hnonzero : value ≠ 0 := by
        rintro rfl
        cases hrow
      obtain ⟨p, w₁, hlookup, hrest⟩ := bind_eq_ok.mp hrun
      obtain ⟨_, w₂, hsstore, hpure⟩ := bind_eq_ok.mp hrest
      obtain ⟨-, rfl⟩ := pure_eq_ok.mp hpure
      obtain ⟨rfl, -⟩ := EthereumState.get_eq_ok hw hlookup
      rw [AccountProxy.sstore, if_neg hnonzero] at hsstore
      obtain ⟨row', hrowOf, hrow'⟩ := rowOf_store hsstore
      rw [hslot, hview, update_self, hrow] at hrow'
      cases hrow'
      exact hrowOf
    · rw [update_of_ne hkey]
      rw [hview, update_of_ne hkey] at hrow
      exact h.rows slot row hrow

end KeepsStores

/-! ### Setting a key -/

/-- What a `set_contractKey` that returned did. -/
structure KeySet (a : Address) (w w' : World) : Prop where
  origin : w'.tx.origin = w.tx.origin
  storage : w'.tx.view .storage = w.tx.view .storage
  unset : w.tx.view .encrypted a = none
  encrypted : ∃ key, w'.tx.view .encrypted =
    update (w.tx.view .encrypted) a (some key)
  levels : w'.tx.view .levels = update (w.tx.view .levels) a (some .solidityEnhance)

variable {pf : Platform} {a : Address} {w w' : World}

private theorem keySet_of_setContractKey {r : Response}
    (h : Endpoint.setContractKey pf a w = .ok r w') :
    KeySet a w w' := by
  obtain ⟨p, w₁, w₂, newKey, hget, hread, hunset, -, horigin, hview⟩ :=
    Endpoint.parts_of_setContractKey h
  have hrel : (writesOnly [.balances, .codes, .nonces]).rel w w₂ := (writesOnly _).trans
    ((keeps_lookup a).of_ok hget) ((p.keeps_hasCode writesOnly.reads).of_ok hread)
  have hstorage := writesOnly.view_eq hrel (by decide : TableName.storage ∉ _)
  have hencrypted := writesOnly.view_eq hrel (by decide : TableName.encrypted ∉ _)
  have hlevels := writesOnly.view_eq hrel (by decide : TableName.levels ∉ _)
  refine ⟨horigin.trans hrel.1, ?_, ?_, ⟨newKey, ?_⟩, ?_⟩
  · rw [hview, setRow_of_ne _ (by decide), setRow_of_ne _ (by decide), hstorage]
  · rw [← hencrypted]
    exact hunset
  · rw [hview, setRow_of_ne _ (by decide), setRow_self, hencrypted]
  · rw [hview, setRow_self, setRow_of_ne _ (by decide), hlevels]

/-- A key leaves the rows as they are, and they still hold the recorded values. -/
theorem KeepsStores.setContractKey {a' : Address} {g : StorageKey → Option Word}
    (h : KeepsStores pf a w.tx.view g) (hset : KeySet a' w w') : KeepsStores pf a w'.tx.view g := by
  obtain ⟨newKey, hencrypted⟩ := hset.encrypted
  by_cases ha : a = a'
  · subst ha
    constructor
    · rw [hset.levels, hencrypted, update_self, update_self, if_neg (Option.some_ne_none newKey)]
    · intro slot row hrow
      rw [hset.storage] at hrow
      obtain ⟨value, hvalue, hrowOf⟩ := h.rows slot row hrow
      refine ⟨value, hvalue, Or.inl ?_⟩
      rcases hrowOf with hclear | ⟨secret, hsecret, -⟩
      · exact hclear
      · rw [hset.unset] at hsecret
        cases hsecret
  · constructor
    · rw [hset.levels, hencrypted, update_of_ne ha, update_of_ne ha]
      exact h.level
    · rw [hset.storage, hencrypted, update_of_ne ha]
      exact h.rows

/-! ### Runs -/

/-- What happens: a step of the system, or a request for a key, for which the entropy source
answers. -/
inductive KeyedAction where
  | system (a : Tee.Action)
  | setContractKey (address : Address) (randomKey : Nat → ByteString)

/-- A key is set between transactions. -/
def KeyedAction.Sequential (s : Bridge) : KeyedAction → Prop
  | .system a => Tee.Sequential s a
  | .setContractKey _ _ => (s.running 0).isNone ∧ s.beat.isNone

instance (s : Bridge) : (a : KeyedAction) → Decidable (a.Sequential s)
  | .system a => inferInstanceAs (Decidable (Tee.Sequential s a))
  | .setContractKey _ _ => inferInstanceAs (Decidable (_ ∧ _))

/-- The system and its record after an action; a rejected request changes nothing. -/
def keyedStep (pf : Platform) (s : Bridge × Record (StorageKey → Option Word)) :
    KeyedAction → Option (Bridge × Record (StorageKey → Option Word))
  | .system a => storesRecorder.step pf s a
  | .setContractKey address randomKey =>
    match Endpoint.setContractKey { pf with randomKey } address (World.start s.1.store) with
    | .ok _ w => some (s.1.tryCommit w.tx, s.2)
    | .error _ _ => some s

/-- The values in the rows at the beginning. -/
def initialValues (store : Store) : StorageKey → Option Word :=
  fun x => (store.content .storage x).map wordOfBytes

variable {pf : Platform} {a : Address} {s s' : Bridge × Record (StorageKey → Option Word)}

/-- Every step keeps what the record says. -/
theorem faithful_keyedStep {act : KeyedAction} (h : Faithful pf (KeepsStores pf a) s.1 s.2)
    (hok : act.Sequential s.1) (hstep : keyedStep pf s act = some s') :
    Faithful pf (KeepsStores pf a) s'.1 s'.2 := by
  cases act with
  | system act =>
    obtain ⟨s₁, hs₁, rfl⟩ := Option.map_eq_some_iff.mp hstep
    refine h.step (KeepsStores.keeps pf a) hok ?_ hs₁
    intro op answers w w' v _ hw hrun hfollow
    cases op with
    | sstore contract key value => exact hfollow.holds.sstore hfollow.cache hrun
    | sload contract key =>
      have hloaded := StorageOp.loaded_of_exec hfollow.cache hrun
      refine hfollow.holds.frame fun t ht => writesOnly.view_eq hloaded.tables ?_
      exact (by decide : ∀ t ∈ [TableName.storage, .levels, .encrypted],
        t ∉ [TableName.balances, .codes, .nonces, .pendingStorage]) t ht
  | setContractKey address randomKey =>
    obtain ⟨hrunning, hbeat⟩ := hok
    have hidle := Option.isNone_iff_eq_none.mp hrunning
    rw [keyedStep] at hstep
    split at hstep
    next r w hrun =>
      cases hstep
      have hset := keySet_of_setContractKey hrun
      have hcommitted : KeepsStores pf a (World.start s.1.store).tx.view s.2.committed :=
        h.committed
      have hrecord : s.2 = ⟨s.2.committed, s.2.committed⟩ := Record.ext rfl (h.idle hidle)
      rw [hrecord]
      refine Faithful.rest hidle ?_ fun b hb => ?_
      · rw [Bridge.content_tryCommit_of_origin_eq hset.origin]
        exact hcommitted.setContractKey hset
      · cases (Option.isNone_iff_eq_none.mp hbeat).symm.trans hb
    next =>
      cases hstep
      exact h

/-- Wherever a slot of a contract that was at `solidity` level has a row, a load returns the value
that was stored last, whether the row was written before the key was set or after. -/
theorem load_eq_lastStore (pf : Platform) (hpf : Seals pf) (store : Store) (version : Nat)
    (chain : Chain) (a : Address) (hlevel : store.content .levels a = some .solidity)
    (hkey : store.content .encrypted a = none)
    (hplain : ∀ slot row, store.content .storage (a, slot) = some row → row.length = 32)
    (s : Bridge) (g : Record (StorageKey → Option Word))
    (hs : Reaches (keyedStep pf) (fun s act => act.Sequential s.1)
      (.start store version chain, ⟨initialValues store, initialValues store⟩) (s, g))
    (w : World) (hw : s.running 0 = some w) (answers : Bool) (slot : Word) (row : ByteString)
    (hrow : w.tx.view .storage (a, slot) = some row) : ∃ value, g.current (a, slot) = some value ∧
      returned ((proxyIn w.tx.view a).load (pf.withChain s.chain answers) slot) w = some value := by
  have hstart : KeepsStores pf a store.content (initialValues store) := by
    constructor
    · rw [hlevel, if_pos hkey]
    · intro slot row hrow
      refine ⟨wordOfBytes row, ?_, Or.inl ?_⟩
      · rw [initialValues, hrow, Option.map_some]
      · rw [wordBytes_wordOfBytes (hplain slot row hrow)]
  have hfaithful : Faithful pf (KeepsStores pf a) s g := by
    refine hs.invariant (I := fun s => Faithful pf (KeepsStores pf a) s.1 s.2) ?_ ?_
    · refine Faithful.rest rfl hstart fun b hb => ?_
      cases hb
    · intro s act s' h hok hstep
      exact faithful_keyedStep h hok hstep
  have hholds := (hfaithful.running w hw).holds
  have hseals : Seals (pf.withChain s.chain answers) :=
    ⟨hpf.decrypt_encrypt, hpf.length_cipher, hpf.length_tag, hpf.length_iv⟩
  exact KeepsStores.load hseals ⟨hholds.level, hholds.rows⟩ hrow

/-- A platform that combines plain texts with key and initialisation vector, and checks a tag of
key and plain text. -/
def streamPlatform : Platform :=
  { Platform.mute with
    encrypt := fun key iv plain =>
      some (masked (key ++ iv) plain, toBigEndian 16 (fromBigEndian (key ++ plain)))
    decrypt := fun key iv tag cipher =>
      if tag = toBigEndian 16 (fromBigEndian (key ++ masked (key ++ iv) cipher)) then
        some (masked (key ++ iv) cipher)
      else none
    randomIv := fun n => toBigEndian 12 n }

private theorem seals_streamPlatform : Seals streamPlatform := by
  constructor
  · rintro key iv plain cipher tag ⟨⟩
    simp [streamPlatform, masked_masked]
  · rintro key iv plain cipher tag ⟨⟩
    simp [masked]
  · rintro key iv plain cipher tag ⟨⟩
    exact length_toBigEndian _ _
  · intro n
    exact length_toBigEndian _ _

/-- The tables with a contract at `solidity` level that has a code. -/
def codedStore : Store
  | .codes => .ofRows 1 [(7, [0])]
  | .balances => .ofRows 1 [(7, 0)]
  | .nonces => .ofRows 1 [(7, 0)]
  | .levels => .ofRows 1 [(7, .solidity)]
  | _ => .ofRows 0 []

/-- Slot 1 is stored before the key is set, slot 2 after. -/
def keyBetweenStores : Option (Bridge × Record (StorageKey → Option Word)) :=
  performAll (keyedStep streamPlatform) (fun s act => act.Sequential s.1)
    (.start codedStore 1 fun _ => 0, ⟨initialValues codedStore, initialValues codedStore⟩)
    [.system (.txBegin 0), .system (.txStorage 0 (.sstore 7 1 5) true), .system (.txCommit 0),
      .setContractKey 7 fun _ => List.replicate 32 1,
      .system (.txBegin 0), .system (.txStorage 0 (.sstore 7 2 6) true)]

/-- Both slots are read back, from rows of both kinds. -/
theorem load_after_key : ∃ s g w, keyBetweenStores = some (s, g) ∧ s.running 0 = some w ∧
      ((w.tx.view .storage (7, 1)).map List.length, (w.tx.view .storage (7, 2)).map List.length) =
        (some 32, some 64) ∧ ∀ slot row, w.tx.view .storage (7, slot) = some row →
        ∃ value, g.current (7, slot) = some value ∧
          returned ((proxyIn w.tx.view 7).load (streamPlatform.withChain s.chain true) slot) w =
            some value := by
  have hrun : keyBetweenStores.bind (fun s => (s.1.running 0).map fun w =>
      ((w.tx.view .storage (7, 1)).map List.length, (w.tx.view .storage (7, 2)).map List.length)) =
      some (some 32, some 64) := by
    decide +kernel
  obtain ⟨⟨s, g⟩, hs, hobserved⟩ := Option.bind_eq_some_iff.mp hrun
  obtain ⟨w, hw, hlengths⟩ := Option.map_eq_some_iff.mp hobserved
  refine ⟨s, g, w, hs, hw, hlengths, fun slot row hrow => ?_⟩
  exact load_eq_lastStore streamPlatform seals_streamPlatform codedStore 1 (fun _ => 0) 7
    (by decide +kernel) (by decide +kernel) (fun slot row hrow => by cases hrow) s g
    (reaches_of_performAll .refl hs) w hw true slot row hrow

end CloakBridge.Evm
