import CloakBridge.Models.Tee.World

/-!
# Accounts and contract storage over the tables

`AccountProxy` implements the account and the storage interface of the
interpreter. A slot of a contract above `basic` level is read from the storage
table if it has a row there and from the chain otherwise; a store marks the slot
as pending, a removal does not.
-/

namespace CloakBridge.Tee

open CloakBridge.Frame

/-- `StateCipher::serialise`: cipher text, tag and vector in 64 bytes. -/
def StateCipher.serialise (cipher tag iv : ByteString) : ByteString :=
  let serial := cipher ++ tag ++ iv
  serial ++ List.replicate (64 - serial.length) 0

/-- `StateEncryptor::encrypt` -/
def StateEncryptor.encrypt (pf : Platform) (key plain : ByteString) : Exec ByteString := do
  let iv ← Exec.ask pf.randomIv
  let sealed ← Exec.orThrow .cipherFailed (pf.encrypt key iv plain)
  pure (StateCipher.serialise sealed.1 sealed.2 iv)

/-- `StateEncryptor::decrypt`, over the 32 + 16 + 12 bytes that `deserialise` reads. -/
def StateEncryptor.decrypt (pf : Platform) (key serial : ByteString) : Exec (Option ByteString) :=
  if serial.length < 60 then throw .cipherFailed
  else
    let tag := (serial.drop 32).take 16
    let iv := (serial.drop 48).take 12
    pure (pf.decrypt key iv tag (serial.take 32))

namespace AccountProxy

/-- `translate`: the row of a slot. -/
def translate (p : AccountProxy) (key : Word) : StorageKey := (p.address, key)

/-- `get_balance` -/
def getBalance (p : AccountProxy) : Exec Word := do
  let balance ← Exec.get .balances p.address
  pure (balance.getD 0)

/-- `set_balance` -/
def setBalance (p : AccountProxy) (b : Word) : Exec Unit := Exec.put .balances p.address b

/-- `get_nonce` -/
def getNonce (p : AccountProxy) : Exec Nonce := do
  let nonce ← Exec.get .nonces p.address
  pure (nonce.getD 0)

/-- `increment_nonce` -/
def incrementNonce (p : AccountProxy) : Exec Unit := do
  let nonce ← p.getNonce
  Exec.put .nonces p.address (nonce + 1)

/-- `get_code` -/
def getCode (p : AccountProxy) : Exec ByteString := do
  let code ← Exec.get .codes p.address
  pure (code.getD [])

/-- `set_code` -/
def setCode (p : AccountProxy) (c : ByteString) : Exec Unit := Exec.put .codes p.address c

/-- `has_code` -/
def hasCode (p : AccountProxy) : Exec Bool := do
  let code ← p.getCode
  pure (!code.isEmpty)

/-- `pay_to` -/
def payTo (p other : AccountProxy) (amount : Word) : Exec Unit := do
  let thisBalance ← p.getBalance
  Exec.throwIf (thisBalance < amount) (.evm .outOfFunds)
  let otherBalance ← other.getBalance
  let proposedBalance := otherBalance + amount
  Exec.throwIf (proposedBalance < otherBalance) (.evm .overflow)
  p.setBalance (thisBalance - amount)
  other.setBalance proposedBalance

/-- The bytes `store` keeps for a value. -/
def encodeState (pf : Platform) (p : AccountProxy) (value : Word) : Exec ByteString :=
  match p.encryptor with
  | some key => StateEncryptor.encrypt pf key (wordBytes value)
  | none => pure (wordBytes value)

/-- `update_pending` -/
def updatePending (p : AccountProxy) (key : Word) : Exec Unit :=
  Exec.put .pendingStates (p.translate key) ()

/-- `store` -/
def store (pf : Platform) (p : AccountProxy) (key value : Word) : Exec Unit := do
  let state ← p.encodeState pf value
  Exec.put .storage (p.translate key) state
  if ContractLevel.basic < p.level then p.updatePending key

/-- The first read of a slot that has a row saves that row. -/
def saveOldState (p : AccountProxy) (key : Word) (state : ByteString) : Exec Unit := do
  let saved ← Exec.get .pendingStorage (p.translate key)
  if saved.isNone ∧ ContractLevel.basic < p.level then
    Exec.put .pendingStorage (p.translate key) state

/-- The value `load` finds in a row of the storage table. -/
def decodeState (pf : Platform) (p : AccountProxy) (key : Word) (state : ByteString) :
    Exec Word :=
  if ContractLevel.solidity < p.level ∧ 32 < state.length then
    match p.encryptor with
    | none => throw .nullEncryptor
    | some secret => do
      let plain ← StateEncryptor.decrypt pf secret state
      let plain ← Exec.orThrow (.decryptFailed key) plain
      pure (wordOfBytes plain)
  else pure (wordOfBytes state)

/-- The value `load` gets from the chain; it is saved as the old state. -/
def fetchState (pf : Platform) (p : AccountProxy) (key : Word) : Exec Word := do
  let answer ← Exec.ask fun n => pf.exportState n p.address key
  let value ← Exec.orThrow .exportStateFailed answer
  Exec.put .pendingStorage (p.translate key) (wordBytes value)
  if p.level = .solidity then pure value else throw (.enhancementUnsupported p.address)

/-- `load` -/
def load (pf : Platform) (p : AccountProxy) (key : Word) : Exec Word := do
  let row ← Exec.get .storage (p.translate key)
  match row with
  | some state => do
    p.saveOldState key state
    p.decodeState pf key state
  | none => if p.level = .basic then pure 0 else p.fetchState pf key

/-- `remove` -/
def remove (p : AccountProxy) (key : Word) : Exec Unit := Exec.remove .storage (p.translate key)

/-- The storage part of `SSTORE`: a zero value removes the row. -/
def sstore (pf : Platform) (p : AccountProxy) (key value : Word) : Exec Unit :=
  if value = 0 then p.remove key else p.store pf key value

variable {p : AccountProxy} {key : Word}

section Frames

variable {F : Frame World} (hF : F.Reads)

include hF

/-- Reading the balance stays in the frame. -/
theorem keeps_getBalance (p : AccountProxy) : F.Keeps p.getBalance :=
  keeps_bind (hF.get _ _) fun _ => keeps_pure _

theorem keeps_getNonce (p : AccountProxy) : F.Keeps p.getNonce :=
  keeps_bind (hF.get _ _) fun _ => keeps_pure _

theorem keeps_getCode (p : AccountProxy) : F.Keeps p.getCode :=
  keeps_bind (hF.get _ _) fun _ => keeps_pure _

/-- Looking for code stays in the frame. -/
theorem keeps_hasCode (p : AccountProxy) : F.Keeps p.hasCode :=
  keeps_bind (p.keeps_getCode hF) fun _ => keeps_pure _

/-- A payment writes the two balances only. -/
theorem keeps_payTo {other : AccountProxy} (hp : ∀ b, F.Keeps (p.setBalance b))
    (hother : ∀ b, F.Keeps (other.setBalance b)) (amount : Word) :
    F.Keeps (p.payTo other amount) := by
  refine keeps_bind (p.keeps_getBalance hF) fun _ => ?_
  refine keeps_bind (keeps_throwIf _ _) fun _ => ?_
  refine keeps_bind (other.keeps_getBalance hF) fun _ => ?_
  refine keeps_bind (keeps_throwIf _ _) fun _ => ?_
  exact keeps_bind (hp _) fun _ => hother _

private theorem keeps_encodeState (pf : Platform) (p : AccountProxy) (value : Word) :
    F.Keeps (p.encodeState pf value) := by
  unfold encodeState
  cases p.encryptor with
  | none => exact keeps_pure _
  | some key =>
    refine keeps_bind (hF.ask _) fun _ => ?_
    exact keeps_bind (keeps_orThrow _ _) fun _ => keeps_pure _

private theorem keeps_store (p : AccountProxy)
    (hst : ∀ state, F.Keeps (Exec.put .storage (p.translate key) state))
    (hpend : F.Puts .pendingStates) (pf : Platform) (value : Word) :
    F.Keeps (p.store pf key value) := by
  refine keeps_bind (p.keeps_encodeState hF pf value) fun _ => ?_
  refine keeps_bind (hst _) fun _ => ?_
  exact keeps_ite (fun _ => hpend _ _) fun _ => keeps_pure _

private theorem keeps_saveOldState (hps : F.Puts .pendingStorage) (p : AccountProxy) (key : Word)
    (state : ByteString) : F.Keeps (p.saveOldState key state) := by
  refine keeps_bind (hF.get _ _) fun _ => ?_
  exact keeps_ite (fun _ => hps _ _) fun _ => keeps_pure _

omit hF in
/-- Decoding a row stays in the frame. -/
theorem keeps_decodeState (pf : Platform) (p : AccountProxy) (key : Word) (state : ByteString) :
    F.Keeps (p.decodeState pf key state) := by
  refine keeps_ite (fun _ => ?_) fun _ => keeps_pure _
  cases p.encryptor with
  | none => exact keeps_throw _
  | some secret =>
    refine keeps_bind ?_ fun _ => ?_
    · exact keeps_ite (fun _ => keeps_throw _) fun _ => keeps_pure _
    · exact keeps_bind (keeps_orThrow _ _) fun _ => keeps_pure _

private theorem keeps_fetchState (hps : F.Puts .pendingStorage) (pf : Platform) (p : AccountProxy)
    (key : Word) : F.Keeps (p.fetchState pf key) := by
  refine keeps_bind (hF.ask _) fun _ => ?_
  refine keeps_bind (keeps_orThrow _ _) fun _ => ?_
  refine keeps_bind (hps _ _) fun _ => ?_
  exact keeps_ite (fun _ => keeps_pure _) fun _ => keeps_throw _

/-- A load writes at most the saved old state. -/
theorem keeps_load (hps : F.Puts .pendingStorage) (pf : Platform) (p : AccountProxy)
    (key : Word) : F.Keeps (p.load pf key) := by
  refine keeps_bind (hF.get _ _) fun row => ?_
  cases row with
  | none =>
    exact keeps_ite (fun _ => keeps_pure _) fun _ => p.keeps_fetchState hF hps pf key
  | some state =>
    exact keeps_bind (p.keeps_saveOldState hF hps key state) fun _ =>
      p.keeps_decodeState pf key state

/-- A store stays in the frame if its row and its mark do. -/
theorem keeps_sstore (p : AccountProxy)
    (hst : ∀ state, F.Keeps (Exec.put .storage (p.translate key) state)) (hrem : F.Removes .storage)
    (hpend : F.Puts .pendingStates) (pf : Platform) (value : Word) :
    F.Keeps (p.sstore pf key value) :=
  keeps_ite (fun _ => hrem _) fun _ => p.keeps_store hF hst hpend pf value

end Frames

/-- The change sets after a slot was stored. -/
def storedTx (p : AccountProxy) (key : Word) (state : ByteString) (tx : Tx) : Tx :=
  let tx' := tx.put .storage (p.translate key) state
  if ContractLevel.basic < p.level then tx'.put .pendingStates (p.translate key) () else tx'

variable {pf : Platform} {value : Word} {w w' : World}

private theorem encodeState_eq_ok {state : ByteString}
    (h : p.encodeState pf value w = .ok state w') :
    (p.encryptor = none → state = wordBytes value) ∧ w'.tx = w.tx ∧ w'.cache = w.cache := by
  unfold encodeState at h
  cases hkey : p.encryptor with
  | none =>
    rw [hkey] at h
    obtain ⟨hstate, hw⟩ := pure_eq_ok.mp h
    rw [hw]
    exact ⟨fun _ => hstate, rfl, rfl⟩
  | some key =>
    rw [hkey] at h
    obtain ⟨iv, w₁, hiv, h₁⟩ := bind_eq_ok.mp h
    obtain ⟨sealed, w₂, hsealed, h₂⟩ := bind_eq_ok.mp h₁
    obtain ⟨-, hw₂⟩ := Exec.orThrow_eq_ok.mp hsealed
    obtain ⟨-, hw⟩ := pure_eq_ok.mp h₂
    obtain ⟨-, hw₁⟩ := modifyGet_eq_ok.mp hiv
    rw [hw, hw₂, hw₁]
    exact ⟨fun hnone => (nomatch hnone), rfl, rfl⟩

/-- A store that returns has written the slot, and marked it as pending above `basic` level. -/
theorem store_eq_ok {u : Unit} (h : p.store pf key value w = .ok u w') :
    ∃ state, (p.encryptor = none → state = wordBytes value) ∧
      w'.tx = p.storedTx key state w.tx ∧ w'.cache = w.cache := by
  obtain ⟨state, w₁, hencode, h₁⟩ := bind_eq_ok.mp h
  obtain ⟨⟨⟩, w₂, hput, h₂⟩ := bind_eq_ok.mp h₁
  obtain ⟨hstate, htx, hcache⟩ := encodeState_eq_ok hencode
  obtain rfl := Exec.put_eq_ok.mp hput
  refine ⟨state, hstate, ?_⟩
  rw [storedTx, ← htx]
  split at h₂
  next hlevel =>
    obtain rfl := Exec.put_eq_ok.mp h₂
    exact ⟨(if_pos hlevel).symm, hcache⟩
  next hlevel =>
    obtain ⟨-, rfl⟩ := pure_eq_ok.mp h₂
    exact ⟨(if_neg hlevel).symm, hcache⟩

/-- Saving an old state does not throw. -/
theorem saveOldState_ok (p : AccountProxy) (key : Word) (state : ByteString) (w : World) :
    ∃ w', p.saveOldState key state w = .ok () w' := by
  rw [saveOldState, bind_of_ok (Exec.get_run _ _ w)]
  split
  · exact ⟨_, rfl⟩
  · exact ⟨_, rfl⟩

/-- At `solidity` level a slot without a row has the value the chain reports. -/
theorem returned_fetchState (key : Word) (w : World) (hlevel : p.level = .solidity) :
    returned (p.fetchState pf key) w = pf.exportState w.tick p.address key := by
  have hask : Exec.ask (fun n => pf.exportState n p.address key) w =
      .ok (pf.exportState w.tick p.address key) { w with tick := w.tick + 1 } := rfl
  rw [fetchState, returned_bind_of_ok hask]
  cases pf.exportState w.tick p.address key with
  | none => rfl
  | some value =>
    have hvalue : Exec.orThrow .exportStateFailed (some value) { w with tick := w.tick + 1 } =
      .ok value { w with tick := w.tick + 1 } := rfl
    rw [returned_bind_of_ok hvalue, returned_bind_of_ok (Exec.put_run _ _ _ _), if_pos hlevel]
    rfl

/-- Up to `solidity` level a load returns the row as it is, or what the chain answers. -/
theorem returned_load (key : Word) (w : World) (hlevel : ¬ ContractLevel.solidity < p.level) :
    returned (p.load pf key) w = match w.tx.view .storage (p.translate key) with
      | some state => some (wordOfBytes state)
      | none => if p.level = .basic then some 0 else pf.exportState w.tick p.address key := by
  rw [load, returned_bind_of_ok (Exec.get_run _ _ w)]
  cases w.tx.view .storage (p.translate key) with
  | some state =>
    obtain ⟨w₁, hsave⟩ := p.saveOldState_ok key state
      { w with tx := w.tx.noteRead .storage (p.translate key) }
    have hdecode : p.decodeState pf key state = pure (wordOfBytes state) :=
      if_neg fun h => hlevel h.1
    simp only [returned_bind_of_ok hsave, hdecode]
    rfl
  | none =>
    by_cases hbasic : p.level = .basic
    · simp only [if_pos hbasic]
      rfl
    · simp only [if_neg hbasic]
      exact returned_fetchState key _ (ContractLevel.eq_solidity_of_not hbasic hlevel)

end AccountProxy

end CloakBridge.Tee
