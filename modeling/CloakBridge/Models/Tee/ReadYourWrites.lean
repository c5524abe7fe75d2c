import CloakBridge.Models.Tee.SequentialRecord

/-!
# Reading back what was stored

Beside a sequential run a record is kept of the last value stored to each slot. A load
returns that value, and the value from before the first store where there is none, with
one exception: a stored zero leaves no row, so a contract at `solidity` level reads the
chain's value back instead.
-/

namespace CloakBridge.Tee

open Kv Function Recorder

/-- The contract is at `basic` or `solidity` level, and its states are kept in the clear. -/
def InClear (c : Contents) (a : Address) : Prop :=
  ¬ ContractLevel.solidity < (proxyIn c a).level ∧ (proxyIn c a).encryptor = none

instance (c : Contents) (a : Address) : Decidable (InClear c a) :=
  inferInstanceAs (Decidable (_ ∧ _))

/-- The last value stored to each slot, by committed transactions and up to now. -/
structure LastStores where
  committed : StorageKey → Option Word
  current : StorageKey → Option Word

/-- The record after an action, given the transaction that is then in progress; one that ended
without a commit stored nothing. -/
def LastStores.after (g : LastStores) : Action → Option World → LastStores
  | .txCommit _, _ => ⟨g.current, g.current⟩
  | .txStorage _ (.sstore contract key value) _, some _ =>
    ⟨g.committed, update g.current (contract, key) (some value)⟩
  | _, some _ => g
  | _, none => ⟨g.committed, g.committed⟩

/-- The system together with the record. -/
def recordedStep (pf : Platform) (s : Bridge × LastStores) (a : Action) :
    Option (Bridge × LastStores) :=
  (s.1.step pf a).map fun s' => (s', s.2.after a (s'.running 0))

/-- What a load must return: the last stored value, or the value the slot had before. -/
def expectedValue (pf : Platform) (g : LastStores) (w : World) (x : StorageKey) : Option Word :=
  match g.current x with
  | some value => some value
  | none =>
    if (proxyIn w.tx.view x.1).level = .basic then some 0 else pf.exportState w.tick x.1 x.2

namespace ReadYourWrites

/-- The row that the last store to a slot left. -/
def rowOf (last : Option Word) : Option ByteString :=
  last.bind fun value => if value = 0 then none else some (wordBytes value)

variable {value : Word} {g : StorageKey → Option Word} {w w' : World} {store : Store}
  {pf : Platform}

private theorem rowOf_zero : rowOf (some 0) = none := rfl

private theorem rowOf_of_ne (h : value ≠ 0) : rowOf (some value) = some (wordBytes value) := by
  rw [rowOf, Option.bind_some, if_neg h]

/-- The contracts of `E` are in the clear, and their rows are those of the last stores. -/
structure Rows (E : Address → Prop) (c : Contents) (g : StorageKey → Option Word) : Prop where
  clear : ∀ a, E a → InClear c a
  stored : ∀ x, E x.1 → c .storage x = rowOf (g x)

variable {E : Address → Prop}

/-- A load of a slot returns the last stored value, unless that is a zero and the chain is read. -/
theorem Rows.load_eq_iff {g : LastStores} (h : Rows E w.tx.view g.current) (pf : Platform)
    {x : StorageKey} (hx : E x.1) :
    returned ((proxyIn w.tx.view x.1).load pf x.2) w = expectedValue pf g w x ↔
      ¬ ((proxyIn w.tx.view x.1).level = .solidity ∧ g.current x = some 0 ∧
        pf.exportState w.tick x.1 x.2 ≠ some 0) := by
  obtain ⟨hlevel, -⟩ := h.clear x.1 hx
  rw [AccountProxy.returned_load _ _ hlevel]
  have hview : w.tx.view .storage ((proxyIn w.tx.view x.1).translate x.2) = rowOf (g.current x) :=
    h.stored x hx
  rw [hview, expectedValue]
  cases hlast : g.current x with
  | none => exact ⟨fun _ hnot => (nomatch hnot.2.1), fun _ => rfl⟩
  | some value =>
    by_cases hzero : value = 0
    · rw [hzero, rowOf_zero]
      by_cases hbasic : (proxyIn w.tx.view x.1).level = .basic
      · simp only [if_pos hbasic, true_iff]
        rintro ⟨hsolidity, -⟩
        cases hbasic.symm.trans hsolidity
      · have hsolidity : (proxyIn w.tx.view x.1).level = .solidity :=
          ContractLevel.eq_solidity_of_not hbasic hlevel
        simp only [hsolidity, true_and, ne_eq, not_not]
        rfl
    · rw [rowOf_of_ne hzero]
      simp only [wordOfBytes_wordBytes, true_iff, Option.some.injEq]
      rintro ⟨-, heq, -⟩
      exact hzero heq

private theorem Rows.frame {c c' : Contents}
    (hc : ∀ t ∈ [TableName.storage, .levels, .encrypted], c' t = c t) (h : Rows E c g) :
    Rows E c' g := by
  constructor
  · intro a ha
    rw [InClear, proxyIn, hc .levels (by decide), hc .encrypted (by decide)]
    exact h.clear a ha
  · rw [hc .storage (by decide)]
    exact h.stored

/-- A store is recorded and seen. -/
theorem Rows.sstore {contract key : Word} (h : Rows E w.tx.view g)
    (hstored : Stored (proxyIn w.tx.view contract) key value w w') :
    Rows E w'.tx.view (update g (contract, key) (some value)) := by
  obtain ⟨state, hstate, hview⟩ := hstored.view_storage
  refine ⟨fun a ha => ?_, fun x hx => ?_⟩
  · rw [InClear, proxyIn_eq_of_rel hstored.tables (by decide) (by decide)]
    exact h.clear a ha
  · have hslot : (proxyIn w.tx.view contract).translate key = (contract, key) := rfl
    rw [hview, hslot]
    by_cases hkey : x = (contract, key)
    · subst hkey
      rw [update_self, update_self, hstate (h.clear contract hx).2]
      rfl
    · rw [update_of_ne hkey, update_of_ne hkey]
      exact h.stored x hx

private theorem keeps_rows (pf : Platform) : storesRecorder.Keeps pf (Rows E) where
  frame hc h := h.frame fun t ht => hc t ((by decide :
    ∀ t ∈ [TableName.storage, .levels, .encrypted], t ∈ recordedTables) t ht)
  beat hbeating horigin h := h.frame fun t ht => hbeating.view_eq horigin ((by decide :
    ∀ t ∈ [TableName.storage, .levels, .encrypted], t ∉ Bridge.beatTables) t ht)
  noBeat _ h := h

/-- One storage instruction keeps the rows. -/
theorem Rows.exec {op : StorageOp} {r : Option Word} (h : Following (Rows E) store g w)
    (hrun : op.exec pf w = .ok r w') (chain : Chain) :
    Rows E w'.tx.view (storesRecorder.storage chain w op g) := by
  cases op with
  | sstore contract key value => exact h.holds.sstore (StorageOp.stored_of_exec h.cache hrun)
  | sload contract key =>
    have hloaded := StorageOp.loaded_of_exec h.cache hrun
    exact h.holds.frame fun t ht => writesOnly.view_eq hloaded.tables ((by decide :
      ∀ t ∈ [TableName.storage, .levels, .encrypted], t ∉ _) t ht)

/-- The record of last stores, as a record of sequential runs. -/
def record (g : LastStores) : Record (StorageKey → Option Word) := ⟨g.committed, g.current⟩

/-- The two ways of keeping the record agree. -/
theorem record_after {s s' : Bridge} {a : Action} {g : LastStores}
    (h : Faithful pf (Rows E) s (record g)) (hok : Sequential s a)
    (hstep : Bridge.Stepped pf s a s') :
    record (g.after a (s'.running 0)) = storesRecorder.after s s' a (record g) := by
  cases hstep with
  | txBegin hi =>
    obtain ⟨rfl, -⟩ := hok
    simp only [after, LastStores.after, update_self]
  | @txStorage i op answers w w' v hw hrun =>
    obtain rfl := hok
    simp only [after, update_self, hw]
    cases op with
    | sstore contract key value => rfl
    | sload contract key => rfl
  | txNonce hw hrun =>
    obtain rfl := hok
    simp only [after, LastStores.after, update_self]
  | @txEnd a i ha =>
    have hi : i = 0 := by
      rcases ha with ⟨op, answers, rfl⟩ | rfl | rfl
      · exact hok
      · exact hok
      · exact hok
    subst hi
    rcases ha with ⟨op, answers, rfl⟩ | rfl | rfl
    · simp only [after, update_self]
      cases op with
      | sstore contract key value => rfl
      | sload contract key => rfl
    · simp only [after, LastStores.after, update_self]
      rfl
    · simp only [after, LastStores.after, update_self]
      rfl
  | txCommit hw => rfl
  | beatIdle visited =>
    rw [Option.isNone_iff_eq_none.mp hok]
    cases visited with
    | nil => rfl
    | cons x visited =>
      simp only [after, Option.isNone_iff_eq_none.mp hok]
      rfl
  | @beatBegin visited m w hbeat hvisited hrun =>
    simp only [Option.isNone_iff_eq_none.mp hok]
    cases visited with
    | nil => rfl
    | cons x visited =>
      simp only [after, Option.isNone_iff_eq_none.mp hok]
      rfl
  | @beatCommit b hb =>
    have hidle : (s.tryCommit b.tx).running 0 = none := (h.beat b hb).1
    simp only [hidle]
    rfl
  | @acknowledge m toEnclave target keys w hqueue hbeat htarget hkeys hrun =>
    have hidle : (s.tryCommit w.tx).running 0 = none := Option.isNone_iff_eq_none.mp hok
    simp only [after, hidle]
    rfl
  | hostSend | rpcAccept | rpcReject | parseFailed | chainExecute =>
    cases hrunning : s.running 0 with
    | some w => simp only [after, LastStores.after, hrunning]
    | none =>
      simp only [after, LastStores.after, hrunning]
      rfl

/-- The system and its record when nothing was stored. -/
def start (store : Store) (version : Nat) (chain : Chain) : Bridge × LastStores :=
  (.start store version chain, ⟨fun _ => none, fun _ => none⟩)

private theorem faithful_of_reaches {version : Nat} {chain : Chain}
    (hfresh : ∀ x, InClear store.content x.1 → store.content .storage x = none)
    {s : Bridge × LastStores}
    (hs : Reaches (recordedStep pf) (fun s => Sequential s.1) (start store version chain) s) :
    Faithful pf (Rows (InClear store.content)) s.1 (record s.2) := by
  refine hs.invariant (I := fun s => Faithful pf _ s.1 (record s.2)) ?_ ?_
  · exact Faithful.rest rfl ⟨fun _ ha => ha, hfresh⟩ fun b hb => (nomatch hb)
  · rintro s a s' h hok hstep
    obtain ⟨s₁, hs₁, rfl⟩ := Option.map_eq_some_iff.mp hstep
    rw [record_after h hok (Bridge.stepped_of_step hs₁)]
    exact h.step (keeps_rows pf) hok
      (fun op answers w w' v _ _ hrun hfollow => Rows.exec hfollow hrun s.1.chain) hs₁

end ReadYourWrites

/-- In every state of a sequential run, a load returns the last stored value, or the value the slot
had before, unless a zero was stored last and the chain is asked and does not answer zero. -/
theorem load_eq_expectedValue_iff (pf : Platform) (store : Store) (version : Nat) (chain : Chain)
    (hfresh : ∀ x, InClear store.content x.1 → store.content .storage x = none)
    (s : Bridge) (g : LastStores) (hs : Reaches (recordedStep pf) (fun s => Sequential s.1)
      (ReadYourWrites.start store version chain) (s, g))
    (w : World) (hw : s.running 0 = some w) (answers : Bool) (x : StorageKey)
    (hx : InClear store.content x.1) :
    returned ((proxyIn w.tx.view x.1).load (pf.withChain s.chain answers) x.2) w =
        expectedValue (pf.withChain s.chain answers) g w x ↔
      ¬ ((proxyIn w.tx.view x.1).level = .solidity ∧ g.current x = some 0 ∧
        (pf.withChain s.chain answers).exportState w.tick x.1 x.2 ≠ some 0) :=
  ((ReadYourWrites.faithful_of_reaches hfresh hs).running w hw).holds.load_eq_iff _ hx

/-- What a load in the transaction in progress returns, and what it must return. -/
def observeLoad (pf : Platform) (x : StorageKey) (s : Bridge × LastStores) :
    Option (Option Word × Option Word) :=
  (s.1.running 0).map fun w =>
    (returned ((proxyIn w.tx.view x.1).load (pf.withChain s.1.chain true) x.2) w,
      expectedValue (pf.withChain s.1.chain true) s.2 w x)

/-- The run of two transactions and a heartbeat, the second of which stores the given value. -/
def twoStores (value : Word) : Option (Bridge × LastStores) :=
  performAll (recordedStep .mute) (fun s => Sequential s.1)
    (ReadYourWrites.start (escrowedStore [7]) 1 fun _ => 3)
    [.txBegin 0, .txStorage 0 (.sstore 7 1 5) true, .txCommit 0, .beatBegin [(7, 1)], .beatCommit,
      .txBegin 0, .txStorage 0 (.sstore 7 1 value) true]

/-- The second of two stores is loaded. -/
theorem load_after_two_stores : ∃ s g w, twoStores 6 = some (s, g) ∧ s.running 0 = some w ∧
      returned ((proxyIn w.tx.view 7).load (Platform.mute.withChain s.chain true) 1) w =
        expectedValue (Platform.mute.withChain s.chain true) g w (7, 1) := by
  have hrun : (twoStores 6).map (fun s => ((s.1.running 0).isSome, s.2.current (7, 1))) =
      some (true, some 6) := by
    decide +kernel
  obtain ⟨⟨s, g⟩, hs, hobserved⟩ := Option.map_eq_some_iff.mp hrun
  simp only [Prod.mk.injEq] at hobserved
  obtain ⟨hsome, hlast⟩ := hobserved
  obtain ⟨w, hw⟩ := Option.isSome_iff_exists.mp hsome
  refine ⟨s, g, w, hs, hw, ?_⟩
  refine (load_eq_expectedValue_iff .mute (escrowedStore [7]) 1 (fun _ => 3) (fun _ _ => rfl) s g
    (reaches_of_performAll .refl hs) w hw true (7, 1) (by decide +kernel)).mpr ?_
  rw [hlast]
  rintro ⟨-, hzero, -⟩
  exact absurd hzero (by decide)

/-- A zero that was stored is not read back from an escrowed contract. -/
theorem load_ne_expectedValue_after_zero_store :
    ∃ s g w, twoStores 0 = some (s, g) ∧ s.running 0 = some w ∧
      InClear (escrowedStore [7]).content 7 ∧
      returned ((proxyIn w.tx.view 7).load (Platform.mute.withChain s.chain true) 1) w ≠
        expectedValue (Platform.mute.withChain s.chain true) g w (7, 1) := by
  have hrun : (twoStores 0).bind (observeLoad .mute (7, 1)) = some (some 3, some 0) := by
    decide +kernel
  obtain ⟨⟨s, g⟩, hs, hobserved⟩ := Option.bind_eq_some_iff.mp hrun
  obtain ⟨w, hw, hvalues⟩ := Option.map_eq_some_iff.mp hobserved
  simp only [Prod.mk.injEq] at hvalues
  refine ⟨s, g, w, hs, hw, by decide +kernel, ?_⟩
  rw [hvalues.1, hvalues.2]
  decide

end CloakBridge.Tee
