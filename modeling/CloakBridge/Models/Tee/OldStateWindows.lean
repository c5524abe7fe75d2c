import CloakBridge.Models.Tee.SequentialRecord
import CloakBridge.Models.Tee.UpdateDelivery

/-!
# The old values that heartbeats find

For each slot that was written since the last heartbeat, the next one should find the
value from before the first write in `pending_storage`. That value is saved by loads
alone: a slot that is written without having been loaded has none, and a load after the
first write saves a value that is too new.
-/

namespace CloakBridge.Tee

open Kv Function Tables

/-- The value of a slot: its row, or what the chain holds. -/
def slotValue (chain : Chain) (c : Contents) (x : StorageKey) : Word :=
  match c .storage x with
  | some row => wordOfBytes row
  | none => chain x

/-- What happened to each slot since the last heartbeat: the value that was last loaded, and the
value from before the first write. -/
structure Window where
  loaded : StorageKey → Option Word
  before : StorageKey → Option Word

/-- Nothing happened yet. -/
def Window.empty : Window := ⟨fun _ => none, fun _ => none⟩

/-- The record of the current window. -/
def windowRecorder : Recorder Window where
  storage chain w op g :=
    match op with
    | .sload contract key =>
      let x := (contract, key)
      { g with loaded := update g.loaded x (some (slotValue chain w.tx.view x)) }
    | .sstore contract key _ =>
      let x := (contract, key)
      { g with
        before := update g.before x
          (some ((g.before x).getD (slotValue chain w.tx.view x))) }
  beat _ := .empty

/-- For each pending slot of an escrowed contract, `pending_storage` holds the value from before the
first write in the window. -/
def PreImages (escrowed : Contents) (s : Bridge) (g : Record Window) : Prop :=
  ∀ x, Escrowed escrowed x.1 → s.store.content .pendingStates x = some () →
    ∃ v, g.committed.before x = some v ∧ s.store.content .pendingStorage x = some (wordBytes v)

/-- The value of the slot is already saved, or it was loaded in this window and did not change. -/
def Captured (chain : Chain) (c : Contents) (g : Window) (x : StorageKey) : Prop :=
  g.loaded x = some (slotValue chain c x) ∨
    c .pendingStorage x = some (wordBytes (slotValue chain c x))

instance (chain : Chain) (c : Contents) (g : Window) (x : StorageKey) :
    Decidable (Captured chain c g x) :=
  inferInstanceAs (Decidable (_ ∨ _))

/-- The first write of a slot in a window finds its value captured. A slot that was written and has
no row is loaded only if the chain holds the value from before the first write. -/
def Captures (escrowed : Contents) (chain : Chain) (g : Window) (w : World) : StorageOp → Prop
  | .sstore contract key _ => Escrowed escrowed contract → g.before (contract, key) = none →
      Captured chain w.tx.view g (contract, key)
  | .sload contract key => Escrowed escrowed contract →
      w.tx.view .storage (contract, key) = none →
        g.before (contract, key) = none ∨ g.before (contract, key) = some (chain (contract, key))

instance (escrowed : Contents) (chain : Chain) (g : Window) (w : World) :
    (op : StorageOp) → Decidable (Captures escrowed chain g w op)
  | .sstore _ _ _ => inferInstanceAs (Decidable (_ → _ → _))
  | .sload _ _ => inferInstanceAs (Decidable (_ → _ → _ ∨ _))

/-- The steps of the runs in which every old value is captured. -/
def CapturesOldStates (escrowed : Contents) (s : Bridge × Record Window) (a : Action) : Prop :=
  Sequential s.1 a ∧
    match a with
    | .txStorage _ op _ => ∀ w ∈ s.1.running 0, Captures escrowed s.1.chain s.2.current w op
    | _ => True

instance (escrowed : Contents) (s : Bridge × Record Window) :
    (a : Action) → Decidable (CapturesOldStates escrowed s a)
  | .txStorage _ _ _ => inferInstanceAs (Decidable (_ ∧ ∀ w ∈ _, _))
  | .txBegin _ | .txNonce _ | .txCommit _ | .txAbort _ | .beatBegin _ | .beatCommit | .hostSend
  | .rpcReply _ _ | .acknowledge | .chainExecute _ => inferInstanceAs (Decidable (_ ∧ True))

/-- What is known about a slot from its row, its pending mark, its saved value and the window. -/
structure SlotOk (row : Option ByteString) (mark : Option Unit) (saved : Option ByteString)
    (loaded before : Option Word) : Prop where
  length : ∀ r ∈ row, r.length = 32
  unmarked : before = none → mark = none
  current : before = none → ∀ r ∈ row, ∀ s ∈ saved, s = r
  loaded : before = none → ∀ v ∈ loaded, saved = some (wordBytes v)
  saved : ∀ v ∈ before, saved = some (wordBytes v)
  removed : before ≠ none → mark = none → row = none

variable {value : Word}

namespace SlotOk

variable {row saved : Option ByteString} {mark : Option Unit} {loaded before : Option Word}

/-- A new window begins; the saved value of a pending slot is dropped. -/
theorem renew (h : SlotOk row mark saved loaded before) {saved' : Option ByteString}
    (hsaved : mark = none → saved' = saved) (hdropped : mark ≠ none → saved' = none) :
    SlotOk row none saved' none none where
  length := h.length
  unmarked _ := rfl
  current _ := by
    intro r hr s hs
    by_cases hmark : mark = none
    · rw [hsaved hmark] at hs
      cases hbefore : before with
      | none => exact h.current hbefore r hr s hs
      | some v =>
        rw [h.removed (by simp [hbefore]) hmark] at hr
        cases hr
    · rw [hdropped hmark] at hs
      cases hs
  loaded _ := by simp
  saved := by simp
  removed h := absurd rfl h

/-- A write, of which the first finds the value saved. -/
theorem write (h : SlotOk row mark saved loaded before) {row' : Option ByteString}
    {mark' : Option Unit} (hvalue : before = none → saved = some (wordBytes value))
    (hlength : ∀ r ∈ row', r.length = 32) (hmark : mark' = none → row' = none) :
    SlotOk row' mark' saved loaded (some (before.getD value)) where
  length := hlength
  unmarked h := by cases h
  current h := by cases h
  loaded h := by cases h
  saved := by
    rintro v ⟨⟩
    cases hbefore : before with
    | none => exact hvalue hbefore
    | some v => exact h.saved v hbefore
  removed _ := hmark

/-- A load of a slot that has a row saves the row, unless something is saved already. -/
theorem loadRow {r : ByteString} (h : SlotOk (some r) mark saved loaded before) :
    SlotOk (some r) mark (saved.or (some r)) (some (wordOfBytes r)) before := by
  have hlength : r.length = 32 := h.length r rfl
  have hsaved : before = none → saved.or (some r) = some r := by
    intro hbefore
    cases hs : saved with
    | none => rfl
    | some s =>
      rw [h.current hbefore r rfl s hs]
      rfl
  constructor
  · exact h.length
  · exact h.unmarked
  · rintro hbefore r' ⟨⟩ s hs
    rw [hsaved hbefore] at hs
    cases hs
    rfl
  · rintro hbefore v ⟨⟩
    rw [hsaved hbefore, wordBytes_wordOfBytes hlength]
  · intro v hv
    rw [h.saved v hv]
    rfl
  · exact h.removed

/-- A load of a slot without a row saves what the chain holds. -/
theorem loadChain (h : SlotOk none mark saved loaded before)
    (hvalue : before = none ∨ before = some value) :
    SlotOk none mark (some (wordBytes value)) (some value) before where
  length := h.length
  unmarked := h.unmarked
  current _ := by simp
  loaded _ := by simp
  saved v hv := by
    rcases hvalue with hnone | hsome
    · cases hnone.symm.trans hv
    · cases hsome.symm.trans hv
      rfl
  removed := h.removed

end SlotOk

/-- The slot in the tables, with what the window records about it. -/
def SlotIn (c : Contents) (g : Window) (x : StorageKey) : Prop :=
  SlotOk (c .storage x) (c .pendingStates x) (c .pendingStorage x) (g.loaded x) (g.before x)

/-- The invariant of the runs: the contracts stay escrowed, and their slots agree with the
window. -/
structure WindowOk (escrowed : Contents) (c : Contents) (g : Window) : Prop where
  contracts : ∀ a, Escrowed escrowed a → Escrowed c a
  slots : ∀ x, Escrowed escrowed x.1 → SlotIn c g x

variable {p : AccountProxy} {key : Word} {w w' : World} {pf : Platform} {store : Store} {b : Beat}

private theorem WindowOk.frame {escrowed c c' : Contents} {g : Window}
    (hc : ∀ t ∈ recordedTables, c' t = c t) (h : WindowOk escrowed c g) :
    WindowOk escrowed c' g where
  contracts a ha := by
    rw [Escrowed, proxyIn, hc .levels (by decide), hc .encrypted (by decide)]
    exact h.contracts a ha
  slots x hx := by
    rw [SlotIn, hc .storage (by decide), hc .pendingStates (by decide),
      hc .pendingStorage (by decide)]
    exact h.slots x hx

namespace AccountProxy

/-- What a read of a row leaves in `pending_storage` for the slot. -/
def savedAfter (p : AccountProxy) (saved : Option ByteString) (state : ByteString) :
    Option ByteString :=
  if saved.isNone ∧ ContractLevel.basic < p.level then some state else saved

private theorem view_of_saveOldState {state : ByteString} {u : Unit}
    (h : p.saveOldState key state w = .ok u w') :
    w'.tx.view .pendingStorage = update (w.tx.view .pendingStorage) (p.translate key)
      (p.savedAfter (w.tx.view .pendingStorage (p.translate key)) state) := by
  obtain ⟨saved, w₁, hget, hput⟩ := bind_eq_ok.mp h
  obtain ⟨rfl, rfl⟩ := Exec.get_eq_ok.mp hget
  rw [savedAfter]
  split at hput
  next hsave =>
    obtain rfl := Exec.put_eq_ok.mp hput
    rw [if_pos hsave, view_put, setRow_self, view_noteRead]
  next hsave =>
    obtain ⟨-, rfl⟩ := pure_eq_ok.mp hput
    rw [if_neg hsave, view_noteRead, update_eq_self]

private theorem view_of_load (h : p.load pf key w = .ok value w') :
    w'.tx.view .pendingStorage = update (w.tx.view .pendingStorage) (p.translate key)
      (match w.tx.view .storage (p.translate key) with
      | some row => p.savedAfter (w.tx.view .pendingStorage (p.translate key)) row
      | none =>
        if p.level = .basic then w.tx.view .pendingStorage (p.translate key)
        else some (wordBytes value)) := by
  obtain ⟨row, w₁, hget, hload⟩ := bind_eq_ok.mp h
  obtain ⟨rfl, rfl⟩ := Exec.get_eq_ok.mp hget
  cases hrow : w.tx.view .storage (p.translate key) with
  | some row =>
    simp only [hrow] at hload
    obtain ⟨u, w₂, hsave, hdecode⟩ := bind_eq_ok.mp hload
    have hsaved := view_of_saveOldState hsave
    have htx : w'.tx = w₂.tx :=
      (p.keeps_decodeState (F := .observing World.tx) pf key row).of_ok hdecode
    rw [htx, hsaved]
    simp only [view_noteRead]
  | none =>
    simp only [hrow] at hload
    by_cases hbasic : p.level = .basic
    · rw [if_pos hbasic] at hload
      obtain ⟨-, rfl⟩ := pure_eq_ok.mp hload
      simp only [if_pos hbasic, view_noteRead, update_eq_self]
    · rw [if_neg hbasic] at hload
      obtain ⟨answer, w₂, hask, hrest⟩ := bind_eq_ok.mp hload
      obtain ⟨rfl, rfl⟩ := modifyGet_eq_ok.mp hask
      obtain ⟨v, w₃, hanswer, hrest⟩ := bind_eq_ok.mp hrest
      obtain ⟨-, rfl⟩ := Exec.orThrow_eq_ok.mp hanswer
      obtain ⟨u, w₄, hput, hrest⟩ := bind_eq_ok.mp hrest
      obtain rfl := Exec.put_eq_ok.mp hput
      split at hrest
      next =>
        obtain ⟨rfl, rfl⟩ := pure_eq_ok.mp hrest
        simp only [if_neg hbasic, view_put, view_noteRead, setRow_self]
      next => cases hrest

end AccountProxy

private theorem Stored.view_pendingStates (h : Stored p key value w w') (y : StorageKey) :
    w'.tx.view .pendingStates y =
      if y = p.translate key ∧ marksPending p value then some ()
      else w.tx.view .pendingStates y := by
  have horigin : (w'.tx .pendingStates).state = (w.tx .pendingStates).state :=
    congrFun h.tables.1 .pendingStates
  rw [view, ChangeSet.view_eq_getD, h.pendingStates y, horigin]
  split
  · rfl
  · exact (ChangeSet.view_eq_getD _ _).symm

namespace StorageOp

variable {pf : Platform} {contract key value : Word} {w w' : World} {r : Option Word}

private theorem pendingStorage_of_sstore (h : (sstore contract key value).exec pf w = .ok r w') :
    w'.tx.view .pendingStorage = w.tx.view .pendingStorage := by
  let tables : List TableName := [.balances, .codes, .nonces, .storage, .pendingStates]
  have hkeeps : (writesOnly tables).Keeps ((sstore contract key value).exec pf) := by
    refine Frame.keeps_bind (writesOnly.keeps_mono (by decide) (keeps_lookup contract)) fun p => ?_
    refine Frame.keeps_bind ?_ fun _ => Frame.keeps_pure _
    exact p.keeps_sstore writesOnly.reads (writesOnly.puts (by decide) _)
      (writesOnly.removes (by decide)) (writesOnly.puts (by decide)) pf value
  exact writesOnly.view_eq (hkeeps.of_ok h) (by decide)

/-- A load changes `pending_storage` at its slot only; what it saves there for an escrowed
contract. -/
theorem pendingStorage_of_sload {chain : Chain} {answers : Bool} (hw : w.CacheOk)
    (h : (sload contract key).exec (pf.withChain chain answers) w = .ok r w') :
    ∃ saved, w'.tx.view .pendingStorage = update (w.tx.view .pendingStorage) (contract, key) saved ∧
      (Escrowed w.tx.view contract → saved = match w.tx.view .storage (contract, key) with
        | some row => (w.tx.view .pendingStorage (contract, key)).or (some row)
        | none => some (wordBytes (chain (contract, key)))) := by
  obtain ⟨p, w₁, hlookup, hrest⟩ := bind_eq_ok.mp h
  obtain ⟨v, w₂, hload, hrest⟩ := bind_eq_ok.mp hrest
  obtain ⟨-, rfl⟩ := pure_eq_ok.mp hrest
  obtain ⟨rfl, -⟩ := EthereumState.get_eq_ok hw hlookup
  have hrel := (keeps_lookup contract).of_ok hlookup
  have hview := AccountProxy.view_of_load hload
  have hslot : (proxyIn w.tx.view contract).translate key = (contract, key) := rfl
  rw [hslot, writesOnly.view_eq hrel (by decide), writesOnly.view_eq hrel (by decide)] at hview
  refine ⟨_, hview, fun hcontract => ?_⟩
  have hreturned :
    returned ((proxyIn w.tx.view contract).load (pf.withChain chain answers) key) w₁ =
      some v := by rw [returned, hload]
  rw [Escrowed] at hcontract
  rw [hcontract] at hreturned ⊢
  rw [AccountProxy.returned_load key w₁ (Nat.lt_irrefl _),
    writesOnly.view_eq hrel (by decide)] at hreturned
  cases hrow : w.tx.view .storage (contract, key) with
  | some row =>
    cases hsaved : w.tx.view .pendingStorage (contract, key) <;> rfl
  | none =>
    have hanswer : (pf.withChain chain answers).exportState w₁.tick contract key = some v := by
      rw [show AccountProxy.translate ⟨contract, none, .solidity⟩ key = (contract, key) from rfl,
        hrow] at hreturned
      exact hreturned
    simp only [Platform.withChain, Option.ite_none_right_eq_some, Option.some.injEq] at hanswer
    rw [hanswer.2]
    rfl

end StorageOp

/-- A heartbeat leaves nothing pending, and no old state of what was. -/
theorem view_beat (h : Bridge.Beating pf store b) (horigin : b.tx.origin = store) (x : StorageKey) :
    b.tx.view .pendingStates x = none ∧ b.tx.view .pendingStorage x =
      if x ∈ b.visited then none else store.content .pendingStorage x := by
  obtain ⟨w, hw, hcollected⟩ := h.collected
  rw [horigin] at hcollected
  constructor
  · rw [view, ChangeSet.view_eq_getD, h.lookup_pendingStates x]
    by_cases hx : x ∈ b.visited
    · rw [if_pos hx, Option.getD_some]
    · rw [if_neg hx, Option.getD_none]
      rw [h.mem_visited] at hx
      exact Option.eq_none_iff_forall_ne_some.mpr fun u hu => hx hu
  · have hview := TransactionSync.view_syncTx_pendingStorage (World.start store).tx b.visited x
    rw [← hw, view, hcollected.pendingStorage]
    exact hview

namespace WindowOk

variable {escrowed c : Contents} {g : Window}

/-- A heartbeat takes the pending slots and begins a new window. -/
theorem beat (h : Bridge.Beating pf store b) (horigin : b.tx.origin = store)
    (hok : WindowOk escrowed store.content g) : WindowOk escrowed b.tx.view .empty := by
  have hslots := view_beat h horigin
  constructor
  · intro a ha
    rw [Escrowed, proxyIn, h.view_eq horigin (by decide), h.view_eq horigin (by decide)]
    exact hok.contracts a ha
  · intro x hx
    have hvisited : x ∈ b.visited ↔ store.content .pendingStates x ≠ none := by
      rw [h.mem_visited, horigin, Option.ne_none_iff_exists']
      constructor
      · intro hmark
        exact ⟨(), hmark⟩
      · rintro ⟨mark, hmark⟩
        exact hmark
    rw [SlotIn, h.view_eq horigin (by decide), (hslots x).1, (hslots x).2]
    apply (hok.slots x hx).renew
    · intro hmark
      rw [if_neg fun hmem => hvisited.mp hmem hmark]
    · intro hmark
      rw [if_pos (hvisited.mpr hmark)]

private theorem noBeat (hpending : ∀ x, c .pendingStates x = none) (hok : WindowOk escrowed c g) :
    WindowOk escrowed c .empty := by
  constructor
  · exact hok.contracts
  · intro x hx
    rw [SlotIn, hpending x]
    exact (hok.slots x hx).renew (fun _ => rfl) fun hmark => absurd (hpending x) hmark

private theorem keeps (pf : Platform) : windowRecorder.Keeps pf (WindowOk escrowed) where
  frame := WindowOk.frame
  beat := WindowOk.beat
  noBeat := WindowOk.noBeat

variable {pf : Platform} {contract key value : Word} {w w' : World} {r : Option Word}
  {chain : Chain} {answers : Bool}

private theorem contracts_of_rel {S : List TableName} (hok : WindowOk escrowed w.tx.view g)
    (hrel : (writesOnly S).rel w w') (hlevels : .levels ∉ S) (hencrypted : .encrypted ∉ S)
    (a : Address) (ha : Escrowed escrowed a) : Escrowed w'.tx.view a := by
  rw [Escrowed, proxyIn_eq_of_rel hrel hlevels hencrypted]
  exact hok.contracts a ha

/-- A store whose old value is captured keeps the invariant. -/
theorem sstore (hok : WindowOk escrowed w.tx.view g) (hw : w.CacheOk)
    (hcaptures : Captures escrowed chain g w (.sstore contract key value))
    (h : (StorageOp.sstore contract key value).exec pf w = .ok r w') : WindowOk escrowed w'.tx.view
      (windowRecorder.storage chain w (.sstore contract key value) g) := by
  have hstored := StorageOp.stored_of_exec hw h
  have hsaved := StorageOp.pendingStorage_of_sstore h
  obtain ⟨state, hstate, hrow⟩ := hstored.view_storage
  constructor
  · exact hok.contracts_of_rel hstored.tables (by decide) (by decide)
  · intro x hx
    have hslot := hok.slots x hx
    rw [SlotIn, hsaved, hrow, hstored.view_pendingStates x]
    have htarget : (proxyIn w.tx.view contract).translate key = (contract, key) := rfl
    rw [htarget]
    by_cases hkey : x = (contract, key)
    · subst hkey
      have hproxy := hok.contracts contract hx
      have hclear : (proxyIn w.tx.view contract).encryptor = none := by rw [hproxy]
      simp only [windowRecorder, update_self]
      apply hslot.write
      · intro hbefore
        rcases hcaptures hx hbefore with hloaded | hsaved
        · exact hslot.loaded hbefore _ hloaded
        · exact hsaved
      · intro row hrow
        by_cases hzero : value = 0
        · rw [if_pos hzero] at hrow
          cases hrow
        · rw [if_neg hzero, hstate hclear, Option.mem_some_iff] at hrow
          rw [← hrow, length_wordBytes]
      · intro hmark
        by_cases hzero : value = 0
        · rw [if_pos hzero]
        · rw [if_pos ⟨trivial, hproxy.marksPending hzero⟩] at hmark
          cases hmark
    · rw [update_of_ne hkey, if_neg fun h => hkey h.1]
      simp only [windowRecorder, update_of_ne hkey]
      exact hslot

/-- A load keeps the invariant, unless it would overwrite the old value of a written slot. -/
theorem sload (hok : WindowOk escrowed w.tx.view g) (hw : w.CacheOk)
    (hcaptures : Captures escrowed chain g w (.sload contract key))
    (h : (StorageOp.sload contract key).exec (pf.withChain chain answers) w = .ok r w') :
    WindowOk escrowed w'.tx.view (windowRecorder.storage chain w (.sload contract key) g) := by
  have hloaded := StorageOp.loaded_of_exec hw h
  obtain ⟨saved, hview, hsaved⟩ := StorageOp.pendingStorage_of_sload hw h
  constructor
  · exact hok.contracts_of_rel hloaded.tables (by decide) (by decide)
  · intro x hx
    have hslot := hok.slots x hx
    rw [SlotIn, writesOnly.view_eq hloaded.tables (by decide),
      writesOnly.view_eq hloaded.tables (by decide), hview]
    by_cases hkey : x = (contract, key)
    · subst hkey
      rw [hsaved (hok.contracts contract hx)]
      simp only [windowRecorder, update_self]
      rw [SlotIn] at hslot
      cases hrow : w.tx.view .storage (contract, key) with
      | some row =>
        rw [hrow] at hslot
        simpa only [slotValue, hrow] using hslot.loadRow
      | none =>
        rw [hrow] at hslot
        simpa only [slotValue, hrow] using hslot.loadChain (hcaptures hx hrow)
    · simp only [windowRecorder, update_of_ne hkey]
      exact hslot

end WindowOk

/-- In every run whose stores find the old values captured, the heartbeats find the values from
before the first writes of the window. -/
theorem preImages_of_reaches (pf : Platform) (store : Store) (version : Nat) (chain : Chain)
    (hpending : ∀ x, Escrowed store.content x.1 → store.content .pendingStates x = none)
    (hrows : ∀ x, Escrowed store.content x.1 → ∀ row ∈ store.content .storage x,
      row.length = 32 ∧ ∀ saved ∈ store.content .pendingStorage x, saved = row)
    (s : Bridge) (g : Record Window)
    (hs : Reaches (windowRecorder.step pf) (CapturesOldStates store.content)
      (.start store version chain, ⟨.empty, .empty⟩) (s, g)) : PreImages store.content s g := by
  have hstart : WindowOk store.content store.content .empty := by
    constructor
    · exact fun _ ha => ha
    · intro x hx
      constructor
      · exact fun row hrow => (hrows x hx row hrow).1
      · exact fun _ => hpending x hx
      · exact fun _ row hrow => (hrows x hx row hrow).2
      · exact fun _ v hv => (nomatch hv)
      · exact fun v hv => (nomatch hv)
      · exact fun hbefore => absurd rfl hbefore
  have hfaithful : Faithful pf (WindowOk store.content) s g := by
    refine Recorder.faithful_of_reaches (WindowOk.keeps pf) (fun _ _ h => h.1) ?_ hstart hs
    intro s g op answers w w' v hok hw hrun hfollow
    have hcaptures := hok.2 w hw
    cases op with
    | sstore contract key value => exact hfollow.holds.sstore hfollow.cache hcaptures hrun
    | sload contract key => exact hfollow.holds.sload hfollow.cache hcaptures hrun
  intro x hx hmark
  have hslot := hfaithful.committed.slots x hx
  cases hbefore : g.committed.before x with
  | none => cases (hslot.unmarked hbefore).symm.trans hmark
  | some v => exact ⟨v, rfl, hslot.saved v hbefore⟩

/-- The saved value and the value from before the first write, of a pending slot. -/
def observeOldState (x : StorageKey) (s : Bridge × Record Window) :
    Option Unit × Option ByteString × Option Word :=
  (s.1.store.content .pendingStates x, s.1.store.content .pendingStorage x, s.2.committed.before x)

/-- A transaction that performs the given instructions and commits. -/
def inOneTransaction (ops : List StorageOp) : List Action :=
  .txBegin 0 :: ops.map (.txStorage 0 · true) ++ [.txCommit 0]

/-- The run of the transactions, beginning with contract 7 escrowed and 3 in each slot on the
chain. -/
def windowRun (ok : Bridge × Record Window → Action → Prop) [∀ s a, Decidable (ok s a)]
    (actions : List Action) : Option (Bridge × Record Window) :=
  performAll (windowRecorder.step .mute) ok
    (.start (escrowedStore [7]) 1 fun _ => 3, ⟨.empty, .empty⟩) actions

/-- A load before the store saves the old value. -/
theorem preImages_after_load_and_store :
    ∃ s g, windowRun (CapturesOldStates (escrowedStore [7]).content)
        (inOneTransaction [.sload 7 1, .sstore 7 1 5, .sload 7 1]) = some (s, g) ∧
      s.store.content .pendingStates (7, 1) = some () ∧
        PreImages (escrowedStore [7]).content s g := by
  have hrun : (windowRun (CapturesOldStates (escrowedStore [7]).content)
      (inOneTransaction [.sload 7 1, .sstore 7 1 5, .sload 7 1])).map
        (observeOldState (7, 1)) = some (some (), some (wordBytes 3), some 3) := by
    decide +kernel
  obtain ⟨⟨s, g⟩, hs, hobserved⟩ := Option.map_eq_some_iff.mp hrun
  refine ⟨s, g, hs, congrArg Prod.fst hobserved, ?_⟩
  apply preImages_of_reaches .mute (escrowedStore [7]) 1 fun _ => 3
  · exact fun _ _ => rfl
  · exact fun _ _ _ hrow => (nomatch hrow)
  · exact reaches_of_performAll .refl hs

/-- A slot that is stored to without having been loaded has no saved value. -/
theorem not_preImages_after_store :
    ∃ s g, windowRun (fun s a => Sequential s.1 a) (inOneTransaction [.sstore 7 1 5]) =
        some (s, g) ∧ ¬ PreImages (escrowedStore [7]).content s g := by
  have hrun : (windowRun (fun s a => Sequential s.1 a) (inOneTransaction [.sstore 7 1 5])).map
      (observeOldState (7, 1)) = some (some (), none, some 3) := by
    decide +kernel
  obtain ⟨⟨s, g⟩, hs, hobserved⟩ := Option.map_eq_some_iff.mp hrun
  simp only [observeOldState, Prod.mk.injEq] at hobserved
  obtain ⟨hmark, hsaved, -⟩ := hobserved
  refine ⟨s, g, hs, fun h => ?_⟩
  obtain ⟨v, -, hv⟩ := h (7, 1) (by decide +kernel) hmark
  cases hsaved.symm.trans hv

end CloakBridge.Tee
