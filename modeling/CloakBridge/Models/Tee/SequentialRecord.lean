import CloakBridge.Models.Tee.StorageOps

/-!
# Records of sequential runs

Transactions run one after the other, with heartbeats and acknowledgements between them.
Beside the system a record is kept: storage instructions add to it, a commit makes the
additions permanent, an exception drops them, and a heartbeat may reset it.
-/

namespace CloakBridge.Tee

open Kv Function Web3Operation

/-- One transaction at a time; what the ring buffer brings is handled between transactions. -/
def Sequential (s : Bridge) : Action → Prop
  | .txBegin i => i = 0 ∧ s.beat.isNone
  | .txStorage i _ _ | .txNonce i | .txCommit i | .txAbort i => i = 0
  | .beatBegin _ | .acknowledge => (s.running 0).isNone
  | .beatCommit | .hostSend | .rpcReply _ _ | .chainExecute _ => True

instance (s : Bridge) : (a : Action) → Decidable (Sequential s a)
  | .txBegin _ => inferInstanceAs (Decidable (_ ∧ _))
  | .txStorage _ _ _ | .txNonce _ | .txCommit _ | .txAbort _ => inferInstanceAs (Decidable (_ = _))
  | .beatBegin _ | .acknowledge => inferInstanceAs (Decidable (_ = _))
  | .beatCommit | .hostSend | .rpcReply _ _ | .chainExecute _ => isTrue trivial

variable {G : Type}

/-- What is recorded up to the last commit, and with the transaction in progress. -/
@[ext] structure Record (G : Type) where
  committed : G
  current : G

/-- How a record is kept: what a storage instruction adds, and what a heartbeat leaves. -/
structure Recorder (G : Type) where
  storage : Chain → World → StorageOp → G → G
  beat : G → G

/-- The record after a step. A heartbeat that finds nothing pending ends when it begins. -/
def Recorder.after (r : Recorder G) (s s' : Bridge) (a : Action) (g : Record G) : Record G :=
  match a, s.running 0, s'.running 0 with
  | .txStorage _ op _, some w, some _ => { g with current := r.storage s.chain w op g.current }
  | .txCommit _, _, _ => ⟨g.current, g.current⟩
  | .beatCommit, _, _ | .beatBegin [], _, _ => ⟨r.beat g.committed, r.beat g.committed⟩
  | _, _, some _ => g
  | _, _, none => ⟨g.committed, g.committed⟩

/-- The system together with its record. -/
def Recorder.step (r : Recorder G) (pf : Platform) (s : Bridge × Record G) (a : Action) :
    Option (Bridge × Record G) :=
  (s.1.step pf a).map fun s' => (s', r.after s.1 s' a s.2)

/-- Storage instructions keep the last value stored to each slot. -/
def storesRecorder : Recorder (StorageKey → Option Word) where
  storage _ _ op g :=
    match op with
    | .sstore contract key value => update g (contract, key) (some value)
    | .sload _ _ => g
  beat g := g

/-- The tables that a record may be about. -/
def recordedTables : List TableName :=
  [.storage, .levels, .encrypted, .pendingStates, .pendingStorage]

/-- The tables that a heartbeat writes to. -/
def Bridge.beatTables : List TableName := [.syncs, .pendingStates, .pendingStorage, .teeNonces]

variable {pf : Platform} {store : Store} {r : Recorder G} {P : Contents → G → Prop} {w : World}

/-- A heartbeat on the latest store leaves the other tables as they are. -/
theorem Bridge.Beating.view_eq {b : Beat} (h : Bridge.Beating pf store b)
    (horigin : b.tx.origin = store) {t : TableName} (ht : t ∉ Bridge.beatTables) :
    b.tx.view t = store.content t := by
  obtain ⟨w, hw, hcollected⟩ := h.collected
  rw [horigin] at hcollected
  rw [← hw]
  exact writesOnly.view_eq hcollected.writes ht

/-- The transaction in progress sees what the record says. -/
structure Following (P : Contents → G → Prop) (store : Store) (g : G) (w : World) : Prop where
  origin : w.tx.origin = store
  cache : w.CacheOk
  holds : P w.tx.view g

/-- The committed tables and the transaction in progress agree with the record. -/
structure Faithful (pf : Platform) (P : Contents → G → Prop) (s : Bridge) (g : Record G) :
    Prop where
  committed : P s.store.content g.committed
  running : ∀ w, s.running 0 = some w → Following P s.store g.current w
  idle : s.running 0 = none → g.current = g.committed
  beat : ∀ b, s.beat = some b →
    s.running 0 = none ∧ b.tx.origin = s.store ∧ Bridge.Beating pf s.store b

/-- What a statement about the tables and the record has to satisfy besides being kept by storage
instructions. -/
structure Recorder.Keeps (r : Recorder G) (pf : Platform) (P : Contents → G → Prop) : Prop where
  frame : ∀ {c c' : Contents} {g : G}, (∀ t ∈ recordedTables, c' t = c t) → P c g → P c' g
  beat : ∀ {store : Store} {b : Beat} {g : G}, Bridge.Beating pf store b → b.tx.origin = store →
    P store.content g → P b.tx.view (r.beat g)
  noBeat : ∀ {c : Contents} {g : G}, (∀ x, c .pendingStates x = none) → P c g → P c (r.beat g)

private theorem Recorder.Keeps.of_rel (hr : r.Keeps pf P) {S : List TableName} {w' : World} {g : G}
    (hrel : (writesOnly S).rel w w') (hS : ∀ t ∈ recordedTables, t ∉ S) (h : P w.tx.view g) :
    P w'.tx.view g :=
  hr.frame (fun t ht => writesOnly.view_eq hrel (hS t ht)) h

namespace Faithful

variable {r : Recorder G} {pf : Platform} {P : Contents → G → Prop} {s s' : Bridge} {g : Record G}
  {g' : G}

private theorem beat_eq_none (h : Faithful pf P s g) (hw : s.running 0 = some w) :
    s.beat = none := by
  cases hb : s.beat with
  | none => rfl
  | some b => cases hw.symm.trans (h.beat b hb).1

private theorem runs (h : Faithful pf P s g) (hbeat : s.beat = none)
    (hfollow : Following P s.store g' w) :
    Faithful pf P { s with running := update s.running 0 (some w) } ⟨g.committed, g'⟩ := by
  have hrunning : update s.running 0 (some w) 0 = some w := update_self ..
  constructor
  · exact h.committed
  · intro w' hw'
    cases hrunning.symm.trans hw'
    exact hfollow
  · intro hidle
    cases hrunning.symm.trans hidle
  · intro b hb
    cases hbeat.symm.trans hb

/-- Nothing is in progress any more. -/
theorem rest (hrunning : s'.running 0 = none) (hcommitted : P s'.store.content g')
    (hbeat : ∀ b, s'.beat = some b → b.tx.origin = s'.store ∧ Bridge.Beating pf s'.store b) :
    Faithful pf P s' ⟨g', g'⟩ where
  committed := hcommitted
  running := by
    intro w hw
    cases hrunning.symm.trans hw
  idle _ := rfl
  beat b hb := ⟨hrunning, hbeat b hb⟩

/-- A step that touches neither the tables nor the transaction in progress. -/
theorem outside (h : Faithful pf P s g) (hrunning : s'.running 0 = s.running 0)
    (hstore : s'.store = s.store) (hbeat : s'.beat = s.beat) : Faithful pf P s' g where
  committed := by rw [hstore]; exact h.committed
  running := by rw [hstore, hrunning]; exact h.running
  idle := by rw [hrunning]; exact h.idle
  beat := by rw [hstore, hrunning, hbeat]; exact h.beat

private theorem pendingStates_eq_none (h : s.step pf (.beatBegin []) = some s') (x : StorageKey) :
    s.store.content .pendingStates x = none := by
  simp only [Bridge.step, Bridge.beatBegin] at h
  split at h
  next hguard =>
    rw [Option.eq_none_iff_forall_ne_some]
    intro v hv
    have hmem := hguard.2.mem_iff.mpr (VersionedMap.mem_live.mpr ⟨v, hv⟩)
    cases hmem
  next => cases h

/-- Steps of a sequential run keep a statement that storage instructions and heartbeats keep. -/
theorem step {a : Action} (hr : r.Keeps pf P) (h : Faithful pf P s g) (hok : Sequential s a)
    (hstorage : ∀ op answers w w' v, a = .txStorage 0 op answers → s.running 0 = some w →
      op.exec (pf.withChain s.chain answers) w = .ok v w' → Following P s.store g.current w →
        P w'.tx.view (r.storage s.chain w op g.current))
    (hstep : s.step pf a = some s') : Faithful pf P s' (r.after s s' a g) := by
  have hends : update s.running 0 none 0 = none := update_self ..
  cases Bridge.stepped_of_step hstep with
  | txBegin hi =>
    obtain ⟨rfl, hbeat⟩ := hok
    simp only [Recorder.after, update_self]
    apply h.runs (Option.isNone_iff_eq_none.mp hbeat)
    rw [h.idle hi]
    exact ⟨rfl, World.cacheOk_start s.store, h.committed⟩
  | @txStorage i op answers w w' v hw hrun =>
    obtain rfl := hok
    have hfollow := h.running w hw
    have hw' := hstorage op answers w w' v rfl hw hrun hfollow
    simp only [Recorder.after, hw, update_self]
    apply h.runs (h.beat_eq_none hw)
    cases op with
    | sstore contract key value =>
      have hstored := StorageOp.stored_of_exec hfollow.cache hrun
      exact ⟨hstored.tables.1.trans hfollow.origin, hstored.cache, hw'⟩
    | sload contract key =>
      have hloaded := StorageOp.loaded_of_exec hfollow.cache hrun
      exact ⟨hloaded.tables.1.trans hfollow.origin, hloaded.cache, hw'⟩
  | @txNonce i w w' hw hrun =>
    obtain rfl := hok
    have hfollow := h.running w hw
    have hrel : (writesOnly [.teeNonces]).rel w w' :=
      (keeps_incrementNonce writesOnly.reads (writesOnly.puts (by decide))).of_ok hrun
    have hcache : w'.cache = w.cache :=
      (keeps_incrementNonce sameCache.reads (sameCache.puts _)).of_ok hrun
    simp only [Recorder.after, update_self]
    apply h.runs (h.beat_eq_none hw)
    exact ⟨hrel.1.trans hfollow.origin, hfollow.cache.of_rel hrel (by decide) (by decide) hcache,
      hr.of_rel hrel (by decide) hfollow.holds⟩
  | @txEnd a i ha =>
    have hi : i = 0 := by
      rcases ha with ⟨op, answers, rfl⟩ | rfl | rfl
      · exact hok
      · exact hok
      · exact hok
    subst hi
    have hafter : ∀ s', s'.running 0 = none → r.after s s' a g = ⟨g.committed, g.committed⟩ := by
      intro s' hs'
      rcases ha with ⟨op, answers, rfl⟩ | rfl | rfl <;> simp only [Recorder.after, hs']
    rw [hafter _ hends]
    exact rest hends h.committed fun b hb => (h.beat b hb).2
  | @txCommit i w hw =>
    obtain rfl := hok
    have hfollow := h.running w hw
    simp only [Recorder.after]
    refine rest hends ?_ ?_
    · rw [Bridge.content_tryCommit_of_origin_eq hfollow.origin]
      exact hfollow.holds
    · intro b hb
      cases (h.beat_eq_none hw).symm.trans hb
  | beatIdle visited =>
    have hidle := Option.isNone_iff_eq_none.mp hok
    cases visited with
    | nil =>
      simp only [Recorder.after]
      exact rest hidle (hr.noBeat (pendingStates_eq_none hstep) h.committed)
        fun b hb => (h.beat b hb).2
    | cons x visited =>
      simp only [Recorder.after, hidle]
      exact rest hidle h.committed fun b hb => (h.beat b hb).2
  | @beatBegin visited m w hbeat hvisited hrun =>
    have hidle := Option.isNone_iff_eq_none.mp hok
    have hbeating := Bridge.beating_of_onHeartBeat hvisited hrun
    have horigin : w.tx.origin = s.store := ((keeps_onHeartBeat pf visited).of_ok hrun).1
    cases visited with
    | nil => cases hbeating.visited_ne_nil rfl
    | cons x visited =>
      simp only [Recorder.after, hidle]
      refine rest hidle h.committed ?_
      rintro b ⟨⟩
      exact ⟨horigin, hbeating⟩
  | @beatCommit b hb =>
    obtain ⟨hidle, horigin, hbeating⟩ := h.beat b hb
    simp only [Recorder.after]
    refine rest hidle ?_ ?_
    · rw [Bridge.content_tryCommit_of_origin_eq horigin]
      exact hr.beat hbeating horigin h.committed
    · intro b' hb'
      cases hb'
  | @acknowledge m toEnclave target keys w hqueue hbeat htarget hkeys hrun =>
    have hidle := Option.isNone_iff_eq_none.mp hok
    have hrel := (keeps_onSuccess target keys).of_ok hrun
    have hrunning : (s.tryCommit w.tx).running 0 = none := hidle
    simp only [Recorder.after, hrunning]
    refine rest hidle ?_ ?_
    · rw [Bridge.content_tryCommit_of_origin_eq hrel.1]
      exact hr.of_rel hrel (by decide) h.committed
    · intro b hb
      cases hbeat.symm.trans hb
  | hostSend | rpcAccept | rpcReject | parseFailed | chainExecute =>
    cases hrunning : s.running 0 with
    | some w =>
      simp only [Recorder.after, hrunning]
      exact h.outside rfl rfl rfl
    | none =>
      simp only [Recorder.after, hrunning]
      exact rest hrunning h.committed fun b hb => (h.beat b hb).2

end Faithful

/-- A statement that holds at first and is kept by the storage instructions of a run is true of
every state the run reaches. -/
theorem Recorder.faithful_of_reaches {ok : Bridge × Record G → Action → Prop} (hr : r.Keeps pf P)
    (hok : ∀ s a, ok s a → Sequential s.1 a)
    (hstorage : ∀ s g op answers w w' v, ok (s, g) (.txStorage 0 op answers) →
      s.running 0 = some w → op.exec (pf.withChain s.chain answers) w = .ok v w' →
        Following P s.store g.current w → P w'.tx.view (r.storage s.chain w op g.current))
    {version : Nat} {chain : Chain} {g₀ : G} (h₀ : P store.content g₀) {s : Bridge × Record G}
    (hs : Reaches (r.step pf) ok (.start store version chain, ⟨g₀, g₀⟩) s) :
    Faithful pf P s.1 s.2 := by
  refine hs.invariant (I := fun s => Faithful pf P s.1 s.2) ?_ ?_
  · apply Faithful.rest rfl h₀
    intro b hb
    cases hb
  · rintro ⟨s, g⟩ a s' h ha hstep
    obtain ⟨s₁, hs₁, rfl⟩ := Option.map_eq_some_iff.mp hstep
    refine h.step hr (hok _ _ ha) ?_ hs₁
    rintro op answers w w' v rfl
    exact hstorage s g op answers w w' v ha

end CloakBridge.Tee
