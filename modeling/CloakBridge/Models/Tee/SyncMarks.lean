import CloakBridge.Core.KeccakRows
import CloakBridge.Models.Tee.BridgeSound

/-!
# Which slots are marked as being synchronised

A slot should be marked exactly while some message that lists it is not acknowledged. The
mark carries no reference to the message, and an acknowledgement clears all slots the
message lists. The marks are right as long as every heartbeat commits and finds the
pending slots of a single contract, none of them still marked, and the host can tell the
hashes of its pending transactions apart.
-/

namespace CloakBridge.Tee

open Kv Function Web3Operation List

/-- A slot is marked exactly if some message that lists it is not acknowledged. -/
def SyncsExact (s : Bridge) : Prop :=
  ∀ x, s.store.content .syncs x = some () ↔
    ∃ m ∈ s.sent, m.message.call.Lists x ∧ m.id ∉ s.processed

/-- Heartbeats begin while the pending slots belong to one contract and none of them is marked, and
commit without a conflict; the host gets transactions that it hashes whole and whose hash is not in
use. -/
def TracksSyncs (s : Bridge) : Action → Prop
  | .beatBegin _ => SingleContract (s.store .pendingStates).live ∧
      ∀ x ∈ (s.store .pendingStates).live, s.store.content .syncs x = none
  | .beatCommit => ∀ b ∈ s.beat, b.tx.Valid s.store
  | .hostSend => ∀ m ∈ s.toHost.head?, m.message.raw.length < 2 ^ 16 ∧
      s.host.pending (keccak256 m.message.raw) = none
  | _ => True

instance (s : Bridge) : (a : Action) → Decidable (TracksSyncs s a)
  | .beatBegin _ =>
    have := List.decidableBAll (fun x => s.store.content .syncs x = none)
      (s.store .pendingStates).live
    inferInstanceAs (Decidable (_ ∧ _))
  | .beatCommit => inferInstanceAs (Decidable (∀ b ∈ s.beat, b.tx.Valid s.store))
  | .hostSend => inferInstanceAs (Decidable (∀ m ∈ s.toHost.head?, _ ∧ _))
  | .txBegin _ | .txStorage _ _ _ | .txNonce _ | .txCommit _ | .txAbort _ | .rpcReply _ _
  | .acknowledge | .chainExecute _ => isTrue trivial

namespace SyncMarks

/-- The messages and acknowledgements explain the marks; unacknowledged messages do not overlap. -/
structure MarksOk (syncs : Content StorageKey Unit) (sent : List Sent) (processed : List Nat) :
    Prop where
  marked : ∀ x, syncs x = some () ↔ ∃ m ∈ sent, m.message.call.Lists x ∧ m.id ∉ processed
  ids : (sent.map Sent.id).Nodup
  sent_lt : ∀ m ∈ sent, m.id < sent.length
  processed_lt : ∀ i ∈ processed, i < sent.length
  once : ∀ m ∈ sent, ∀ m' ∈ sent, m.id ∉ processed → m'.id ∉ processed →
    ∀ x, m.message.call.Lists x → m'.message.call.Lists x → m.id = m'.id

/-- The numbers of the messages on their way to the host, at the endpoint, and on their way back. -/
def flying (toHost requests : List Sent) (toEnclave : List Success) : List Nat :=
  toHost.map Sent.id ++ (requests.map Sent.id ++ toEnclave.map Success.id)

/-- The acknowledgement speaks for the message. -/
structure Acknowledges (r : Success) (m : Sent) : Prop where
  id : r.id = m.id
  target : r.target = some m.message.call.contract
  keys : r.keys = some m.message.call.keys

/-- The host has the entries of a message. -/
structure Entered (host : Host) (m : Sent) : Prop where
  target : host.pending (Keccak.keccak256 m.message.raw) = some m.message.call.contract
  keys : host.pendingKeys (Keccak.keccak256 m.message.raw) = some m.message.call.keys

/-- What is on its way was sent, is on its way once, and is not acknowledged yet. -/
structure QueuesOk (toHost requests : List Sent) (toEnclave : List Success) (host : Host)
    (sent : List Sent) (processed : List Nat) : Prop where
  nodup : (flying toHost requests toEnclave).Nodup
  unprocessed : ∀ i ∈ flying toHost requests toEnclave, i ∉ processed
  toHost_sent : ∀ m ∈ toHost, m ∈ sent
  requests_sent : ∀ m ∈ requests, m ∈ sent
  acknowledged : ∀ r ∈ toEnclave, ∃ m ∈ sent, Acknowledges r m
  entered : ∀ m ∈ requests, Entered host m
  hashes : requests.Pairwise fun m m' =>
    Keccak.keccak256 m.message.raw ≠ Keccak.keccak256 m'.message.raw
  aligned : ∀ txHash, host.pending txHash = none → host.pendingKeys txHash = none

/-- A heartbeat in progress lists what it visited, and none of that is marked. -/
structure BeatOk (syncs : Content StorageKey Unit) (b : Beat) : Prop where
  lists : ∀ x, b.message.call.Lists x ↔ x ∈ b.visited
  unmarked : ∀ x ∈ b.visited, syncs x = none

/-- The invariant. -/
structure Inv (pf : Platform) (s : Bridge) : Prop where
  sound : s.Sound pf
  marks : MarksOk (s.store.content .syncs) s.sent s.processed
  queues : QueuesOk s.toHost s.requests s.toEnclave s.host s.sent s.processed
  beat : ∀ b, s.beat = some b → BeatOk (s.store.content .syncs) b

variable {syncs : Content StorageKey Unit} {sent : List Sent} {processed : List Nat} {m : Sent}

/-- A message with a new number, for unmarked slots, marks what it lists. -/
theorem MarksOk.send (h : MarksOk syncs sent processed) (hid : m.id = sent.length)
    {visited : List StorageKey} (hlists : ∀ x, m.message.call.Lists x ↔ x ∈ visited)
    (hunmarked : ∀ x ∈ visited, syncs x = none) {syncs' : Content StorageKey Unit}
    (hsyncs : ∀ x, syncs' x = if x ∈ visited then some () else syncs x) :
    MarksOk syncs' (m :: sent) processed := by
  have hfresh : ∀ m' ∈ sent, m'.id ∉ processed → ∀ x, m'.message.call.Lists x → x ∉ visited := by
    intro m' hm' hid' x hx hvisited
    have hmarked := (h.marked x).mpr ⟨m', hm', hx, hid'⟩
    cases (hunmarked x hvisited).symm.trans hmarked
  have hnew : m.id ∉ processed := fun hmem => by
    have := h.processed_lt _ hmem
    omega
  refine ⟨fun x => ?_, ?_, fun m' hm' => ?_, fun i hi => ?_, ?_⟩
  · rw [hsyncs x]
    by_cases hx : x ∈ visited
    · rw [if_pos hx]
      exact ⟨fun _ => ⟨m, mem_cons_self, (hlists x).mpr hx, hnew⟩, fun _ => rfl⟩
    · rw [if_neg hx, h.marked x]
      constructor
      · rintro ⟨m', hm', hlist, hid'⟩
        exact ⟨m', mem_cons_of_mem _ hm', hlist, hid'⟩
      · rintro ⟨m', hm', hlist, hid'⟩
        rcases mem_cons.mp hm' with rfl | hm'
        · exact absurd ((hlists x).mp hlist) hx
        · exact ⟨m', hm', hlist, hid'⟩
  · rw [map_cons, nodup_cons]
    refine ⟨fun hmem => ?_, h.ids⟩
    obtain ⟨m', hm', heq⟩ := mem_map.mp hmem
    have := h.sent_lt m' hm'
    omega
  · rw [length_cons]
    rcases mem_cons.mp hm' with rfl | hm'
    · omega
    · have := h.sent_lt m' hm'
      omega
  · rw [length_cons]
    have := h.processed_lt i hi
    omega
  · intro m₁ hm₁ m₂ hm₂ hid₁ hid₂ x hx₁ hx₂
    rcases mem_cons.mp hm₁ with heq₁ | hin₁
    · rcases mem_cons.mp hm₂ with heq₂ | hin₂
      · rw [heq₁, heq₂]
      · rw [heq₁] at hx₁
        exact absurd ((hlists x).mp hx₁) (hfresh m₂ hin₂ hid₂ x hx₂)
    · rcases mem_cons.mp hm₂ with heq₂ | hin₂
      · rw [heq₂] at hx₂
        exact absurd ((hlists x).mp hx₂) (hfresh m₁ hin₁ hid₁ x hx₁)
      · exact h.once m₁ hin₁ m₂ hin₂ hid₁ hid₂ x hx₁ hx₂

/-- The acknowledgement of a message clears the marks of what it lists. -/
theorem MarksOk.acknowledge (h : MarksOk syncs sent processed) {m : Sent} (hm : m ∈ sent)
    (hid : m.id ∉ processed) {syncs' : Content StorageKey Unit}
    (hsyncs : ∀ x, syncs' x = if m.message.call.Lists x then none else syncs x) :
    MarksOk syncs' sent (m.id :: processed) := by
  refine ⟨fun x => ?_, h.ids, h.sent_lt, fun i hi => ?_, ?_⟩
  · rw [hsyncs x]
    by_cases hx : m.message.call.Lists x
    · rw [if_pos hx]
      refine ⟨fun hnone => (nomatch hnone), ?_⟩
      rintro ⟨m', hm', hlist, hid'⟩
      obtain ⟨hne, hid'⟩ := not_or.mp (mt mem_cons.mpr hid')
      exact absurd (h.once m' hm' m hm hid' hid x hlist hx) hne
    · rw [if_neg hx, h.marked x]
      constructor
      · rintro ⟨m', hm', hlist, hid'⟩
        refine ⟨m', hm', hlist, fun hmem => ?_⟩
        rcases mem_cons.mp hmem with heq | hmem
        · have hsame : m' = m := inj_on_of_nodup_map h.ids hm' hm heq
          exact hx (hsame ▸ hlist)
        · exact hid' hmem
      · rintro ⟨m', hm', hlist, hid'⟩
        exact ⟨m', hm', hlist, fun hmem => hid' (mem_cons_of_mem _ hmem)⟩
  · rcases mem_cons.mp hi with rfl | hi
    · exact h.sent_lt m hm
    · exact h.processed_lt i hi
  · intro m₁ hm₁ m₂ hm₂ hid₁ hid₂
    exact h.once m₁ hm₁ m₂ hm₂ (fun hmem => hid₁ (mem_cons_of_mem _ hmem))
      fun hmem => hid₂ (mem_cons_of_mem _ hmem)

section Queues

variable {toHost requests : List Sent} {toEnclave : List Success} {host : Host}
  {txHash : ByteString} {target : Option Address} {keys : Option (List Word)}

/-- A message with a new number joins the queue to the host. -/
theorem QueuesOk.send (h : QueuesOk toHost requests toEnclave host sent processed)
    (hmarks : MarksOk syncs sent processed) (hid : m.id = sent.length) :
    QueuesOk (toHost ++ [m]) requests toEnclave host (m :: sent) processed := by
  have hflying : (flying (toHost ++ [m]) requests toEnclave).Perm
      (m.id :: flying toHost requests toEnclave) := by
    rw [flying, map_append, append_assoc]
    exact perm_middle
  have hlt : ∀ i ∈ flying toHost requests toEnclave, i < sent.length := by
    intro i hi
    rcases mem_append.mp hi with hi | hi
    · obtain ⟨m', hm', rfl⟩ := mem_map.mp hi
      exact hmarks.sent_lt m' (h.toHost_sent m' hm')
    · rcases mem_append.mp hi with hi | hi
      · obtain ⟨m', hm', rfl⟩ := mem_map.mp hi
        exact hmarks.sent_lt m' (h.requests_sent m' hm')
      · obtain ⟨r, hr, rfl⟩ := mem_map.mp hi
        obtain ⟨m', hm', hack⟩ := h.acknowledged r hr
        rw [hack.id]
        exact hmarks.sent_lt m' hm'
  refine ⟨?_, fun i hi => ?_, fun m' hm' => ?_, fun m' hm' => ?_, fun r hr => ?_, h.entered,
    h.hashes, h.aligned⟩
  · rw [hflying.nodup_iff, nodup_cons]
    refine ⟨fun hmem => ?_, h.nodup⟩
    have := hlt _ hmem
    omega
  · rcases mem_cons.mp (hflying.mem_iff.mp hi) with rfl | hi
    · intro hmem
      have := hmarks.processed_lt _ hmem
      omega
    · exact h.unprocessed i hi
  · rcases mem_append.mp hm' with hm' | hm'
    · exact mem_cons_of_mem _ (h.toHost_sent m' hm')
    · rw [mem_singleton.mp hm']
      exact mem_cons_self
  · exact mem_cons_of_mem _ (h.requests_sent m' hm')
  · obtain ⟨m', hm', hack⟩ := h.acknowledged r hr
    exact ⟨m', mem_cons_of_mem _ hm', hack⟩

private theorem Entered.of_ne (h : Entered host m) (hne : Keccak.keccak256 m.message.raw ≠ txHash) :
    Entered ⟨update host.pending txHash target, update host.pendingKeys txHash keys⟩ m := by
  refine ⟨?_, ?_⟩
  · exact (update_of_ne hne _ _).trans h.target
  · exact (update_of_ne hne _ _).trans h.keys

/-- Both maps of the host keep the same hashes. -/
private theorem aligned_update
    (h : ∀ txHash, host.pending txHash = none → host.pendingKeys txHash = none)
    (hboth : target = none → keys = none) (txHash' : ByteString)
    (hnone : update host.pending txHash target txHash' = none) :
    update host.pendingKeys txHash keys txHash' = none := by
  by_cases heq : txHash' = txHash
  · subst heq
    rw [update_self] at hnone ⊢
    exact hboth hnone
  · rw [update_of_ne heq] at hnone ⊢
    exact h txHash' hnone

/-- The host enters a message whose hash is not in use and passes it on. -/
theorem QueuesOk.hostSend {m : Sent}
    (h : QueuesOk (m :: toHost) requests toEnclave host sent processed)
    (hlength : m.message.raw.length < 2 ^ 16)
    (hunused : host.pending (keccak256 m.message.raw) = none) :
    QueuesOk toHost (requests ++ [m]) toEnclave (host.record m.message) sent processed := by
  have hkeys := h.aligned _ hunused
  have hflying : (flying toHost (requests ++ [m]) toEnclave).Perm
      (flying (m :: toHost) requests toEnclave) := by
    rw [flying, map_append, append_assoc]
    refine (List.Perm.append_left _ perm_middle).trans ?_
    exact perm_middle
  have hrecord : host.record m.message = ⟨update host.pending (Keccak.keccak256 m.message.raw)
          (some m.message.call.contract), update host.pendingKeys (Keccak.keccak256 m.message.raw)
          (some m.message.call.keys)⟩ := by
    rw [Host.record, hunused, hkeys, keccak256_of_lt hlength]
    rfl
  rw [keccak256_of_lt hlength] at hunused
  have hother : ∀ m' ∈ requests,
      Keccak.keccak256 m'.message.raw ≠ Keccak.keccak256 m.message.raw := by
    intro m' hm' heq
    have htarget := (h.entered m' hm').target
    rw [heq, hunused] at htarget
    cases htarget
  rw [hrecord]
  refine ⟨hflying.nodup_iff.mpr h.nodup, fun i hi => h.unprocessed i (hflying.mem_iff.mp hi),
    fun m' hm' => h.toHost_sent m' (mem_cons_of_mem _ hm'), fun m' hm' => ?_, h.acknowledged,
    fun m' hm' => ?_, ?_, aligned_update h.aligned fun hnone => (nomatch hnone)⟩
  · rcases mem_append.mp hm' with hm' | hm'
    · exact h.requests_sent m' hm'
    · rw [mem_singleton.mp hm']
      exact h.toHost_sent m mem_cons_self
  · rcases mem_append.mp hm' with hm' | hm'
    · exact (h.entered m' hm').of_ne (hother m' hm')
    · rw [mem_singleton.mp hm']
      exact ⟨update_self _ _ _, update_self _ _ _⟩
  · refine pairwise_append.mpr ⟨h.hashes, pairwise_singleton _ _, ?_⟩
    intro m₁ hm₁ m₂ hm₂
    rw [mem_singleton.mp hm₂]
    exact hother m₁ hm₁

/-- An accepted request comes back as the acknowledgement of its message. -/
theorem QueuesOk.accept {i : Nat} (h : QueuesOk toHost requests toEnclave host sent processed)
    (hm : requests[i]? = some m) :
    QueuesOk toHost (requests.eraseIdx i) (toEnclave ++ [host.success m])
      (host.erase (Keccak.keccak256 m.message.raw)) sent processed := by
  obtain ⟨hi, hmi⟩ := List.getElem?_eq_some_iff.mp hm
  have hperm : (m :: requests.eraseIdx i).Perm requests := by
    rw [← hmi]
    exact getElem_cons_eraseIdx_perm hi
  have hmem : m ∈ requests := hperm.mem_iff.mp mem_cons_self
  have hrest : ∀ m' ∈ requests.eraseIdx i, m' ∈ requests := fun m' hm' =>
    mem_of_mem_eraseIdx hm'
  have hentered := h.entered m hmem
  have hack : Acknowledges (host.success m) m := ⟨rfl, hentered.target, hentered.keys⟩
  have hflying : (flying toHost (requests.eraseIdx i) (toEnclave ++ [host.success m])).Perm
      (flying toHost requests toEnclave) := by
    refine List.Perm.append_left _ ?_
    rw [map_append, ← append_assoc]
    refine (perm_append_singleton _ _).trans ?_
    exact (hperm.map Sent.id).append_right _
  have hother : ∀ m' ∈ requests.eraseIdx i,
      Keccak.keccak256 m'.message.raw ≠ Keccak.keccak256 m.message.raw := by
    have hpair := (hperm.pairwise_iff fun hne => Ne.symm hne).mpr h.hashes
    intro m' hm'
    exact ((pairwise_cons.mp hpair).1 m' hm').symm
  refine ⟨hflying.nodup_iff.mpr h.nodup, fun j hj => h.unprocessed j (hflying.mem_iff.mp hj),
    h.toHost_sent, fun m' hm' => h.requests_sent m' (hrest m' hm'), fun r hr => ?_, fun m' hm' =>
    (h.entered m' (hrest m' hm')).of_ne (hother m' hm'), ?_, aligned_update h.aligned fun _ => rfl⟩
  · rcases mem_append.mp hr with hr | hr
    · exact h.acknowledged r hr
    · rw [mem_singleton.mp hr]
      exact ⟨m, h.requests_sent m hmem, hack⟩
  · exact h.hashes.sublist (eraseIdx_sublist requests i)

private theorem QueuesOk.reject (h : QueuesOk toHost requests toEnclave host sent processed)
    (i : Nat) :
    QueuesOk toHost (requests.eraseIdx i) toEnclave host sent processed := by
  have hsub : (flying toHost (requests.eraseIdx i) toEnclave).Sublist (flying toHost requests
      toEnclave) := (List.Sublist.refl _).append (((eraseIdx_sublist requests i).map Sent.id).append
      (List.Sublist.refl _))
  have hrest : ∀ m' ∈ requests.eraseIdx i, m' ∈ requests := fun m' hm' =>
    mem_of_mem_eraseIdx hm'
  exact ⟨h.nodup.sublist hsub, fun j hj => h.unprocessed j (hsub.subset hj), h.toHost_sent,
    fun m' hm' => h.requests_sent m' (hrest m' hm'), h.acknowledged,
    fun m' hm' => h.entered m' (hrest m' hm'),
    h.hashes.sublist (eraseIdx_sublist requests i), h.aligned⟩

private theorem QueuesOk.acknowledge {r : Success}
    (h : QueuesOk toHost requests (r :: toEnclave) host sent processed) :
    QueuesOk toHost requests toEnclave host sent (r.id :: processed) := by
  have hflying : (flying toHost requests (r :: toEnclave)).Perm
      (r.id :: flying toHost requests toEnclave) := by
    rw [flying, map_cons]
    refine (List.Perm.append_left _ perm_middle).trans ?_
    exact perm_middle
  have hnodup := nodup_cons.mp (hflying.nodup_iff.mp h.nodup)
  refine ⟨hnodup.2, fun i hi hmem => ?_, h.toHost_sent, h.requests_sent,
    fun r' hr' => h.acknowledged r' (mem_cons_of_mem _ hr'), h.entered, h.hashes, h.aligned⟩
  rcases mem_cons.mp hmem with rfl | hmem
  · exact hnodup.1 hi
  · exact h.unprocessed i (hflying.mem_iff.mpr (mem_cons_of_mem _ hi)) hmem

end Queues

/-- The success handler removes the marks of the keys it was given, and nothing else. -/
theorem view_onSuccess {target : Address} {keys : List Word} {w w' : World}
    (h : onSuccess target keys w = .ok () w') (x : StorageKey) :
    w'.tx.view .syncs x = if target = x.1 ∧ x.2 ∈ keys then none else w.tx.view .syncs x := by
  unfold onSuccess at h
  induction keys generalizing w with
  | nil =>
    cases h
    simp
  | cons key keys ih =>
    have hrest := ih (w := { w with tx := w.tx.remove .syncs (target, key) }) h
    have hremove : ({ w with tx := w.tx.remove .syncs (target, key) } : World).tx.view .syncs x =
        if x = (target, key) then none else w.tx.view .syncs x := by
      dsimp only
      rw [Tables.view, Tables.remove, update_self]
      rw [ChangeSet.view_remove, update_apply]
      rfl
    rw [hrest, hremove]
    by_cases hx : x = (target, key)
    · subst hx
      simp
    · have hkey : ¬ (target = x.1 ∧ x.2 = key) := fun hboth =>
        hx (Prod.ext hboth.1.symm hboth.2)
      rw [if_neg hx]
      simp only [mem_cons, and_or_left, hkey, false_or]

variable {pf : Platform} {s : Bridge}

private theorem Inv.syncsExact (h : Inv pf s) : SyncsExact s := h.marks.marked

private theorem syncs_tryCommit {tx : Tx} (h : (tx .syncs).writes = ∅) :
    (s.tryCommit tx).store.content .syncs = s.store.content .syncs := by
  rw [Tables.content, Bridge.store_tryCommit_of_writes_eq_empty s h]
  rfl

/-- A heartbeat that commits marks what it visited. -/
theorem syncs_tryCommit_beat {b : Beat} (h : Bridge.Beating pf s.store b)
    (hvalid : b.tx.Valid s.store) (x : StorageKey) : (s.tryCommit b.tx).store.content .syncs x =
      if x ∈ b.visited then some () else s.store.content .syncs x := by
  rw [Bridge.tryCommit_of_valid hvalid]
  refine (ChangeSet.content_commit _ _ _ x).trans ?_
  rw [h.lookup_syncs]
  by_cases hx : x ∈ b.visited
  · rw [if_pos hx, if_pos hx]
    rfl
  · rw [if_neg hx, if_neg hx]
    rfl

/-- Every step that meets the condition keeps the invariant. -/
theorem Inv.step {s' : Bridge} {a : Action} (h : Inv pf s) (hok : TracksSyncs s a)
    (hstep : Bridge.Stepped pf s a s') : Inv pf s' := by
  have hsound := h.sound.step hstep
  cases hstep with
  | txBegin | txStorage | txNonce | txEnd | chainExecute =>
    exact ⟨hsound, h.marks, h.queues, h.beat⟩
  | beatIdle visited => exact h
  | @txCommit i w hw =>
    have hsyncs := syncs_tryCommit (s := s) ((h.sound.running i w hw).writes .syncs (by decide))
    refine ⟨hsound, ?_, h.queues, fun b hb => ?_⟩
    · exact hsyncs ▸ h.marks
    · exact hsyncs ▸ h.beat b hb
  | @beatBegin visited m w hbeat hvisited hrun =>
    refine ⟨hsound, h.marks, h.queues, ?_⟩
    rintro b ⟨⟩
    have hone : SingleContract visited := fun x hx y hy =>
      hok.1 x (hvisited.mem_iff.mp hx) y (hvisited.mem_iff.mp hy)
    exact ⟨fun x => (collected_of_onHeartBeat hrun).lists_iff hone,
      fun x hx => hok.2 x (hvisited.mem_iff.mp hx)⟩
  | @beatCommit b hb =>
    have hbeat := h.beat b hb
    have hsyncs := syncs_tryCommit_beat (h.sound.beat b hb) (hok b hb)
    exact ⟨hsound, h.marks.send rfl hbeat.lists hbeat.unmarked hsyncs,
      h.queues.send h.marks rfl, fun b hb => (nomatch hb)⟩
  | @hostSend m toHost hqueue =>
    obtain ⟨hlength, hunused⟩ := hok m (by rw [hqueue]; rfl)
    exact ⟨hsound, h.marks, (hqueue ▸ h.queues).hostSend hlength hunused, h.beat⟩
  | rpcAccept hm => exact ⟨hsound, h.marks, h.queues.accept hm, h.beat⟩
  | rpcReject hm => exact ⟨hsound, h.marks, h.queues.reject _, h.beat⟩
  | @parseFailed r toEnclave hqueue hbeat hr =>
    obtain ⟨m, -, hack⟩ := h.queues.acknowledged r (by rw [hqueue]; exact mem_cons_self)
    rw [hack.target, hack.keys] at hr
    rcases hr with hr | hr <;> cases hr
  | @acknowledge r toEnclave target keys w hqueue hbeat htarget hkeys hrun =>
    have hqueues := hqueue ▸ h.queues
    obtain ⟨m, hm, hack⟩ := hqueues.acknowledged r mem_cons_self
    have hunprocessed : r.id ∉ s.processed := by
      refine hqueues.unprocessed _ ?_
      simp [flying]
    have horigin : w.tx.origin = s.store := ((keeps_onSuccess target keys).of_ok hrun).1
    cases hack.target.symm.trans htarget
    cases hack.keys.symm.trans hkeys
    have hsyncs : ∀ x, (s.tryCommit w.tx).store.content .syncs x =
        if m.message.call.Lists x then none else s.store.content .syncs x := by
      intro x
      rw [Bridge.content_tryCommit_of_origin_eq horigin]
      exact view_onSuccess hrun x
    refine ⟨hsound, ?_, hqueues.acknowledge, fun b hb => ?_⟩
    · rw [hack.id] at hunprocessed ⊢
      exact h.marks.acknowledge hm hunprocessed hsyncs
    · cases hbeat.symm.trans hb

end SyncMarks

/-- In a run that meets the condition a slot is marked exactly while a message that lists it is not
acknowledged. -/
theorem syncsExact_of_reaches (pf : Platform) (store : Store) (version : Nat) (chain : Chain)
    (hb : store.Bounded version) (hsyncs : ∀ x, store.content .syncs x = none) (s : Bridge)
    (hs : Reaches (Bridge.step pf) TracksSyncs (.start store version chain) s) : SyncsExact s := by
  have hinv : SyncMarks.Inv pf s := by
    refine hs.invariant ?_ fun _ _ _ h hok hstep => h.step hok (Bridge.stepped_of_step hstep)
    refine ⟨Bridge.sound_start chain hb, ?_, ?_, fun _ hb => (nomatch hb)⟩
    · refine ⟨fun x => ?_, nodup_nil, fun _ hm => (nomatch hm), fun _ hi => (nomatch hi),
        fun _ hm => (nomatch hm)⟩
      constructor
      · intro hmarked
        cases (hsyncs x).symm.trans hmarked
      · rintro ⟨m, hm, -⟩
        cases hm
    · exact ⟨nodup_nil, fun _ hi => (nomatch hi), fun _ hm => (nomatch hm),
        fun _ hm => (nomatch hm), fun _ hr => (nomatch hr), fun _ hm => (nomatch hm),
        List.Pairwise.nil, fun _ _ => rfl⟩
  exact hinv.syncsExact

private theorem sample_acknowledged :
    (performAll (Bridge.step .mute) TracksSyncs (.start (pendingStore [(7, 1)]) 1 fun _ => 3)
      [.beatBegin [(7, 1)], .beatCommit, .hostSend, .chainExecute 0, .rpcReply 0 true]).map
        (fun s =>
        (s.store.content .syncs (7, 1), (Bridge.step .mute s .acknowledge).map fun s' =>
          s'.store.content .syncs (7, 1))) = some (some (), some none) := by
  simp only [performAll, Bridge.step, Bridge.hostSend, Bridge.rpcReply, Host.record, Host.success,
    Host.erase, keccak256, Keccak.keccak256_eq_digest]
  decide +kernel

/-- The mark is there until the message is acknowledged. -/
theorem syncsExact_acknowledged : ∃ s s', performAll (Bridge.step .mute) TracksSyncs
        (.start (pendingStore [(7, 1)]) 1 fun _ => 3)
        [.beatBegin [(7, 1)], .beatCommit, .hostSend, .chainExecute 0, .rpcReply 0 true] = some s ∧
      Bridge.step .mute s .acknowledge = some s' ∧
      (s.store.content .syncs (7, 1) = some () ∧ SyncsExact s) ∧
        s'.store.content .syncs (7, 1) = none ∧ SyncsExact s' := by
  obtain ⟨s, hs, hfacts⟩ := Option.map_eq_some_iff.mp sample_acknowledged
  rw [Prod.mk.injEq] at hfacts
  obtain ⟨hmarked, hnext⟩ := hfacts
  obtain ⟨s', hs', hcleared⟩ := Option.map_eq_some_iff.mp hnext
  have hexact := syncsExact_of_reaches .mute (pendingStore [(7, 1)]) 1 (fun _ => 3)
    (bounded_pendingStore _) (fun _ => rfl)
  have hreach := reaches_of_performAll .refl hs
  exact ⟨s, s', hs, hs', ⟨hmarked, hexact s hreach⟩, hcleared,
    hexact s' (hreach.tail (a := .acknowledge) trivial hs')⟩

/-- With two contracts pending, the slot of the second one is marked although the only message
names the first contract. -/
theorem not_syncsExact_after_heartbeat_of_two :
    ∃ s, Reachable (Bridge.step .mute) (.start (pendingStore [(7, 1), (9, 2)]) 1 fun _ => 3) s ∧
      ¬ SyncsExact s := by
  have hrun : (performAll (Bridge.step .mute) (fun _ _ => True)
      (.start (pendingStore [(7, 1), (9, 2)]) 1 fun _ => 3)
      [.beatBegin [(7, 1), (9, 2)], .beatCommit]).map
      (fun s => (s.store.content .syncs (9, 2), s.sent.map fun m => m.message.call.contract)) =
      some (some (), [7]) := by
    decide +kernel
  obtain ⟨s, hs, hstate⟩ := Option.map_eq_some_iff.mp hrun
  rw [Prod.mk.injEq] at hstate
  refine ⟨s, reaches_of_performAll .refl hs, fun hexact => ?_⟩
  obtain ⟨m, hm, hlists, -⟩ := (hexact (9, 2)).mp hstate.1
  have hcontract : m.message.call.contract ∈ [7] := hstate.2 ▸ mem_map_of_mem hm
  have hseven : (7 : Address) = 9 := (mem_singleton.mp hcontract).symm.trans hlists.1
  exact absurd hseven (by decide)

end CloakBridge.Tee
