import CloakBridge.Models.Tee.BridgeSound

/-!
# Heartbeat commits and TEE nonces

A heartbeat signs its message with the committed TEE nonce, increments it, and moves the
pending slots, all in one transaction. The message is sent whatever the outcome of the
commit, so after a conflict the nonce is used again. If every heartbeat commits, the
nonces of the sent messages strictly increase.
-/

namespace CloakBridge.Tee

open Kv ChangeSet Web3Operation

/-- The nonce of an account of the TEE. -/
def nonceIn (c : Contents) (a : Address) : Nonce := (c .teeNonces a).getD 0

/-- The last nonce before the counter starts again at zero. -/
def maxNonce : Nonce := 0xffffffffffffffff

private theorem toNat_add_one {n : Nonce} (h : n ≠ maxNonce) : (n + 1).toNat = n.toNat + 1 := by
  unfold maxNonce at h
  bv_omega

/-- Two messages with one nonce are the same message. -/
def NoncesUsedOnce (sent : List Sent) : Prop :=
  ∀ m ∈ sent, ∀ m' ∈ sent, m.message.nonce = m'.message.nonce → m.message = m'.message

/-- The keys of a message that was just sent come from slots that left the pending set and are
marked as being synchronised. -/
def HandedOver (s s' : Bridge) : Prop :=
  ∀ m, s'.sent = m :: s.sent →
    (∀ k ∈ m.message.call.keys, ∃ x ∈ m.slots, x.2 = k) ∧
      ∀ x ∈ m.slots, s'.store.content .pendingStates x = none ∧
        s'.store.content .syncs x = some ()

/-- Heartbeats commit without a conflict, and no increment exhausts the 64 bits of the nonce. -/
def CommitsHeartbeats (s : Bridge) : Action → Prop
  | .beatCommit => ∀ b ∈ s.beat, b.tx.Valid s.store
  | .beatBegin _ => ∀ a ∈ s.store.content .teeAddress (), nonceIn s.store.content a ≠ maxNonce
  | .txNonce i => ∀ w ∈ s.running i, ∀ a ∈ w.tx.view .teeAddress (), nonceIn w.tx.view a ≠ maxNonce
  | _ => True

instance (s : Bridge) : (a : Action) → Decidable (CommitsHeartbeats s a)
  | .beatCommit => inferInstanceAs (Decidable (∀ b ∈ s.beat, b.tx.Valid s.store))
  | .beatBegin _ => Option.decidableForallMem (s.store.content .teeAddress ())
  | .txNonce i =>
    have (w : World) := Option.decidableForallMem (p := fun a => nonceIn w.tx.view a ≠ maxNonce)
      (w.tx.view .teeAddress ())
    Option.decidableForallMem (s.running i)
  | .txBegin _ | .txStorage _ _ _ | .txCommit _ | .txAbort _ | .hostSend | .rpcReply _ _
  | .acknowledge | .chainExecute _ => isTrue trivial

namespace NonceUse

/-- What a transaction may have written to the nonce of an account: nothing, or a value that is not
below the one it read. -/
inductive WritesOk (cs : ChangeSet Address Nonce) (a : Address) : Prop
  | none (hwrite : cs.writes.lookup a = none)
  | raised (n : Nonce) (hwrite : cs.writes.lookup a = some (some n)) (hread : a ∈ cs.reads)
    (hle : ((cs.state.content a).getD 0).toNat ≤ n.toNat)

variable {cs : ChangeSet Address Nonce} {w w' : World}

private theorem WritesOk.content_le {a : Address} (h : WritesOk cs a)
    {current : VersionedMap Address Nonce}
    (hext : Extends cs.state current) (hvalid : cs.Valid current) (version : Nat) :
    ((current.content a).getD 0).toNat ≤
      (((cs.commit version current).content a).getD 0).toNat := by
  rw [content_commit]
  cases h with
  | none hwrite =>
    rw [hwrite, Option.getD_none]
  | raised n hwrite hread hle =>
    have hwrites : cs.writes.entries ≠ [] := by
      intro hempty
      have hmem := AList.mem_lookup_iff.mp hwrite
      rw [hempty] at hmem
      cases hmem
    have hrow := hvalid.rows_eq_of_mem_reads hext hread hwrites
    rw [hwrite, VersionedMap.content, hrow]
    exact hle

/-- A transaction in progress: the account it uses, and what it wrote to its nonce. -/
structure TxOk (acc : Option Address) (w : World) : Prop where
  account : w.tx.view .teeAddress () = acc
  writes : ∀ a, acc = some a → WritesOk (w.tx .teeNonces) a

variable {acc : Option Address}

private theorem TxOk.of_rel {S : List TableName} (h : TxOk acc w) (hrel : (writesOnly S).rel w w')
    (hreads : readsGrow.rel w w') (hS : ∀ t ∈ [TableName.teeAddress, .teeNonces], t ∉ S) :
    TxOk acc w' := by
  have hwrites := hrel.2 .teeNonces (hS _ (by decide))
  have hstate : (w'.tx .teeNonces).state = (w.tx .teeNonces).state := congrFun hrel.1 .teeNonces
  refine ⟨?_, fun a ha => ?_⟩
  · rw [writesOnly.view_eq hrel (hS _ (by decide))]
    exact h.account
  · cases h.writes a ha with
    | none hwrite => exact .none (hwrites ▸ hwrite)
    | raised n hwrite hread hle =>
      exact .raised n (hwrites ▸ hwrite) (hreads _ _ hread) (hstate ▸ hle)

/-- What incrementing the nonce does to the transaction. -/
theorem incrementNonce_eq_ok (h : incrementNonce w = .ok () w') :
    ∃ a, w.tx.view .teeAddress () = some a ∧ w'.tx.view .teeAddress () = w.tx.view .teeAddress () ∧
      w'.tx .teeNonces = ((w.tx .teeNonces).noteRead a).put a (nonceIn w.tx.view a + 1) := by
  obtain ⟨row, w₁, hrow, h₁⟩ := bind_eq_ok.mp h
  obtain ⟨a, w₂, ha, h₂⟩ := bind_eq_ok.mp h₁
  obtain ⟨nonceRow, w₃, hnonceRow, h₃⟩ := bind_eq_ok.mp h₂
  obtain ⟨rfl, rfl⟩ := Exec.get_eq_ok.mp hrow
  obtain ⟨hsome, rfl⟩ := Exec.orThrow_eq_ok.mp ha
  obtain ⟨rfl, rfl⟩ := Exec.get_eq_ok.mp hnonceRow
  obtain rfl := Exec.put_eq_ok.mp h₃
  refine ⟨a, hsome, ?_, ?_⟩
  · simp only [Tables.view_put, Tables.view_noteRead]
    rw [Tables.setRow_of_ne _ (by decide)]
  · simp only [Tables.view_noteRead]
    rfl

private theorem WritesOk.increment {a : Address} (h : WritesOk cs a)
    (hmax : (cs.view a).getD 0 ≠ maxNonce) :
    WritesOk ((cs.noteRead a).put a ((cs.view a).getD 0 + 1)) a := by
  have hstate : (cs.noteRead a).state = cs.state := state_noteRead cs a
  have hplus := toNat_add_one hmax
  refine .raised _ (AList.lookup_insert _) ?_ ?_
  · cases h with
    | none hwrite => exact mem_reads_noteRead_self hwrite
    | raised n _ hread _ => exact mem_reads_noteRead hread a
  · change (((cs.noteRead a).state.content a).getD 0).toNat ≤ _
    rw [hstate, hplus]
    cases h with
    | none hwrite =>
      have hview : cs.view a = cs.state.content a := by
        rw [view_eq_getD, hwrite, Option.getD_none]
      rw [hview]
      omega
    | raised n hwrite _ hle =>
      have hview : cs.view a = some n := by
        rw [view_eq_getD, hwrite, Option.getD_some]
      rw [hview, Option.getD_some]
      omega

private theorem TxOk.incrementNonce (h : TxOk acc w) (hrun : incrementNonce w = .ok () w')
    (hmax : ∀ a ∈ w.tx.view .teeAddress (), nonceIn w.tx.view a ≠ maxNonce) : TxOk acc w' := by
  obtain ⟨a, ha, hview, htable⟩ := incrementNonce_eq_ok hrun
  refine ⟨hview.trans h.account, fun a' ha' => ?_⟩
  have heq : a' = a := Option.some.inj (ha'.symm.trans (h.account.symm.trans ha))
  subst heq
  rw [htable]
  exact (h.writes a' ha').increment (hmax a' ha)

/-- The invariant: sent nonces are below the committed one, the latest first. -/
structure Inv (pf : Platform) (acc : Option Address) (s : Bridge) : Prop where
  sound : s.Sound pf
  account : s.store.content .teeAddress () = acc
  below : ∀ a, acc = some a → ∀ m ∈ s.sent,
    m.message.nonce.toNat < (nonceIn s.store.content a).toNat
  decreasing : s.sent.Pairwise fun m m' => m'.message.nonce.toNat < m.message.nonce.toNat
  running : ∀ i w, s.running i = some w → TxOk acc w
  beat : ∀ b, s.beat = some b → b.tx.origin.content .teeAddress () = acc ∧
    b.message.nonce ≠ maxNonce

variable {pf : Platform} {s : Bridge}

private theorem Inv.noncesUsedOnce (h : Inv pf acc s) : NoncesUsedOnce s.sent := by
  intro m hm m' hm' hnonce
  by_contra hne
  have hdistinct : s.sent.Pairwise fun m m' => m.message.nonce ≠ m'.message.nonce :=
    h.decreasing.imp fun hlt heq => by
      rw [heq] at hlt
      exact Nat.lt_irrefl _ hlt
  have hsymm : Std.Symm fun m m' : Sent => m.message.nonce ≠ m'.message.nonce :=
    ⟨fun _ _ => Ne.symm⟩
  exact hdistinct.forall hm hm' (fun heq => hne (by rw [heq])) hnonce

/-- Committing what only raises the nonce keeps the invariant. -/
theorem Inv.tryCommit (h : Inv pf acc s) {tx : Tx} (haddress : (tx .teeAddress).writes = ∅)
    (horigin : Tables.Extends tx.origin s.store)
    (hwrites : ∀ a, acc = some a → WritesOk (tx .teeNonces) a) : Inv pf acc (s.tryCommit tx) := by
  refine ⟨h.sound.tryCommit tx, ?_, fun a ha m hm => ?_, h.decreasing, h.running, h.beat⟩
  · rw [Tables.content, Bridge.store_tryCommit_of_writes_eq_empty s haddress]
    exact h.account
  · refine Nat.lt_of_lt_of_le (h.below a ha m hm) ?_
    by_cases hvalid : tx.Valid s.store
    · rw [Bridge.tryCommit_of_valid hvalid]
      exact (hwrites a ha).content_le (horigin .teeNonces) (hvalid .teeNonces) _
    · rw [Bridge.tryCommit_of_not_valid hvalid]

/-- A heartbeat that commits used the committed nonce and leaves the next one. -/
theorem nonce_of_valid {b : Beat} (h : Bridge.Beating pf s.store b) (hvalid : b.tx.Valid s.store) :
    ∃ a, b.tx.origin.content .teeAddress () = some a ∧ nonceIn s.store.content a = b.message.nonce ∧
      nonceIn (s.tryCommit b.tx).store.content a = b.message.nonce + 1 := by
  obtain ⟨w, hw, hcollected⟩ := h.collected
  obtain ⟨a, ha, hnonce, htable⟩ := hcollected.nonce
  rw [hw] at htable
  have hwrite : (b.tx .teeNonces).writes.lookup a = some (some (b.message.nonce + 1)) := by
    rw [htable]
    exact AList.lookup_insert _
  have hread : a ∈ (b.tx .teeNonces).reads := by
    rw [htable]
    exact mem_reads_noteRead_self rfl
  have hwrites : (b.tx .teeNonces).writes.entries ≠ [] := by
    intro hempty
    have hmem := AList.mem_lookup_iff.mp hwrite
    rw [hempty] at hmem
    cases hmem
  have hrow := (hvalid .teeNonces).rows_eq_of_mem_reads (h.origin .teeNonces) hread hwrites
  refine ⟨a, ha, ?_, ?_⟩
  · rw [hnonce, nonceIn, Tables.content, VersionedMap.content, hrow]
    rfl
  · rw [Bridge.tryCommit_of_valid hvalid]
    change ((((b.tx .teeNonces).commit _ _).content a).getD 0) = _
    rw [content_commit, hwrite]
    rfl

/-- The commit and the message of a heartbeat that validates. -/
theorem Inv.beatCommit (h : Inv pf acc s) {b : Beat} (hb : s.beat = some b)
    (hvalid : b.tx.Valid s.store) {m : Sent} (hm : m.message = b.message) :
    (∀ a, acc = some a → ∀ m' ∈ m :: s.sent,
        m'.message.nonce.toNat < (nonceIn (s.tryCommit b.tx).store.content a).toNat) ∧
      (m :: s.sent).Pairwise fun m m' => m'.message.nonce.toNat < m.message.nonce.toNat := by
  obtain ⟨a, ha, hcurrent, hnext⟩ := nonce_of_valid (h.sound.beat b hb) hvalid
  obtain ⟨haccount, hmax⟩ := h.beat b hb
  have hacc : acc = some a := haccount.symm.trans ha
  have hplus := toNat_add_one hmax
  have hsent : ∀ m' ∈ s.sent, m'.message.nonce.toNat < b.message.nonce.toNat := by
    intro m' hm'
    rw [← hcurrent]
    exact h.below a hacc m' hm'
  refine ⟨fun a' ha' m' hm' => ?_, List.pairwise_cons.mpr ⟨fun m' hm' => ?_, h.decreasing⟩⟩
  · have heq : a' = a := Option.some.inj (ha'.symm.trans hacc)
    rw [heq, hnext, hplus]
    rcases List.mem_cons.mp hm' with rfl | hm'
    · rw [hm]
      omega
    · have := hsent m' hm'
      omega
  · rw [hm]
    exact hsent m' hm'

/-- Every step that meets the condition keeps the invariant. -/
theorem Inv.step {s' : Bridge} {a : Action} (h : Inv pf acc s) (hok : CommitsHeartbeats s a)
    (hstep : Bridge.Stepped pf s a s') : Inv pf acc s' := by
  have hsound := h.sound.step hstep
  cases hstep with
  | txBegin hi =>
    refine ⟨hsound, h.account, h.below, h.decreasing, Bridge.running_update h.running ?_, h.beat⟩
    rintro w ⟨⟩
    exact ⟨h.account, fun a _ => .none rfl⟩
  | @txStorage i op answers w w' r hw hrun =>
    refine ⟨hsound, h.account, h.below, h.decreasing, Bridge.running_update h.running ?_, h.beat⟩
    rintro w'' ⟨⟩
    have hreads : readsGrow.rel w w' :=
      (op.keeps_exec_of readsGrow.reads readsGrow.caches (fun t _ => readsGrow.puts t)
        (readsGrow.removes _) _).of_ok hrun
    exact (h.running i w hw).of_rel ((op.keeps_exec _).of_ok hrun) hreads (by decide)
  | @txNonce i w w' hw hrun =>
    refine ⟨hsound, h.account, h.below, h.decreasing, Bridge.running_update h.running ?_, h.beat⟩
    rintro w'' ⟨⟩
    exact (h.running i w hw).incrementNonce hrun (hok w hw)
  | txEnd ha =>
    exact ⟨hsound, h.account, h.below, h.decreasing, Bridge.running_update h.running (by simp),
      h.beat⟩
  | @txCommit i w hw =>
    have hprogress := h.sound.running i w hw
    have hcommit := h.tryCommit (hprogress.writes .teeAddress (by decide)) hprogress.origin
      (h.running i w hw).writes
    exact ⟨hsound, hcommit.account, hcommit.below, hcommit.decreasing,
      Bridge.running_update hcommit.running (by simp), hcommit.beat⟩
  | beatIdle visited => exact h
  | @beatBegin visited m w hbeat hvisited hrun =>
    refine ⟨hsound, h.account, h.below, h.decreasing, h.running, ?_⟩
    rintro b ⟨⟩
    have hcollected := collected_of_onHeartBeat hrun
    obtain ⟨a, ha, hnonce, -⟩ := hcollected.nonce
    have horigin : w.tx.origin = s.store := hcollected.writes.1
    refine ⟨by rw [horigin]; exact h.account, ?_⟩
    have hmax := hok a ha
    rw [hnonce]
    exact hmax
  | @beatCommit b hb =>
    have hbeating := h.sound.beat b hb
    obtain ⟨hbelow, hdecreasing⟩ := h.beatCommit hb (hok b hb) (m := ⟨s.sent.length, b.message,
      b.visited⟩) rfl
    refine ⟨hsound, ?_, hbelow, hdecreasing, h.running, fun b hb => (nomatch hb)⟩
    have hsame := Bridge.store_tryCommit_of_writes_eq_empty s
      (hbeating.writes_eq_empty (t := .teeAddress) (by decide))
    exact (congrArg (fun m => VersionedMap.content m ()) hsame).trans h.account
  | @acknowledge m toEnclave target keys w hqueue hbeat htarget hkeys hrun =>
    have hrel := (keeps_onSuccess target keys).of_ok hrun
    have hnonces : (w.tx .teeNonces).writes = ∅ := hrel.2 .teeNonces (by decide)
    have horigin : w.tx.origin = s.store := hrel.1
    have hcommit := h.tryCommit (hrel.2 .teeAddress (by decide))
      (horigin ▸ Tables.Extends.refl s.store) fun a _ => .none (by rw [hnonces]; rfl)
    exact ⟨hsound, hcommit.account, hcommit.below, hcommit.decreasing, hcommit.running,
      hcommit.beat⟩
  | hostSend | rpcAccept | rpcReject | parseFailed | chainExecute =>
    exact ⟨hsound, h.account, h.below, h.decreasing, h.running, h.beat⟩

/-- A heartbeat that commits hands its slots over. -/
theorem handedOver_of_stepped {s' : Bridge} {a : Action} (h : s.Sound pf)
    (hok : CommitsHeartbeats s a) (hstep : Bridge.Stepped pf s a s') : HandedOver s s' := by
  intro m hsent
  cases hstep with
  | @beatCommit b hb =>
    have hbeating := h.beat b hb
    have hvalid := hok b hb
    obtain rfl : m = ⟨s.sent.length, b.message, b.visited⟩ := (List.cons.inj hsent).1.symm
    refine ⟨fun k hk => ?_, fun x hx => ?_⟩
    · obtain ⟨w, -, hcollected⟩ := hbeating.collected
      dsimp only at hk
      rw [hcollected.keys_eq] at hk
      obtain ⟨e, he, rfl⟩ := List.mem_map.mp hk
      obtain ⟨x, hx, rfl⟩ := TransactionSync.exists_mem_of_mem_statesOf he
      exact ⟨x, hx, rfl⟩
    · rw [Bridge.tryCommit_of_valid hvalid]
      refine ⟨(content_commit _ _ _ x).trans ?_, (content_commit _ _ _ x).trans ?_⟩
      · rw [hbeating.lookup_pendingStates, if_pos hx]
        rfl
      · rw [hbeating.lookup_syncs, if_pos hx]
        rfl
  | _ => exact absurd hsent (List.cons_ne_self m s.sent).symm

end NonceUse

/-- In a run whose heartbeats all commit, no TEE nonce is used for two messages, and every step that
sends a message hands its slots over. -/
theorem noncesUsedOnce_of_reaches (pf : Platform) (store : Store) (version : Nat) (chain : Chain)
    (hb : store.Bounded version) (s : Bridge)
    (hs : Reaches (Bridge.step pf) CommitsHeartbeats (.start store version chain) s) :
    NoncesUsedOnce s.sent ∧
      ∀ a s', CommitsHeartbeats s a → s.step pf a = some s' → HandedOver s s' := by
  have hinv : NonceUse.Inv pf (store.content .teeAddress ()) s := by
    refine hs.invariant ?_ fun _ _ _ h hok hstep => h.step hok (Bridge.stepped_of_step hstep)
    exact ⟨Bridge.sound_start chain hb, rfl, fun _ _ _ hm => (nomatch hm), List.Pairwise.nil,
      fun _ _ hw => (nomatch hw), fun _ hb => (nomatch hb)⟩
  exact ⟨hinv.noncesUsedOnce, fun a s' hok hstep =>
    NonceUse.handedOver_of_stepped hinv.sound hok (Bridge.stepped_of_step hstep)⟩

/-- Two heartbeats use two nonces. -/
theorem noncesUsedOnce_after_two_heartbeats : ∃ s, performAll (Bridge.step .mute) CommitsHeartbeats
        (.start (pendingStore [(7, 1)]) 1 fun _ => 3)
        [.beatBegin [(7, 1)], .beatCommit, .txBegin 0, .txStorage 0 (.sstore 7 2 6) true,
          .txCommit 0, .beatBegin [(7, 2)], .beatCommit] = some s ∧
      s.sent.length = 2 ∧ NoncesUsedOnce s.sent := by
  have hrun : (performAll (Bridge.step .mute) CommitsHeartbeats
      (.start (pendingStore [(7, 1)]) 1 fun _ => 3)
      [.beatBegin [(7, 1)], .beatCommit, .txBegin 0, .txStorage 0 (.sstore 7 2 6) true,
        .txCommit 0, .beatBegin [(7, 2)], .beatCommit]).map (fun s => s.sent.length) = some 2 := by
    decide +kernel
  obtain ⟨s, hs, hlength⟩ := Option.map_eq_some_iff.mp hrun
  exact ⟨s, hs, hlength, (noncesUsedOnce_of_reaches .mute (pendingStore [(7, 1)]) 1 (fun _ => 3)
    (bounded_pendingStore _) s (reaches_of_performAll .refl hs)).1⟩

/-- A transaction commits while a heartbeat is in progress: the heartbeat's commit is discarded, its
message is sent, and the next heartbeat sends another message with the same nonce. -/
theorem nonce_used_twice_after_conflict :
    ∃ s, Reachable (Bridge.step .mute) (.start (pendingStore [(7, 1)]) 1 fun _ => 3) s ∧
      ¬ NoncesUsedOnce s.sent := by
  have hrun : (performAll (Bridge.step .mute) (fun _ _ => True)
      (.start (pendingStore [(7, 1)]) 1 fun _ => 3)
      [.beatBegin [(7, 1)], .txBegin 0, .txStorage 0 (.sstore 7 2 6) true, .txCommit 0,
        .beatCommit, .beatBegin [(7, 2), (7, 1)], .beatCommit]).map
      (fun s => s.sent.map fun m => (m.message.nonce, m.message.call.keys)) =
      some [(0, [2, 1]), (0, [1])] := by
    decide +kernel
  obtain ⟨s, hs, hsent⟩ := Option.map_eq_some_iff.mp hrun
  refine ⟨s, reaches_of_performAll .refl hs, fun honce => ?_⟩
  obtain ⟨m, sent, hcons, hm, hsent⟩ := List.map_eq_cons_iff.mp hsent
  obtain ⟨m', sent', rfl, hm', -⟩ := List.map_eq_cons_iff.mp hsent
  rw [Prod.mk.injEq] at hm hm'
  have hsame : m.message = m'.message :=
    honce m (by rw [hcons]; simp) m' (by rw [hcons]; simp) (hm.1.trans hm'.1.symm)
  rw [hsame, hm'.2] at hm
  exact absurd hm.2 (by decide)

end CloakBridge.Tee
