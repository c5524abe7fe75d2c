import CloakBridge.Models.Evm.WorldFrames

/-!
# The query endpoints

The handlers of `eth_getBalance`, `eth_getTransactionCount` and `eth_call` run in
transactions that are committed like any other. Looking up an account that has no row
creates it, and a message call counts as a transaction of its sender.
-/

namespace CloakBridge.Evm

open Tee Kv EthereumState EVMC Tables

/-- The requests that only ask for something. -/
inductive Query where
  | getBalance (address : Address) (blockId : ByteString)
  | getTransactionCount (address : Address) (blockId : ByteString)
  | ethCall (call : MessageCall)
  deriving DecidableEq, Repr

/-- The handler of a query. -/
def Query.handle (pf : Platform) (q : Query) (fuel : Nat) : Exec Response :=
  match q with
  | .getBalance address blockId => Endpoint.getBalance address blockId
  | .getTransactionCount address blockId => Endpoint.getTransactionCount address blockId
  | .ethCall call => Endpoint.ethCall pf fuel call

/-- The tables that executions work on. -/
def stateTables : List TableName :=
  [.balances, .codes, .nonces, .storage, .pendingStates, .pendingStorage, .syncs, .levels]

/-- The tables hold what they held before. -/
def Unchanged (s s' : Store) : Prop := ∀ t ∈ stateTables, s'.content t = s.content t

/-- The query is turned down, or asks for an account that has a balance. -/
def Query.ReadsOnly (s : Store) : Query → Prop
  | .getBalance address blockId | .getTransactionCount address blockId =>
    blockId ≠ Endpoint.latest ∨ (s.content .balances address).isSome
  | .ethCall call => call.to_ = none

/-- The contents of all tables are the same. -/
def sameView : Frame World := .observing fun w => w.tx.view

variable {a : Address} {w : World}

namespace sameView

private theorem reads : sameView.Reads where
  get t k w := view_noteRead w.tx t k
  ask _ _ := rfl

private theorem caches : sameView.Caches := fun _ _ _ => rfl

private theorem rel_get (h : (w.tx.view .balances a).isSome) :
    sameView.rel w (stateAfter (get a) w) := by
  refine Frame.rel_bind (Frame.keeps_cached a w) fun cached w₁ h₁ => ?_
  obtain ⟨-, rfl⟩ := modifyGet_eq_ok.mp h₁
  cases cached with
  | some proxy => exact sameView.refl w₁
  | none =>
    refine Frame.rel_bind (reads.get _ _ w₁) fun row w₂ h₂ => ?_
    obtain ⟨rfl, -⟩ := Exec.get_eq_ok.mp h₂
    have hrow : ¬(w₁.tx.view .balances a).isNone := by
      rw [Option.isNone_iff_eq_none]
      exact Option.isSome_iff_ne_none.mp h
    rw [if_neg hrow]
    exact keeps_addToCache reads caches.own a w₂

end sameView

variable {w' : World} {s : Store} {call : MessageCall} {pf : Platform} {fuel : Nat}
  {result : ExecResult} {logs : List LogEntry} {address : Address}

/-- An account that was looked up has a balance, unless it was handed out before. -/
theorem balance_of_get {p : AccountProxy} (hcache : w.cache a = none)
    (h : get a w = .ok p w') : (w'.tx.view .balances a).isSome := by
  obtain ⟨cached, w₁, h₁, h⟩ := bind_eq_ok.mp h
  obtain ⟨rfl, rfl⟩ := modifyGet_eq_ok.mp h₁
  rw [hcache] at h
  obtain ⟨row, w₂, h₂, h⟩ := bind_eq_ok.mp h
  obtain ⟨rfl, rfl⟩ := Exec.get_eq_ok.mp h₂
  split at h
  next hrow =>
    rw [(view_of_create h).2.2.2, withAccount,
      setRow_of_ne _ (by decide), setRow_of_ne _ (by decide), setRow_self, Function.update_self]
    rfl
  next hrow =>
    rw [(addToCache_eq_ok h).2.1, view_noteRead, Option.isSome_iff_ne_none]
    exact fun hnone => hrow (Option.isNone_iff_eq_none.mpr hnone)

private theorem content_of_commits {α : Type} {handler : Nat → Exec α} {s' : Store}
    (horigin : ∀ fuel, sameOrigin.Keeps (handler fuel)) (h : Commits handler s s') :
    ∃ fuel r w, handler fuel (World.start s) = .ok r w ∧ s'.content = w.tx.view := by
  obtain ⟨fuel, r, w, version, hrun, rfl⟩ := h
  have hsame : w.tx.origin = s := (horigin fuel).of_ok hrun
  refine ⟨fuel, r, w, hrun, ?_⟩
  rw [← hsame, content_commit_origin]

/-- Every query stays in the frame. -/
theorem Query.keeps_handle {G : Frame World} (hG : G.Executes) (hn : G.Puts .nonces)
    (pf : Platform) (q : Query) (fuel : Nat) : G.Keeps (q.handle pf fuel) := by
  cases q with
  | getBalance address blockId => exact Endpoint.keeps_getBalance hG.reads fun _ => hG.get address
  | getTransactionCount address blockId =>
    exact Endpoint.keeps_getTransactionCount hG.reads fun _ => hG.get address
  | ethCall call => exact Endpoint.keeps_ethCall hG pf fuel hn call

private theorem Query.keeps_origin (pf : Platform) (q : Query) (fuel : Nat) :
    sameOrigin.Keeps (q.handle pf fuel) :=
  q.keeps_handle sameOrigin.executes (sameOrigin.puts _) pf fuel

/-- A handler that looks an account up and reads from it writes exactly if it makes the account. -/
theorem view_lookUp_iff {β : Type} {read : AccountProxy → Exec β} {answer : β → Response}
    (hread : ∀ p, sameView.Keeps (read p)) {blockId : ByteString} {r : Response}
    (h : (if blockId ≠ Endpoint.latest then pure Response.latestBlockOnly
      else do
        let accountState ← get a
        let value ← read accountState
        pure (answer value)) (World.start s) = .ok r w) :
    (∀ t ∈ stateTables, w.tx.view t = s.content t) ↔
      blockId ≠ Endpoint.latest ∨ (s.content .balances a).isSome := by
  by_cases hblock : blockId ≠ Endpoint.latest
  · rw [if_pos hblock] at h
    obtain ⟨-, rfl⟩ := pure_eq_ok.mp h
    exact iff_of_true (fun t _ => rfl) (Or.inl hblock)
  rw [if_neg hblock] at h
  obtain ⟨account, w₁, hget, h⟩ := bind_eq_ok.mp h
  obtain ⟨value, w₂, hvalue, h⟩ := bind_eq_ok.mp h
  obtain ⟨-, rfl⟩ := pure_eq_ok.mp h
  have hsame : w.tx.view = w₁.tx.view := (hread account).of_ok hvalue
  rw [hsame, or_iff_right hblock]
  constructor
  · intro hview
    rw [← hview .balances (by decide)]
    exact balance_of_get rfl hget
  · intro hbalance t _
    have hrel : sameView.rel (World.start s) (stateAfter (get a) (World.start s)) :=
      sameView.rel_get hbalance
    rw [stateAfter, hget] at hrel
    exact congrFun hrel t

/-- The nonce of an account is one more than the nonce it had, if it had any. -/
def Counted (a : Address) (w w' : World) : Prop :=
  ∃ n, w'.tx.view .nonces a = some (n + 1) ∧ ∀ n₀, w.tx.view .nonces a = some n₀ → n₀ = n

private theorem Counted.ne (h : Counted a w w') : w'.tx.view .nonces ≠ w.tx.view .nonces := by
  obtain ⟨n, hn, hold⟩ := h
  intro heq
  rw [heq] at hn
  have hsucc : n + 1 = n := hold _ hn
  exact absurd hsucc (by simp)

private theorem Counted.after {w₀ : World} (h : Counted a w w')
    (hstay : (rowsStay .nonces).rel w₀ w) :
    Counted a w₀ w' := by
  obtain ⟨n, hn, hold⟩ := h
  exact ⟨n, hn, fun n₀ hn₀ => hold n₀ (hstay a n₀ hn₀)⟩

private theorem counted_of_countTransaction (hw : w.OwnProxies)
    (h : countTransaction call w = .ok () w') : Counted call.from_ w w' := by
  obtain ⟨account, w₁, hget, h⟩ := bind_eq_ok.mp h
  obtain ⟨_, w₂, hnonce, h⟩ := bind_eq_ok.mp h
  obtain ⟨nonce, w₃, hread, h⟩ := bind_eq_ok.mp h
  obtain ⟨row, w₄, hrow, hread⟩ := bind_eq_ok.mp hread
  obtain ⟨rfl, -⟩ := Exec.get_eq_ok.mp hrow
  obtain ⟨rfl, -⟩ := pure_eq_ok.mp hread
  obtain rfl := Exec.put_eq_ok.mp h
  rw [address_of_get hw hget] at *
  refine ⟨(w₂.tx.view .nonces call.from_).getD 0, ?_, fun n₀ hn₀ => ?_⟩
  · rw [view_put, setRow_self, Function.update_self]
  · have hstay := rowsStay.executes_nonces.get call.from_
    have hbefore := (account.keeps_getNonce rowsStay.reads).of_ok hnonce
      call.from_ n₀ (hstay.of_ok hget call.from_ n₀ hn₀)
    rw [hbefore]
    rfl

/-- A message call that does not throw finds its callee, runs it, installs what was deployed and
counts. -/
theorem EVMC.parts_of_runInEvm (hexit : ∀ type, result.exit ≠ .threw type)
    (h : runInEvm pf fuel call w = .ok (result, logs, address) w') :
    ∃ (to_ : Address) (w₁ : World) (ran : ExecResult × List LogEntry × AccountProxy)
      (w₂ w₃ : World), callee call w = .ok to_ w₁ ∧ runCallee pf fuel call to_ w₁ = .ok ran w₂ ∧
          deploy call ran.1.output ran.2.2 w₂ = .ok () w₃ ∧
            countTransaction call w₃ = .ok () w' := by
  obtain ⟨to_, w₁, hcallee, h⟩ := bind_eq_ok.mp h
  obtain ⟨⟨result', logs', account⟩, w₂, hrun, h⟩ := bind_eq_ok.mp h
  have hend : ∃ w₃, deploy call result'.output account w₂ = .ok () w₃ ∧
      countTransaction call w₃ = .ok () w' := by
    dsimp only at h
    cases hresult : result'.exit with
    | threw type =>
      rw [hresult] at h
      obtain ⟨heq, -⟩ := pure_eq_ok.mp h
      cases heq
      exact absurd hresult (hexit type)
    | returned | halted =>
      rw [hresult] at h
      obtain ⟨⟨⟩, w₃, hdeploy, h⟩ := bind_eq_ok.mp h
      obtain ⟨⟨⟩, w₄, hcount, h⟩ := bind_eq_ok.mp h
      obtain ⟨-, rfl⟩ := pure_eq_ok.mp h
      exact ⟨w₃, hdeploy, hcount⟩
  obtain ⟨w₃, hdeploy, hcount⟩ := hend
  exact ⟨to_, w₁, _, w₂, w₃, hcallee, hrun, hdeploy, hcount⟩

/-- A message call that does not throw counts as a transaction of its sender. -/
theorem counted_of_runInEvm (hw : w.OwnProxies) (hexit : ∀ type, result.exit ≠ .threw type)
    (h : runInEvm pf fuel call w = .ok (result, logs, address) w') : Counted call.from_ w w' := by
  obtain ⟨to_, w₁, ran, w₂, w₃, hcallee, hrun, hdeploy, hcount⟩ := parts_of_runInEvm hexit h
  have hkeep : ∀ {G : Frame World}, G.Executes → G.rel w w₃ := by
    intro G hG
    exact G.trans (G.trans ((keeps_callee hG call).of_ok hcallee)
      ((keeps_runCallee hG.toInteracts pf fuel call to_).of_ok hrun))
        ((keeps_deploy hG.toInteracts call _ _).of_ok hdeploy)
  exact (counted_of_countTransaction (hkeep ownProxies.executes hw) hcount).after
    (hkeep rowsStay.executes_nonces)

/-- What is not rethrown did not throw. -/
theorem not_threw_of_rethrow {u : Unit} (h : rethrow result w = .ok u w') :
    (∀ type, result.exit ≠ .threw type) ∧ w' = w := by
  unfold rethrow at h
  cases hexit : result.exit with
  | threw type =>
    rw [hexit] at h
    cases h
  | returned | halted =>
    rw [hexit] at h
    exact ⟨fun type => nofun, (pure_eq_ok.mp h).2⟩

/-- A query whose handler returned left the tables alone exactly if it was turned down or asked
for an account that has a balance. -/
theorem unchanged_iff_readsOnly (pf : Platform) (q : Query) (s s' : Store)
    (h : Commits (q.handle pf) s s') : Unchanged s s' ↔ q.ReadsOnly s := by
  obtain ⟨fuel, r, w, hrun, hcontent⟩ := content_of_commits (q.keeps_origin pf) h
  unfold Unchanged
  rw [hcontent]
  cases q with
  | getBalance address blockId =>
    exact view_lookUp_iff (fun p => p.keeps_getBalance sameView.reads) hrun
  | getTransactionCount address blockId =>
    exact view_lookUp_iff (fun p => p.keeps_getNonce sameView.reads) hrun
  | ethCall call =>
    change Endpoint.ethCall pf fuel call (World.start s) = .ok r w at hrun
    unfold Endpoint.ethCall at hrun
    by_cases hto : call.to_ = none
    · rw [if_pos hto] at hrun
      obtain ⟨-, rfl⟩ := pure_eq_ok.mp hrun
      exact iff_of_true (fun t _ => rfl) hto
    · rw [if_neg hto] at hrun
      obtain ⟨result, w₁, hresult, hrun⟩ := bind_eq_ok.mp hrun
      obtain ⟨-, rfl⟩ := pure_eq_ok.mp hrun
      obtain ⟨⟨result', logs, address⟩, w₂, hevm, hresult⟩ := bind_eq_ok.mp hresult
      obtain ⟨⟨⟩, w₃, hrethrow, hresult⟩ := bind_eq_ok.mp hresult
      obtain ⟨-, rfl⟩ := pure_eq_ok.mp hresult
      obtain ⟨hexit, rfl⟩ := not_threw_of_rethrow hrethrow
      have hcounted := counted_of_runInEvm (World.ownProxies_start s) hexit hevm
      exact iff_of_false (fun hsame => hcounted.ne (hsame .nonces (by decide))) hto

/-- The tables with the balances of some accounts. -/
def balancesStore (balances : List (Address × Word)) : Store
  | .balances => .ofRows 1 balances
  | _ => .ofRows 0 []

/-- Asking for the balance of a known account. -/
theorem unchanged_by_getBalance_of_known :
    ∃ s', Commits (Query.handle .mute (.getBalance 7 Endpoint.latest)) (balancesStore [(7, 5)]) s' ∧
      Unchanged (balancesStore [(7, 5)]) s' := by
  have hcommits : Commits (Query.handle .mute (.getBalance 7 Endpoint.latest))
      (balancesStore [(7, 5)]) _ := ⟨0, _, _, 2, rfl, rfl⟩
  exact ⟨_, hcommits, (unchanged_iff_readsOnly _ _ _ _ hcommits).mpr (Or.inr (by decide))⟩

/-- Asking a fresh enclave for a balance leaves rows for the account in three tables. -/
theorem getBalance_creates_account :
    ∃ s', Commits (Query.handle .mute (.getBalance 7 Endpoint.latest)) (balancesStore []) s' ∧
      ¬Unchanged (balancesStore []) s' := by
  refine ⟨_, ⟨0, _, _, 1, rfl, rfl⟩, fun hsame => ?_⟩
  have hrow := congrFun (hsame .balances (by decide)) 7
  revert hrow
  decide +kernel

end CloakBridge.Evm
