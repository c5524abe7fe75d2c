import CloakBridge.Models.Evm.NonceCounts
import Mathlib.Logic.Relation

/-!
# The tables of accounts

`create` writes the balance, the code and the nonce of an account one after the other and
throws if one of them is there already; later each row is changed on its own. Still an
account has all three rows or none: a row is only ever written where there is one, or
together with the two others.
-/

namespace CloakBridge.Evm

open Tee Kv EthereumState

variable {balance : Word} {code : ByteString} {w' : World} {p : AccountProxy}

section Create

variable {a : Address} {w : World}

private theorem cache_of_writeInitialRows {u : Unit}
    (h : EthereumState.writeInitialRows a balance code w = .ok u w') : w'.cache = w.cache :=
  (keeps_writeInitialRows sameCache.reads
    ((sameCache.puts .balances).fillsAt a balance) ((sameCache.puts .codes).fillsAt a code)
    ((sameCache.puts .nonces).fillsAt a _)).of_ok h

private theorem exists_fill {β : Type} {t : TableName} {k : t.Key} {v : t.Val} {e : Error}
    {rest : Unit → Exec β} (hnone : w.tx.view t k = none)
    (hrest : ∀ w₁ : World, w₁.tx.view = w.tx.view.setRow t k (some v) → w₁.cache = w.cache →
      ∃ b w', rest () w₁ = .ok b w') : ∃ b w', (do
      let row ← Exec.get t k
      Exec.throwIf row.isSome e
      let u ← Exec.put t k v
      rest u) w = .ok b w' := by
  obtain ⟨b, w', hrun⟩ := hrest { w with tx := (w.tx.noteRead t k).put t k v }
    (by rw [Tables.view_put, Tables.view_noteRead]) rfl
  refine ⟨b, w', ?_⟩
  rw [bind_of_ok (Exec.get_run t k w), hnone]
  exact hrun

/-- An account that does not exist can be made. -/
theorem exists_create (hcache : w.cache a = none) (h : ¬Existed w.tx.view a) (balance : Word)
    (code : ByteString) : ∃ p w', EthereumState.create a balance code w = .ok p w' := by
  obtain ⟨hbalance, hcode, hnonce⟩ : w.tx.view .balances a = none ∧ w.tx.view .codes a = none ∧
      w.tx.view .nonces a = none := by
    simpa only [Existed, not_or, Option.not_isSome_iff_eq_none] using h
  have hrows : ∃ u w', EthereumState.writeInitialRows a balance code w = .ok u w' ∧
      w'.cache = w.cache := by
    obtain ⟨u, w', hrun⟩ : ∃ u w', EthereumState.writeInitialRows a balance code w = .ok u w' := by
      refine exists_fill hbalance fun w₁ hw₁ _ => ?_
      refine exists_fill ?_ fun w₂ hw₂ _ => ?_
      · rw [hw₁, Tables.setRow_of_ne _ (by decide)]
        exact hcode
      · refine @exists_fill _ _ _ _ _ _ pure ?_ fun w₃ _ _ => ⟨(), w₃, rfl⟩
        rw [hw₂, hw₁, Tables.setRow_of_ne _ (by decide), Tables.setRow_of_ne _ (by decide)]
        exact hnonce
    exact ⟨u, w', hrun, cache_of_writeInitialRows hrun⟩
  obtain ⟨u, w', hrun, hcache'⟩ := hrows
  obtain ⟨p, w'', hadd⟩ := exists_addToCache (a := a) (hcache' ▸ hcache)
  exact ⟨p, w'', by rw [EthereumState.create, bind_of_ok hrun, hadd]⟩

/-- An account that has a balance cannot be made, and nothing is written. -/
theorem create_of_row (h : (w.tx.view .balances a).isSome) (balance : Word) (code : ByteString) :
    EthereumState.create a balance code w =
      .error (.hasBalance a) { w with tx := w.tx.noteRead .balances a } := by
  have hthrow : ∀ w' : World, Exec.throwIf ((w.tx.view .balances a).isSome = true)
      (.hasBalance a) w' = .error (.hasBalance a) w' := fun w' => congrFun (if_pos h) w'
  refine bind_of_error ?_
  rw [EthereumState.writeInitialRows]
  exact (bind_of_ok (Exec.get_run _ _ _)).trans (bind_of_error (hthrow _))

/-- A lookup hands out the account that was asked for and no other. -/
theorem cache_of_get (hcache : w.cache a = none) (h : EthereumState.get a w = .ok p w') :
    w'.cache = Function.update w.cache a (some p) := by
  obtain ⟨cached, w₁, h₁, h⟩ := bind_eq_ok.mp h
  obtain ⟨rfl, rfl⟩ := modifyGet_eq_ok.mp h₁
  rw [hcache] at h
  obtain ⟨row, w₂, h₂, h⟩ := bind_eq_ok.mp h
  obtain ⟨rfl, rfl⟩ := Exec.get_eq_ok.mp h₂
  split at h
  · obtain ⟨⟨⟩, w₃, hrows, h⟩ := bind_eq_ok.mp h
    rw [(addToCache_eq_ok h).2.2, cache_of_writeInitialRows hrows]
  · exact (addToCache_eq_ok h).2.2

end Create


/-- A created account is handed out. -/
theorem cache_of_create {a : Address} {w : World}
    (h : EthereumState.create a balance code w = .ok p w') :
    w'.cache = Function.update w.cache a (some p) := by
  obtain ⟨⟨⟩, w₁, hrows, hadd⟩ := bind_eq_ok.mp h
  rw [(addToCache_eq_ok hadd).2.2, cache_of_writeInitialRows hrows]

end CloakBridge.Evm

namespace CloakBridge.Tee

open Kv Evm Tables Function

/-- The balance, the code and the nonce table have rows for the same accounts. -/
def KeysAgree (c : Contents) : Prop :=
  ∀ a, ((c .codes a).isSome ↔ (c .balances a).isSome) ∧
    ((c .nonces a).isSome ↔ (c .balances a).isSome)

variable {a : Address} {t : TableName}

namespace KeysAgree

variable {c c' : Contents}

private theorem not_existed (h : KeysAgree c) (hnone : c .balances a = none) : ¬Existed c a := by
  have hbalance : ¬(c .balances a).isSome := by rw [hnone]; exact Bool.false_ne_true
  rintro (hsome | hsome | hsome)
  · exact hbalance hsome
  · exact hbalance ((h a).1.mp hsome)
  · exact hbalance ((h a).2.mp hsome)

private theorem isSome_setRow {k : t.Key} (hrow : (c t k).isSome) (v : t.Val) (t' : TableName)
    (k' : t'.Key) :
    (c.setRow t k (some v) t' k').isSome = (c t' k').isSome := by
  by_cases ht : t' = t
  · subst ht
    by_cases hk : k' = k
    · subst hk
      rw [setRow_self, update_self, hrow, Option.isSome_some]
    · rw [setRow_apply_of_ne c t' hk]
  · rw [setRow_of_ne c ht]

private theorem setRow (h : KeysAgree c) {k : t.Key} (hrow : (c t k).isSome) (v : t.Val) :
    KeysAgree (c.setRow t k (some v)) := by
  intro a
  rw [isSome_setRow hrow, isSome_setRow hrow, isSome_setRow hrow]
  exact h a

/-- All three rows of an account may be written at once. -/
theorem withAccount (h : KeysAgree c) (a : Address) (balance : Word) (code : ByteString) :
    KeysAgree (EthereumState.withAccount a balance code c) := by
  intro b
  by_cases hb : b = a
  · subst hb
    simp [EthereumState.withAccount, setRow_of_ne]
  · have hrows := h b
    simpa [EthereumState.withAccount, setRow_of_ne, update_of_ne hb] using hrows

end KeysAgree

/-- The proxy was handed out in this transaction. -/
def World.HandedOut (w : World) (p : AccountProxy) : Prop := w.cache p.address = some p

/-- The account tables agree, and have the accounts that were handed out. -/
structure World.Agrees (w : World) : Prop where
  keys : KeysAgree w.tx.view
  ownProxies : w.OwnProxies
  known : ∀ a, (w.cache a).isSome → (w.tx.view .balances a).isSome

variable {w' w : World}

/-- Over agreeing tables a transaction begins in agreement. -/
theorem World.agrees_fresh {s : Store} (h : KeysAgree s.content) (tick : Nat) :
    (World.fresh (Tables.start s) tick).Agrees :=
  ⟨h, World.ownProxies_fresh _ _, nofun⟩

namespace World.Agrees

variable {w w' : World} {p : AccountProxy}

private theorem of_same (h : w.Agrees) (hb : w'.tx.view .balances = w.tx.view .balances)
    (hc : w'.tx.view .codes = w.tx.view .codes) (hn : w'.tx.view .nonces = w.tx.view .nonces)
    (hcache : w'.cache = w.cache) : w'.Agrees := by
  refine ⟨?_, ?_, ?_⟩
  · intro a
    rw [hb, hc, hn]
    exact h.keys a
  · intro a p hp
    exact h.ownProxies a p (hcache ▸ hp)
  · intro a ha
    rw [hb]
    exact h.known a (hcache ▸ ha)

private theorem put (h : w.Agrees) {k : t.Key} (hrow : (w.tx.view t k).isSome) (v : t.Val) :
    { w with tx := w.tx.put t k v }.Agrees := by
  have hview : (w.tx.put t k v).view = w.tx.view.setRow t k (some v) := view_put _ _ _ _
  refine ⟨?_, h.ownProxies, fun a ha => ?_⟩
  · rw [hview]
    exact h.keys.setRow hrow v
  · rw [hview, KeysAgree.isSome_setRow hrow]
    exact h.known a ha

private theorem isSome_of_handedOut (h : w.Agrees) (hp : w.HandedOut p) :
    (w.tx.view .balances p.address).isSome := by
  refine h.known p.address ?_
  rw [hp]
  rfl

private theorem cached (h : w.Agrees) (hp : p.address = a) (hrow : (w'.tx.view .balances a).isSome)
    (hkeys : KeysAgree w'.tx.view)
    (hstay : ∀ b, b ≠ a → w'.tx.view .balances b = w.tx.view .balances b)
    (hcache : w'.cache = Function.update w.cache a (some p)) : w'.Agrees := by
  refine ⟨hkeys, fun b q hq => ?_, fun b hb => ?_⟩
  · rw [hcache] at hq
    by_cases hba : b = a
    · subst hba
      rw [update_self] at hq
      cases hq
      exact hp
    · rw [update_of_ne hba] at hq
      exact h.ownProxies b q hq
  · by_cases hba : b = a
    · subst hba
      exact hrow
    · rw [hcache, update_of_ne hba] at hb
      rw [hstay b hba]
      exact h.known b hb

end World.Agrees

/-- A creation that returned has written all three rows of an account that had none. -/
structure CreatesRows (w w' : World) (a : Address) (balance : Word) (code : ByteString) : Prop where
  not_existed : ¬Existed w.tx.view a
  view_eq : w'.tx.view = EthereumState.withAccount a balance code w.tx.view

namespace World.Agrees

variable {w : World}

private theorem noteRead (h : w.Agrees) (t : TableName) (k : t.Key) :
    { w with tx := w.tx.noteRead t k }.Agrees := by
  have hview := view_noteRead w.tx t k
  exact h.of_same (congrFun hview _) (congrFun hview _) (congrFun hview _) rfl

/-- An account without a balance is created with all its rows. -/
theorem create_of_none (h : w.Agrees) (hnone : w.tx.view .balances a = none) (balance : Word)
    (code : ByteString) : ∃ p w', EthereumState.create a balance code w = .ok p w' ∧
      CreatesRows w w' a balance code ∧ w'.Agrees := by
  have hnot := h.keys.not_existed hnone
  have hcache : w.cache a = none := by
    rw [← Option.not_isSome_iff_eq_none]
    intro hsome
    have hknown := h.known a hsome
    rw [hnone] at hknown
    cases hknown
  obtain ⟨p, w', hrun⟩ := exists_create hcache hnot balance code
  obtain ⟨-, -, -, hview⟩ := EthereumState.view_of_create hrun
  refine ⟨p, w', hrun, ⟨hnot, hview⟩, ?_⟩
  refine h.cached (EthereumState.address_of_create hrun) ?_ ?_ (fun b hb => ?_)
    (cache_of_create hrun)
  · rw [hview]
    simp [EthereumState.withAccount, setRow_of_ne]
  · rw [hview]
    exact h.keys.withAccount a balance code
  · rw [hview]
    simp [EthereumState.withAccount, setRow_of_ne, update_of_ne hb]

/-- A creation writes all three rows, or throws that there is a balance and writes nothing. -/
theorem create (h : w.Agrees) (a : Address) (balance : Word) (code : ByteString) :
    (∃ p w', EthereumState.create a balance code w = .ok p w' ∧
      CreatesRows w w' a balance code ∧ w'.Agrees) ∨
    ∃ w', EthereumState.create a balance code w = .error (.hasBalance a) w' ∧
      w'.tx.view = w.tx.view ∧ w'.Agrees := by
  cases hrow : w.tx.view .balances a with
  | none => exact Or.inl (h.create_of_none hrow balance code)
  | some b =>
    refine Or.inr ⟨_, create_of_row (by rw [hrow]; rfl) balance code, ?_, h.noteRead _ _⟩
    exact view_noteRead w.tx .balances a

private theorem addToCache (h : w.Agrees) (hcache : w.cache a = none)
    (hrow : (w.tx.view .balances a).isSome) :
    ∃ p w', EthereumState.addToCache a w = .ok p w' ∧ w'.Agrees := by
  obtain ⟨p, w', hrun⟩ := EthereumState.exists_addToCache hcache
  obtain ⟨hp, hview, hcache'⟩ := EthereumState.addToCache_eq_ok hrun
  refine ⟨p, w', hrun, h.cached (by rw [hp]; rfl) ?_ ?_ (fun b _ => by rw [hview]) hcache'⟩
  · rw [hview]
    exact hrow
  · rw [hview]
    exact h.keys

/-- A lookup always returns. -/
theorem get (h : w.Agrees) (a : Address) :
    ∃ p w', EthereumState.get a w = .ok p w' ∧ w'.Agrees := by
  have hcached : Exec.cached a w = .ok (w.cache a) w := rfl
  rw [EthereumState.get, bind_of_ok hcached]
  cases hcache : w.cache a with
  | some p => exact ⟨p, w, rfl, h⟩
  | none =>
    dsimp only
    rw [bind_of_ok (Exec.get_run .balances a w)]
    have hread := h.noteRead .balances a
    have hview := congrFun (congrFun (view_noteRead w.tx .balances a) .balances) a
    cases hrow : w.tx.view .balances a with
    | none =>
      obtain ⟨p, w', hrun, -, hw'⟩ := hread.create_of_none (hview.trans hrow) 0 []
      exact ⟨p, w', hrun, hw'⟩
    | some b =>
      obtain ⟨p, w', hrun, hw'⟩ := hread.addToCache hcache (by
        rw [hview, hrow]
        rfl)
      exact ⟨p, w', hrun, hw'⟩

end World.Agrees

/-- One operation of `EthereumState` or of a proxy that was handed out, or something that concerns
neither the account tables nor the proxies. -/
inductive Operates : World → World → Prop
  | get (w : World) (a : Address) : Operates w (stateAfter (EthereumState.get a) w)
  | create (w : World) (a : Address) (balance : Word) (code : ByteString) :
    Operates w (stateAfter (EthereumState.create a balance code) w)
  | setBalance {w : World} {p : AccountProxy} (hp : w.HandedOut p) (b : Word) :
    Operates w (stateAfter (p.setBalance b) w)
  | setCode {w : World} {p : AccountProxy} (hp : w.HandedOut p) (code : ByteString) :
    Operates w (stateAfter (p.setCode code) w)
  | incrementNonce {w : World} {p : AccountProxy} (hp : w.HandedOut p) :
    Operates w (stateAfter p.incrementNonce w)
  | elsewhere {w w' : World} (hb : w'.tx.view .balances = w.tx.view .balances)
    (hc : w'.tx.view .codes = w.tx.view .codes) (hn : w'.tx.view .nonces = w.tx.view .nonces)
    (hcache : w'.cache = w.cache) : Operates w w'

/-- Any number of operations. -/
def Operated : World → World → Prop := Relation.ReflTransGen Operates

private theorem World.Agrees.operates (h : w.Agrees) (hop : Operates w w') : w'.Agrees := by
  cases hop with
  | get a =>
    obtain ⟨p, w', hrun, hw'⟩ := h.get a
    rw [stateAfter, hrun]
    exact hw'
  | create a balance code =>
    rcases h.create a balance code with ⟨p, w', hrun, -, hw'⟩ | ⟨w', hrun, -, hw'⟩
    · rw [stateAfter, hrun]
      exact hw'
    · rw [stateAfter, hrun]
      exact hw'
  | setBalance hp b => exact h.put (h.isSome_of_handedOut hp) b
  | setCode hp code => exact h.put ((h.keys _).1.mpr (h.isSome_of_handedOut hp)) code
  | incrementNonce hp =>
    refine (h.noteRead _ _).put (t := .nonces) ?_ _
    rw [view_noteRead]
    exact (h.keys _).2.mpr (h.isSome_of_handedOut hp)
  | elsewhere hb hc hn hcache => exact h.of_same hb hc hn hcache

/-- Operations keep the tables in agreement. -/
theorem World.Agrees.operated (h : w.Agrees) (hop : Operated w w') : w'.Agrees := by
  induction hop with
  | refl => exact h
  | tail _ hstep ih => exact ih.operates hstep

end CloakBridge.Tee
