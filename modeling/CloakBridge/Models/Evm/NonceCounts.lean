import CloakBridge.Models.Evm.Queries

/-!
# The nonces behind a transaction

The interpreter never changes a nonce that has a row, and the rows it adds are zero.
Behind the run the nonce of the sender is incremented, in 64 bits. So the nonces are kept
as one would expect, unless the sender has used up all of them.
-/

namespace CloakBridge.Evm

open Tee Kv Tables EthereumState

/-- The nonce of an account, zero where there is no row. -/
def nonceOf (c : Contents) (a : Address) : Nonce := (c .nonces a).getD 0

/-- The address of the contract that an account deploys next. -/
def nextContract (c : Contents) (sender : Address) : Address :=
  generateAddress sender (nonceOf c sender)

/-- The account has a row of any kind. -/
def Existed (c : Contents) (a : Address) : Prop :=
  (c .balances a).isSome ∨ (c .codes a).isSome ∨ (c .nonces a).isSome

/-- The nonces behind one transaction of `sender`, given the tables before and after it. -/
structure NonceBookkeeping (sender : Address) (c c' : Contents) : Prop where
  counted : (nonceOf c' sender).toNat = (nonceOf c sender).toNat + 1
  others : ∀ a, a ≠ sender → Existed c a → nonceOf c' a = nonceOf c a
  created : ∀ a n, c .nonces a = none → c' .nonces a = some n → n = 0 ∨ n = 1

/-- A row of a nonce that stayed, or was added as zero. -/
def ZeroAdded (row row' : Option Nonce) : Prop := row' = row ∨ row = none ∧ row' = some 0

variable {row : Option Nonce} {n : Nonce} {w w' : World} {call : MessageCall} {c c' : Contents}
  {a b : Address} {p : AccountProxy} {pf : Platform} {fuel : Nat}

/-- A row of zero counts like no row. -/
theorem ZeroAdded.getD_eq {row' : Option Nonce} (h : ZeroAdded row row') :
    row'.getD 0 = row.getD 0 := by
  rcases h with rfl | ⟨rfl, rfl⟩
  · rfl
  · rfl

private theorem ZeroAdded.trans {row₁ row₂ : Option Nonce} (h : ZeroAdded row row₁)
    (h' : ZeroAdded row₁ row₂) : ZeroAdded row row₂ := by
  rcases h' with rfl | ⟨rfl, rfl⟩
  · exact h
  · rcases h with rfl | ⟨-, hsome⟩
    · exact Or.inr ⟨rfl, rfl⟩
    · cases hsome

private theorem ZeroAdded.eq_of_some (h : ZeroAdded (some n) row) : row = some n := by
  rcases h with rfl | ⟨hnone, -⟩
  · rfl
  · cases hnone

/-- Nonces stay, and new ones are zero. -/
def startsAtZero : Frame World where
  rel w w' := ∀ a, ZeroAdded (w.tx.view .nonces a) (w'.tx.view .nonces a)
  refl _ _ := Or.inl rfl
  trans h h' a := (h a).trans (h' a)

namespace startsAtZero

private theorem of_view (h : w'.tx.view .nonces = w.tx.view .nonces) :
    startsAtZero.rel w w' := fun a => Or.inl (congrFun h a)

private theorem reads : startsAtZero.Reads where
  get t k w := of_view (congrFun (view_noteRead w.tx t k) .nonces)
  ask _ _ := of_view rfl

private theorem caches : startsAtZero.Caches := fun _ _ _ => of_view rfl

theorem puts {t : TableName} (h : TableName.nonces ≠ t) : startsAtZero.Puts t := by
  intro k v w
  refine of_view ?_
  change (w.tx.put t k v).view .nonces = _
  rw [view_put, setRow_of_ne _ h]

private theorem removes : startsAtZero.Removes .storage := by
  intro k w
  refine of_view ?_
  change (w.tx.remove .storage k).view .nonces = _
  rw [view_remove, setRow_of_ne _ (by decide)]

private theorem fills : startsAtZero.Fills .nonces 0 := by
  intro a w hnone a'
  rw [view_put]
  by_cases ha : a' = a
  · subst ha
    rw [setRow_self, Function.update_self]
    exact Or.inr ⟨hnone, rfl⟩
  · rw [setRow_apply_of_ne _ _ ha]
    exact Or.inl rfl

/-- The interpreter makes no nonces but zeros. -/
theorem interacts : startsAtZero.Interacts := by
  refine Frame.interacts_of_puts reads caches.own (fun t ht => puts ?_) removes fills
  rintro rfl
  exact absurd ht (by decide)

end startsAtZero

/-- The account is the one that the message call deploys, and it is new. -/
structure Deploys (call : MessageCall) (c : Contents) (a : Address) : Prop where
  deployment : call.to_ = none
  address : a = nextContract c call.from_
  ne_sender : a ≠ call.from_
  not_existed : ¬Existed c a

/-- The rows of nonces before the sender's is incremented: as `startsAtZero` has them, apart from
the account that a deployment made. -/
def Prepared (call : MessageCall) (c c' : Contents) : Prop :=
  ∀ a, ZeroAdded (c .nonces a) (c' .nonces a) ∨ Deploys call c a ∧ c' .nonces a = some 1

private theorem Prepared.after (h : Prepared call c w.tx.view) (hrel : startsAtZero.rel w w') :
    Prepared call c w'.tx.view := by
  intro a
  rcases h a with hzero | ⟨hdeploys, hone⟩
  · exact Or.inl (hzero.trans (hrel a))
  · have hrow := hrel a
    rw [hone] at hrow
    exact Or.inr ⟨hdeploys, hrow.eq_of_some⟩

private theorem not_existed_of_get (h : get b w = .ok p w')
    (hbalance : w'.tx.view .balances a = none) (hcode : w'.tx.view .codes a = none)
    (hnonce : w'.tx.view .nonces a = none) : ¬Existed w.tx.view a := by
  have hstay : ∀ {t : TableName} {k : t.Key}, t ≠ .pendingStorage → w'.tx.view t k = none →
      ¬(w.tx.view t k).isSome := by
    intro t k ht hnone hsome
    obtain ⟨v, hv⟩ := Option.isSome_iff_exists.mp hsome
    rw [((rowsStay.lookups ht).get b).of_ok h k v hv] at hnone
    cases hnone
  rintro (hsome | hsome | hsome)
  · exact hstay (by decide) hbalance hsome
  · exact hstay (by decide) hcode hsome
  · exact hstay (by decide) hnonce hsome

/-- A nonce is read without changing what is seen. -/
theorem view_of_getNonce (h : p.getNonce w = .ok n w') :
    n = nonceOf w.tx.view p.address ∧ w'.tx.view = w.tx.view := by
  obtain ⟨row, w₁, hrow, h⟩ := bind_eq_ok.mp h
  obtain ⟨rfl, rfl⟩ := Exec.get_eq_ok.mp hrow
  obtain ⟨rfl, rfl⟩ := pure_eq_ok.mp h
  exact ⟨rfl, view_noteRead _ _ _⟩

/-- A lookup leaves every nonce. -/
theorem nonceOf_of_get (h : get b w = .ok p w') : nonceOf w'.tx.view a = nonceOf w.tx.view a :=
  ((startsAtZero.interacts.get b).of_ok h a).getD_eq

/-- The account of a deployment is new, and is not the sender. -/
theorem prepared_of_callee {to_ : Address} (hcache : w.cache = fun _ => none)
    (h : EVMC.callee call w = .ok to_ w') : Prepared call w.tx.view w'.tx.view := by
  unfold EVMC.callee at h
  cases hto : call.to_ with
  | some a =>
    rw [hto] at h
    obtain ⟨-, rfl⟩ := pure_eq_ok.mp h
    exact fun _ => Or.inl (Or.inl rfl)
  | none =>
    rw [hto] at h
    obtain ⟨sender, w₁, hget, h⟩ := bind_eq_ok.mp h
    obtain ⟨nonce, w₂, hnonce, h⟩ := bind_eq_ok.mp h
    obtain ⟨new, w₃, hcreate, h⟩ := bind_eq_ok.mp h
    obtain ⟨rfl, rfl⟩ := pure_eq_ok.mp h
    obtain ⟨hbalance, hcode, hrow, hview⟩ := view_of_create hcreate
    rw [(view_of_getNonce hnonce).2] at hbalance hcode hrow hview
    have hknown := balance_of_get (congrFun hcache _) hget
    have hown : w.OwnProxies := by
      intro a p hp
      rw [hcache] at hp
      cases hp
    have haddress : generateAddress sender.address nonce = nextContract w.tx.view call.from_ := by
      rw [(view_of_getNonce hnonce).1, address_of_get hown hget, nonceOf_of_get hget, nextContract]
    intro a
    rw [hview, withAccount]
    by_cases ha : a = generateAddress sender.address nonce
    · subst ha
      have hnew := not_existed_of_get hget hbalance hcode hrow
      have hnone : w.tx.view .nonces (generateAddress sender.address nonce) = none :=
        Option.not_isSome_iff_eq_none.mp fun hsome => hnew (Or.inr (Or.inr hsome))
      rw [setRow_self, Function.update_self]
      split
      · exact Or.inl (Or.inr ⟨hnone, rfl⟩)
      · refine Or.inr ⟨⟨hto, haddress, fun heq => ?_, hnew⟩, rfl⟩
        rw [heq] at hbalance
        rw [hbalance] at hknown
        cases hknown
    · rw [setRow_apply_of_ne _ _ ha, setRow_of_ne _ (by decide), setRow_of_ne _ (by decide)]
      exact Or.inl ((startsAtZero.interacts.get call.from_).of_ok hget a)

private theorem view_of_countTransaction (hw : w.OwnProxies)
    (h : EVMC.countTransaction call w = .ok () w') :
    ∃ w₁, startsAtZero.rel w w₁ ∧ w'.tx.view =
      w₁.tx.view.setRow .nonces call.from_ (some (nonceOf w₁.tx.view call.from_ + 1)) := by
  obtain ⟨sender, w₁, hget, h⟩ := bind_eq_ok.mp h
  obtain ⟨_, w₂, hfirst, h⟩ := bind_eq_ok.mp h
  obtain ⟨nonce, w₃, hnonce, h⟩ := bind_eq_ok.mp h
  obtain rfl := Exec.put_eq_ok.mp h
  have hsender := address_of_get hw hget
  obtain ⟨rfl, hview⟩ := view_of_getNonce hnonce
  refine ⟨w₁, (startsAtZero.interacts.get call.from_).of_ok hget, ?_⟩
  rw [view_put, hview, (view_of_getNonce hfirst).2, hsender]

/-- A transaction of a fresh `EthereumState`. -/
def World.fresh (tx : Tx) (tick : Nat) : World := ⟨tx, fun _ => none, tick⟩

/-- A transaction begins without proxies. -/
theorem World.ownProxies_fresh (tx : Tx) (tick : Nat) : (World.fresh tx tick).OwnProxies := by
  intro a p h
  cases h

/-- Up to the increment, the nonces are those before the transaction. -/
theorem prepared_of_runInEvm {tx : Tx} {tick : Nat} {result : ExecResult} {logs : List LogEntry}
    {address : Address} (hexit : ∀ type, result.exit ≠ .threw type)
    (h : EVMC.runInEvm pf fuel call (World.fresh tx tick) = .ok (result, logs, address) w') :
    ∃ c, Prepared call tx.view c ∧
      w'.tx.view = c.setRow .nonces call.from_ (some (nonceOf c call.from_ + 1)) := by
  obtain ⟨to_, w₁, ran, w₂, w₃, hcallee, hrun, hdeploy, hcount⟩ := EVMC.parts_of_runInEvm hexit h
  have hown : w₃.OwnProxies := by
    have hG := ownProxies.executes
    refine (EVMC.keeps_deploy hG.toInteracts call _ _).of_ok hdeploy ?_
    refine (EVMC.keeps_runCallee hG.toInteracts pf fuel call to_).of_ok hrun ?_
    exact (EVMC.keeps_callee hG call).of_ok hcallee (World.ownProxies_fresh tx tick)
  obtain ⟨w₄, hget, hview⟩ := view_of_countTransaction hown hcount
  have hG := startsAtZero.interacts
  have hprepared := prepared_of_callee rfl hcallee
  have hran := hprepared.after ((EVMC.keeps_runCallee hG pf fuel call to_).of_ok hrun)
  have hdeployed := hran.after ((EVMC.keeps_deploy hG call _ _).of_ok hdeploy)
  exact ⟨w₄.tx.view, hdeployed.after hget, hview⟩

/-- Only the nonce of a deployed account differs. -/
theorem Prepared.nonceOf_eq (h : Prepared call c c') (ha : ¬Deploys call c a) :
    nonceOf c' a = nonceOf c a := by
  rcases h a with hzero | ⟨hdeploys, -⟩
  · exact hzero.getD_eq
  · exact absurd hdeploys ha

private theorem Prepared.nonceOf_sender (h : Prepared call c c') :
    nonceOf c' call.from_ = nonceOf c call.from_ :=
  h.nonceOf_eq fun hdeploys => hdeploys.ne_sender rfl

/-- Incrementing the nonce of the sender is counting if it does not wrap. -/
theorem Prepared.bookkeeping_setRow_iff {c₁ : Contents} (h : Prepared call c c₁) :
    NonceBookkeeping call.from_ c
        (c₁.setRow .nonces call.from_ (some (nonceOf c₁ call.from_ + 1))) ↔
      (nonceOf c call.from_).toNat + 1 < 2 ^ 64 := by
  have hsender : nonceOf (c₁.setRow .nonces call.from_ (some (nonceOf c₁ call.from_ + 1)))
      call.from_ = nonceOf c call.from_ + 1 := by
    rw [nonceOf, setRow_self, Function.update_self, Option.getD_some, h.nonceOf_sender]
  constructor
  · intro hbook
    rw [← hbook.counted]
    exact BitVec.isLt _
  · intro hlt
    refine ⟨?_, fun a ha hexisted => ?_, fun a n hnone hsome => ?_⟩
    · rw [hsender, BitVec.toNat_add]
      exact Nat.mod_eq_of_lt hlt
    · rw [nonceOf, setRow_apply_of_ne c₁ .nonces ha]
      exact h.nonceOf_eq fun hdeploys => hdeploys.not_existed hexisted
    · by_cases ha : a = call.from_
      · subst ha
        rw [setRow_self, Function.update_self, h.nonceOf_sender, nonceOf, hnone] at hsome
        cases hsome
        exact Or.inr rfl
      · rw [setRow_apply_of_ne c₁ .nonces ha] at hsome
        rcases h a with (hstay | ⟨-, hzero⟩) | ⟨-, hone⟩
        · rw [hsome, hnone] at hstay
          cases hstay
        · rw [hsome] at hzero
          exact Or.inl (Option.some.inj hzero)
        · rw [hsome] at hone
          exact Or.inr (Option.some.inj hone)

/-- The message call returned, by either of the two entries. -/
def EVMC.ReturnsIn (pf : Platform) (fuel : Nat) (call : MessageCall) (w w' : World) : Prop :=
  (∃ r, EVMC.run pf fuel call w = .ok r w') ∨ ∃ r, EVMC.runWithResult pf fuel call w = .ok r w'

/-- Behind a call that returns is a run that did not throw. -/
theorem EVMC.ReturnsIn.runInEvm (h : EVMC.ReturnsIn pf fuel call w w') :
    ∃ result logs address, (∀ type, result.exit ≠ .threw type) ∧
      EVMC.runInEvm pf fuel call w = .ok (result, logs, address) w' := by
  have hparts : ∀ {β : Type} {r : β} {answer : ExecResult × List LogEntry × Address → β}, (do
        let ran ← EVMC.runInEvm pf fuel call
        EVMC.rethrow ran.1
        pure (answer ran)) w = .ok r w' →
      ∃ result logs address, (∀ type, result.exit ≠ .threw type) ∧
        EVMC.runInEvm pf fuel call w = .ok (result, logs, address) w' := by
    intro β r answer h
    obtain ⟨⟨result, logs, address⟩, w₁, hrun, h⟩ := bind_eq_ok.mp h
    obtain ⟨⟨⟩, w₂, hrethrow, h⟩ := bind_eq_ok.mp h
    obtain ⟨-, rfl⟩ := pure_eq_ok.mp h
    obtain ⟨hexit, rfl⟩ := not_threw_of_rethrow hrethrow
    exact ⟨result, logs, address, hexit, hrun⟩
  rcases h with ⟨r, h⟩ | ⟨r, h⟩
  · exact hparts h
  · exact hparts h

/-- Behind a message call that returned, the nonces are as they should be exactly if the sender's
did not wrap. -/
theorem nonceBookkeeping_iff (pf : Platform) (fuel : Nat) (call : MessageCall) (tx : Tx)
    (tick : Nat) (w' : World) (h : EVMC.ReturnsIn pf fuel call (World.fresh tx tick) w') :
    NonceBookkeeping call.from_ tx.view w'.tx.view ↔
      (nonceOf tx.view call.from_).toNat + 1 < 2 ^ 64 := by
  obtain ⟨result, logs, address, hexit, hrun⟩ := h.runInEvm
  obtain ⟨c, hprepared, hview⟩ := prepared_of_runInEvm hexit hrun
  rw [hview]
  exact hprepared.bookkeeping_setRow_iff

/-- The tables with an account `7` that has a nonce, and a contract `0x10` that stops at once. -/
def nonceStore (nonce : Nonce) : Store
  | .balances => .ofRows 1 [(7, 0), (0x10, 0)]
  | .codes => .ofRows 1 [(7, []), (0x10, [0x00])]
  | .nonces => .ofRows 1 [(7, nonce), (0x10, 1)]
  | _ => .ofRows 0 []

/-- A call of account `7` to the contract. -/
def stoppingCall : MessageCall := { from_ := 7, to_ := some 0x10, gas := 0, value := 0, data := [] }

private theorem returnsIn_stoppingCall (nonce : Nonce) :
    ∃ w', EVMC.ReturnsIn .mute 2 stoppingCall (World.fresh (start (nonceStore nonce)) 0) w' :=
  ⟨_, Or.inl ⟨_, rfl⟩⟩

/-- The third transaction of an account. -/
theorem nonceBookkeeping_third :
    ∃ w', EVMC.ReturnsIn .mute 2 stoppingCall (World.fresh (start (nonceStore 2)) 0) w' ∧
      NonceBookkeeping 7 (nonceStore 2).content w'.tx.view := by
  obtain ⟨w', h⟩ := returnsIn_stoppingCall 2
  exact ⟨w', h, (nonceBookkeeping_iff _ _ _ _ _ _ h).mpr (by decide)⟩

/-- The nonce after the last one is zero. -/
theorem not_nonceBookkeeping_last : ∃ w', EVMC.ReturnsIn .mute 2 stoppingCall
        (World.fresh (start (nonceStore (2 ^ 64 - 1))) 0) w' ∧
      ¬NonceBookkeeping 7 (nonceStore (2 ^ 64 - 1)).content w'.tx.view := by
  refine ⟨_, Or.inl ⟨_, rfl⟩, fun hbook => ?_⟩
  have hcounted := hbook.counted
  revert hcounted
  decide +kernel

end CloakBridge.Evm
