import CloakBridge.Core.Totals
import CloakBridge.Models.Evm.NextContracts

/-!
# The sum of all balances

Balances are written when an account is created and when one account pays another. A
payment moves its amount, unless an account pays itself: then only the credit remains. A
creation adds the balance that the new account starts with.
-/

namespace CloakBridge.Tee

open Kv Tables Function

/-- The balance of an account, zero where there is no row. -/
def balanceOf (c : Contents) (a : Address) : Word := (c .balances a).getD 0

/-- The sum of all balances. -/
def supply (c : Contents) : Nat := total fun a => (balanceOf c a).toNat

variable {c : Contents} {a payer : Address} {amount balance : Word} {w w' : World} {t : TableName}
  {p : AccountProxy} {code : ByteString}

/-- A row that is written is the balance. -/
theorem balanceOf_setRow (c : Contents) (a : Address) (b : Word) :
    balanceOf (c.setRow .balances a (some b)) = update (balanceOf c) a b := by
  funext x
  by_cases hx : x = a
  · subst hx
    rw [balanceOf, setRow_self, update_self, update_self, Option.getD_some]
  · rw [balanceOf, setRow_apply_of_ne c .balances hx, update_of_ne hx, balanceOf]

private theorem supply_setRow (c : Contents) (a : Address) (b : Word) :
    supply (c.setRow .balances a (some b)) + (balanceOf c a).toNat = supply c + b.toNat := by
  have hoff : ∀ x, x ≠ a →
      (balanceOf (c.setRow .balances a (some b)) x).toNat = (balanceOf c x).toNat := by
    intro x hx
    rw [balanceOf_setRow, update_of_ne hx]
  have hself : balanceOf (c.setRow .balances a (some b)) a = b := by
    rw [balanceOf_setRow, update_self]
  have hsum := total_add_of_eq_off hoff
  rwa [hself] at hsum

/-- The sum depends on the balances only. -/
theorem supply_congr {c' : Contents} (h : balanceOf c' = balanceOf c) : supply c' = supply c := by
  simp only [supply, h]

/-- A new account adds what it starts with. -/
theorem supply_setRow_of_none (h : c .balances a = none) (b : Word) :
    supply (c.setRow .balances a (some b)) = supply c + b.toNat := by
  have hsum := supply_setRow c a b
  have hzero : (balanceOf c a).toNat = 0 := by
    rw [balanceOf, h]
    rfl
  omega

/-- No balance exceeds the sum. -/
theorem balanceOf_le_supply (c : Contents) (a : Address) : (balanceOf c a).toNat ≤ supply c :=
  le_total (fun a => (balanceOf c a).toNat) a

/-- Without balances the sum is zero. -/
theorem supply_eq_zero (h : ∀ a, balanceOf c a = 0) : supply c = 0 := by
  simp only [supply, h, BitVec.ofNat_eq_ofNat, BitVec.toNat_zero, total_zero]

attribute [irreducible] supply

/-- The payment is covered, and fits into the balance of the payee. -/
def Payable (c : Contents) (payer payee : Address) (amount : Word) : Prop :=
  amount ≤ balanceOf c payer ∧ (balanceOf c payee).toNat + amount.toNat < 2 ^ 256

/-- The balances after a payment. The payee's is written last. -/
def paid (c : Contents) (payer payee : Address) (amount : Word) : Contents :=
  (c.setRow .balances payer (some (balanceOf c payer - amount))).setRow .balances payee
    (some (balanceOf c payee + amount))

namespace AccountProxy

private theorem getBalance_run (p : AccountProxy) (w : World) :
    p.getBalance w = .ok (balanceOf w.tx.view p.address)
      { w with tx := w.tx.noteRead .balances p.address } := rfl

private theorem add_lt_iff (x y : Word) : x + y < x ↔ ¬x.toNat + y.toNat < 2 ^ 256 := by
  have hx := x.isLt
  have hy := y.isLt
  simp only [BitVec.lt_def, BitVec.toNat_add]
  omega

/-- A payment is made if it is payable, and otherwise nothing is. -/
theorem payTo_cases (p other : AccountProxy) (amount : Word) (w : World) :
    (Payable w.tx.view p.address other.address amount ∧ ∃ w', p.payTo other amount w = .ok () w' ∧
      w'.tx.view = paid w.tx.view p.address other.address amount) ∨
    (¬Payable w.tx.view p.address other.address amount ∧
      ∃ e w', p.payTo other amount w = .error (.evm e) w' ∧ w'.tx.view = w.tx.view) := by
  have hother : other.getBalance { w with tx := w.tx.noteRead .balances p.address } =
      .ok (balanceOf w.tx.view other.address) { w with
        tx := (w.tx.noteRead .balances p.address).noteRead .balances other.address } := by
    rw [getBalance_run, view_noteRead]
  rw [payTo, bind_of_ok (p.getBalance_run w)]
  by_cases hfunds : balanceOf w.tx.view p.address < amount
  · rw [bind_of_error (Exec.throwIf_of_pos hfunds _ _)]
    exact Or.inr ⟨fun hpay => absurd hpay.1 (BitVec.not_le.mpr hfunds), _, _, rfl,
      view_noteRead _ _ _⟩
  rw [bind_of_ok ((Exec.throwIf_eq_ok (u := ())).mpr ⟨hfunds, rfl⟩), bind_of_ok hother]
  by_cases hroom : balanceOf w.tx.view other.address + amount < balanceOf w.tx.view other.address
  · rw [bind_of_error (Exec.throwIf_of_pos hroom _ _)]
    refine Or.inr ⟨fun hpay => (add_lt_iff _ _).mp hroom hpay.2, _, _, rfl, ?_⟩
    rw [view_noteRead, view_noteRead]
  rw [bind_of_ok ((Exec.throwIf_eq_ok (u := ())).mpr ⟨hroom, rfl⟩)]
  refine Or.inl ⟨⟨BitVec.not_lt.mp hfunds, ?_⟩, _, rfl, ?_⟩
  · rw [add_lt_iff, not_not] at hroom
    exact hroom
  · rw [view_put, view_put, view_noteRead, view_noteRead]
    rfl

end AccountProxy

/-- A payment to somebody else moves its amount. -/
theorem supply_paid_of_ne {payee : Address} (hpay : Payable c payer payee amount)
    (hne : payer ≠ payee) : supply (paid c payer payee amount) = supply c := by
  have hdebit := supply_setRow c payer (balanceOf c payer - amount)
  have hcredit := supply_setRow (c.setRow .balances payer (some (balanceOf c payer - amount))) payee
    (balanceOf c payee + amount)
  rw [balanceOf_setRow, update_of_ne hne.symm] at hcredit
  have hpayer := BitVec.toNat_sub_of_le hpay.1
  have hpayee : (balanceOf c payee + amount).toNat = (balanceOf c payee).toNat + amount.toNat := by
    rw [BitVec.toNat_add]
    exact Nat.mod_eq_of_lt hpay.2
  have hle : amount.toNat ≤ (balanceOf c payer).toNat := hpay.1
  rw [paid]
  omega

/-- A payment to oneself adds its amount. -/
theorem supply_paid_self (hpay : Payable c payer payer amount) :
    supply (paid c payer payer amount) = supply c + amount.toNat := by
  have hdebit := supply_setRow c payer (balanceOf c payer - amount)
  have hcredit := supply_setRow (c.setRow .balances payer (some (balanceOf c payer - amount))) payer
    (balanceOf c payer + amount)
  rw [balanceOf_setRow, update_self] at hcredit
  have hpayee : (balanceOf c payer + amount).toNat = (balanceOf c payer).toNat + amount.toNat := by
    rw [BitVec.toNat_add]
    exact Nat.mod_eq_of_lt hpay.2
  rw [paid]
  omega

/-- All balances stay. -/
def balancesStay : Frame World := .observing fun w => balanceOf w.tx.view

/-- The sum of all balances stays. -/
def supplyStays : Frame World := .observing fun w => supply w.tx.view

/-- The sum of all balances does not become smaller. -/
def supplyGrows : Frame World where
  rel w w' := supply w.tx.view ≤ supply w'.tx.view
  refl _ := le_rfl
  trans := le_trans

namespace balancesStay

/-- The balances stay if their rows do. -/
theorem of_rows (h : w'.tx.view .balances = w.tx.view .balances) : balancesStay.rel w w' := by
  funext a
  simp only [balanceOf, h]

private theorem reads : balancesStay.Reads where
  get t k w := of_rows (congrFun (view_noteRead w.tx t k) _)
  ask _ _ := of_rows rfl

private theorem caches : balancesStay.Caches := fun _ _ _ => of_rows rfl

theorem puts (h : TableName.balances ≠ t) : balancesStay.Puts t := by
  intro k v w
  refine of_rows ?_
  change (w.tx.put t k v).view .balances = _
  rw [view_put, setRow_of_ne _ h]

private theorem removes : balancesStay.Removes .storage := by
  intro k w
  refine of_rows ?_
  change (w.tx.remove .storage k).view .balances = _
  rw [view_remove, setRow_of_ne _ (by decide)]

private theorem fills : balancesStay.Fills .balances 0 := by
  intro a w hnone
  change balanceOf (w.tx.put .balances a 0).view = balanceOf w.tx.view
  rw [view_put, balanceOf_setRow, update_eq_self_iff, balanceOf, hnone, Option.getD_none]

theorem lookups : balancesStay.Lookups :=
  Frame.lookups_of_fills reads caches.own fills ((puts (by decide)).fills _)
    ((puts (by decide)).fills _) (puts (by decide))

/-- Setting a code leaves the balances. -/
theorem keeps_setCode (p : AccountProxy) (code : ByteString) :
    balancesStay.Keeps (p.setCode code) := puts (t := .codes) (by decide) p.address code

/-- A store leaves the balances. -/
theorem keeps_sstore (pf : Platform) (p : AccountProxy) (key value : Word) :
    balancesStay.Keeps (p.sstore pf key value) :=
  p.keeps_sstore reads (puts (by decide) _) removes (puts (by decide)) pf value

/-- Creating an empty account leaves the balances. -/
theorem keeps_createEmpty (a : Address) : balancesStay.Keeps (EthereumState.create a 0 []) :=
  EthereumState.keeps_create reads caches.own (fills a)
    ((puts (t := .codes) (by decide)).fillsAt a _) ((puts (t := .nonces) (by decide)).fillsAt a _)

end balancesStay

namespace supplyStays

theorem of_balances (h : balancesStay.rel w w') : supplyStays.rel w w' :=
  supply_congr h

theorem lookups : supplyStays.Lookups := balancesStay.lookups.mono fun _ _ => of_balances

/-- A payment keeps the sum if it is not made to oneself, is turned down, or is of nothing. -/
theorem rel_payTo {other : AccountProxy}
    (h : p.address = other.address → Payable w.tx.view p.address other.address amount →
      amount = 0) :
    supplyStays.rel w (stateAfter (p.payTo other amount) w) := by
  rcases p.payTo_cases other amount w with ⟨hpay, w', hrun, hview⟩ | ⟨-, e, w', hrun, hview⟩
  · rw [stateAfter, hrun]
    change supply w'.tx.view = supply w.tx.view
    rw [hview]
    by_cases hself : p.address = other.address
    · have hzero := h hself hpay
      rw [← hself] at hpay ⊢
      rw [supply_paid_self hpay, hzero, BitVec.ofNat_eq_ofNat, BitVec.toNat_zero, Nat.add_zero]
    · exact supply_paid_of_ne hpay hself
  · rw [stateAfter, hrun]
    exact of_balances (balancesStay.of_rows (congrFun hview _))

end supplyStays

namespace supplyGrows

private theorem of_balances (h : balancesStay.rel w w') : supplyGrows.rel w w' :=
  (supplyStays.of_balances h).ge

private theorem lookups : supplyGrows.Lookups := balancesStay.lookups.mono fun _ _ => of_balances

private theorem fills (b : Word) : supplyGrows.Fills .balances b := by
  intro a w hnone
  change supply w.tx.view ≤ supply (w.tx.put .balances a b).view
  rw [view_put, supply_setRow_of_none hnone]
  exact Nat.le_add_right _ _

private theorem puts (h : TableName.balances ≠ t) : supplyGrows.Puts t := fun k v w =>
  of_balances (balancesStay.puts h k v w)

private theorem keeps_create (a : Address) (balance : Word) (code : ByteString) :
    supplyGrows.Keeps (EthereumState.create a balance code) := by
  refine EthereumState.keeps_create lookups.reads ?_ (fills balance a)
    ((puts (t := .codes) (by decide)).fillsAt a _) ((puts (t := .nonces) (by decide)).fillsAt a _)
  exact fun a level key w => of_balances (balancesStay.caches.own a level key w)

/-- A payment does not lower the sum. -/
theorem keeps_payTo (p other : AccountProxy) (amount : Word) :
    supplyGrows.Keeps (p.payTo other amount) := by
  intro w
  rcases p.payTo_cases other amount w with ⟨hpay, w', hrun, hview⟩ | ⟨-, e, w', hrun, hview⟩
  · rw [stateAfter, hrun]
    change supply w.tx.view ≤ supply w'.tx.view
    rw [hview]
    by_cases hself : p.address = other.address
    · rw [← hself] at hpay ⊢
      rw [supply_paid_self hpay]
      exact Nat.le_add_right _ _
    · exact (supply_paid_of_ne hpay hself).ge
  · rw [stateAfter, hrun]
    exact of_balances (balancesStay.of_rows (congrFun hview _))

/-- An execution does not lower the sum. -/
theorem executes : supplyGrows.Executes where
  toLookups := lookups
  createEmpty a balance := keeps_create a balance []
  payTo := keeps_payTo
  setCode p code w := of_balances (balancesStay.keeps_setCode p code w)
  sstore pf p key value w := of_balances (balancesStay.keeps_sstore pf p key value w)
  create := keeps_create

end supplyGrows

/-- A new account has what it starts with. -/
theorem balanceOf_of_create (h : EthereumState.create a balance code w = .ok p w') :
    w.tx.view .balances a = none ∧
      balanceOf w'.tx.view = balanceOf (w.tx.view.setRow .balances a (some balance)) := by
  obtain ⟨hnone, -, -, hview⟩ := EthereumState.view_of_create h
  refine ⟨hnone, funext fun x => ?_⟩
  rw [hview, EthereumState.withAccount, balanceOf, setRow_of_ne _ (by decide),
    setRow_of_ne _ (by decide), balanceOf]

/-- A creation adds what the new account starts with. -/
theorem supply_of_create (h : EthereumState.create a balance code w = .ok p w') :
    supply w'.tx.view = supply w.tx.view + balance.toNat := by
  obtain ⟨hnone, hbalances⟩ := balanceOf_of_create h
  rw [supply_congr hbalances, supply_setRow_of_none hnone]

end CloakBridge.Tee
