import CloakBridge.Core.Totals
import CloakBridge.Models.Service.Ledger

/-!
# The token of the second layer

`Token` of `tenet_l2.sol`, with its balances, its supply and its allowances. The
arithmetic is checked, and a call that reverts takes back what it has written. The supply
is what all accounts hold together. `name`, `decimals`, `symbol` and the events are never
read and are left out.
-/

namespace CloakBridge.Tenet

open Function BitVec

open Service (Address Revert)

/-- The storage of a `Token`. -/
structure Token where
  /-- `owner` of OpenZeppelin's `Ownable` -/
  owner : Address
  balances : Address → Word
  totalSupply : Word
  allowed : Address → Address → Word

/-- The constructor; the deployer becomes the owner. -/
def Token.deployed (owner : Address) : Token where
  owner := owner
  balances _ := 0
  totalSupply := 0
  allowed _ _ := 0

/-- Token code in execution. -/
abbrev Exec := EStateM Revert Token

namespace Exec

/-- `require(p, text)` -/
def require (p : Prop) [Decidable p] (text : String) : Exec Unit :=
  if p then pure () else throw (.reason text)

/-- `a + b`, checked -/
def add (a b : Word) : Exec Word :=
  if a.toNat + b.toNat < 2 ^ 256 then pure (a + b) else throw (.panic 0x11)

/-- `a - b`, checked -/
def sub (a b : Word) : Exec Word := if b ≤ a then pure (a - b) else throw (.panic 0x11)

def owner : Exec Address := modifyGet fun t => (t.owner, t)

def setOwner (account : Address) : Exec Unit := modify fun t => { t with owner := account }

def balance (account : Address) : Exec Word := modifyGet fun t => (t.balances account, t)

def setBalance (account : Address) (value : Word) : Exec Unit :=
  modify fun t => { t with balances := update t.balances account value }

def supply : Exec Word := modifyGet fun t => (t.totalSupply, t)

def setSupply (value : Word) : Exec Unit := modify fun t => { t with totalSupply := value }

def allowance (account spender : Address) : Exec Word :=
  modifyGet fun t => (t.allowed account spender, t)

def setAllowance (account spender : Address) (value : Word) : Exec Unit :=
  modify fun t => { t with
    allowed := update t.allowed account (update (t.allowed account) spender value) }

/-- `balances[account] += value` -/
def credit (account : Address) (value : Word) : Exec Unit := do
  let balance ← balance account
  let sum ← add balance value
  setBalance account sum

/-- `balances[account] -= value` -/
def debit (account : Address) (value : Word) : Exec Unit := do
  let balance ← balance account
  let rest ← sub balance value
  setBalance account rest

end Exec

namespace Token

open Exec

/-- `MAX_UINT256` -/
def maxUint256 : Word := BitVec.allOnes 256

/-- `onlyOwner` of OpenZeppelin -/
def onlyOwner (sender : Address) : Exec Unit := do
  let owner ← Exec.owner
  require (owner = sender) "Ownable: caller is not the owner"

/-- `transfer` -/
def transfer (sender to_ : Address) (value : Word) : Exec Unit := do
  let balance ← balance sender
  require (value ≤ balance) "token balance is lower than the value requested"
  debit sender value
  credit to_ value

/-- `transferFrom`; here the receiver is credited first. -/
def transferFrom (sender from_ to_ : Address) (value : Word) : Exec Unit := do
  let allowed ← allowance from_ sender
  let balance ← balance from_
  require (value ≤ balance ∧ value ≤ allowed)
    "token balance or allowance is lower than amount requested"
  credit to_ value
  debit from_ value
  if allowed < maxUint256 then do
    let allowed ← allowance from_ sender
    let rest ← sub allowed value
    setAllowance from_ sender rest
  else pure ()

/-- `approve` -/
def approve (sender spender : Address) (value : Word) : Exec Unit :=
  setAllowance sender spender value

/-- `burn` -/
def burn (sender to_ : Address) (amount : Word) : Exec Unit := do
  onlyOwner sender
  let balance ← balance to_
  require (amount ≤ balance) "token balance is lower than the value requested"
  debit to_ amount
  let supply ← supply
  let rest ← sub supply amount
  setSupply rest

/-- `mint` -/
def mint (sender to_ : Address) (amount : Word) : Exec Unit := do
  onlyOwner sender
  credit to_ amount
  let supply ← supply
  let sum ← add supply amount
  setSupply sum

/-- `transferOwnership` of OpenZeppelin -/
def transferOwnership (sender newOwner : Address) : Exec Unit := do
  onlyOwner sender
  require (newOwner ≠ 0) "Ownable: new owner is the zero address"
  setOwner newOwner

/-- `renounceOwnership` of OpenZeppelin -/
def renounceOwnership (sender : Address) : Exec Unit := do
  onlyOwner sender
  setOwner 0

/-- The calls that change the storage. -/
inductive Call where
  | transfer (to_ : Address) (value : Word)
  | transferFrom (from_ to_ : Address) (value : Word)
  | approve (spender : Address) (value : Word)
  | burn (to_ : Address) (amount : Word)
  | mint (to_ : Address) (amount : Word)
  | transferOwnership (newOwner : Address)
  | renounceOwnership
  deriving DecidableEq, Repr

/-- The functions of the contract. -/
def receive (sender : Address) : Call → Exec Unit
  | .transfer to_ value => transfer sender to_ value
  | .transferFrom from_ to_ value => transferFrom sender from_ to_ value
  | .approve spender value => approve sender spender value
  | .burn to_ amount => burn sender to_ amount
  | .mint to_ amount => mint sender to_ amount
  | .transferOwnership newOwner => transferOwnership sender newOwner
  | .renounceOwnership => renounceOwnership sender

/-- The token after a call; if the call reverts, its effects are taken back. -/
def perform (t : Token) (call : Address × Call) : Token :=
  match receive call.1 call.2 t with
  | .ok _ t' => t'
  | .error _ _ => t

/-- The token with a balance raised. -/
def credited (t : Token) (account : Address) (value : Word) : Token :=
  { t with balances := update t.balances account (t.balances account + value) }

/-- The token with a balance lowered. -/
def debited (t : Token) (account : Address) (value : Word) : Token :=
  { t with balances := update t.balances account (t.balances account - value) }

/-- What all accounts hold together. -/
def held (t : Token) : Nat := total fun a => (t.balances a).toNat

end Token

section Primitives

variable {t t' : Token} {u : Unit} {account : Address} {value : Word} {a b r : Word}

private theorem require_eq_ok {p : Prop} [Decidable p] {text : String} :
    Exec.require p text t = .ok u t' ↔ p ∧ t' = t := by
  rw [Exec.require, ite_throw_eq_ok, pure_eq_ok]
  simp

private theorem add_eq_ok :
    Exec.add a b t = .ok r t' ↔ a.toNat + b.toNat < 2 ^ 256 ∧ r = a + b ∧ t' = t := by
  rw [Exec.add, ite_throw_eq_ok, pure_eq_ok]

private theorem sub_eq_ok : Exec.sub a b t = .ok r t' ↔ b ≤ a ∧ r = a - b ∧ t' = t := by
  rw [Exec.sub, ite_throw_eq_ok, pure_eq_ok]

private theorem credit_eq_ok : Exec.credit account value t = .ok u t' ↔
    (t.balances account).toNat + value.toNat < 2 ^ 256 ∧ t' = t.credited account value := by
  have hread : Exec.balance account t = .ok (t.balances account) t := rfl
  rw [Exec.credit, bind_of_ok hread, bind_eq_ok]
  constructor
  · rintro ⟨sum, t₁, hadd, hset⟩
    obtain ⟨hfits, rfl, rfl⟩ := add_eq_ok.mp hadd
    exact ⟨hfits, (modifyGet_eq_ok.mp hset).2⟩
  · rintro ⟨hfits, rfl⟩
    exact ⟨_, t, add_eq_ok.mpr ⟨hfits, rfl, rfl⟩, rfl⟩

private theorem debit_eq_ok : Exec.debit account value t = .ok u t' ↔
    value ≤ t.balances account ∧ t' = t.debited account value := by
  have hread : Exec.balance account t = .ok (t.balances account) t := rfl
  rw [Exec.debit, bind_of_ok hread, bind_eq_ok]
  constructor
  · rintro ⟨rest, t₁, hsub, hset⟩
    obtain ⟨hcovers, rfl, rfl⟩ := sub_eq_ok.mp hsub
    exact ⟨hcovers, (modifyGet_eq_ok.mp hset).2⟩
  · rintro ⟨hcovers, rfl⟩
    exact ⟨_, t, sub_eq_ok.mpr ⟨hcovers, rfl, rfl⟩, rfl⟩

end Primitives

namespace Token

variable {t t' : Token} {u : Unit} {sender from_ to_ account : Address} {value amount : Word}
  {call : Call}

private theorem total_update (t : Token) (account : Address) (value : Word) :
    total (fun a => (update t.balances account value a).toNat) +
      (t.balances account).toNat = t.held + value.toNat := by
  have hchange := total_add_of_eq_off (a := account) (f := fun a => (t.balances a).toNat)
    (g := fun a => (update t.balances account value a).toNat) fun a ha => by
      rw [update_of_ne ha]
  rw [update_self] at hchange
  exact hchange

private theorem held_credited (h : (t.balances account).toNat + value.toNat < 2 ^ 256) :
    (t.credited account value).held = t.held + value.toNat := by
  have hchange := t.total_update account (t.balances account + value)
  rw [toNat_add_of_lt h] at hchange
  change total (fun a => (update t.balances account _ a).toNat) = _
  omega

private theorem held_debited (h : value ≤ t.balances account) :
    (t.debited account value).held + value.toNat = t.held := by
  have hle : value.toNat ≤ (t.balances account).toNat := le_def.mp h
  have hchange := t.total_update account (t.balances account - value)
  rw [toNat_sub_of_le h] at hchange
  change total (fun a => (update t.balances account _ a).toNat) + _ = _
  omega

private theorem onlyOwner_eq_ok : onlyOwner sender t = .ok u t' ↔ t.owner = sender ∧ t' = t := by
  have hread : Exec.owner t = .ok t.owner t := rfl
  rw [onlyOwner, bind_of_ok hread, require_eq_ok]

/-- A successful `transfer`. -/
theorem transfer_ok (h : transfer sender to_ value t = .ok u t') : value ≤ t.balances sender ∧
      (((t.debited sender value).balances to_).toNat + value.toNat < 2 ^ 256) ∧
      t' = (t.debited sender value).credited to_ value := by
  have hread : Exec.balance sender t = .ok (t.balances sender) t := rfl
  rw [transfer, bind_of_ok hread] at h
  obtain ⟨_, t₁, hrequire, hmoves⟩ := bind_eq_ok.mp h
  obtain ⟨-, rfl⟩ := require_eq_ok.mp hrequire
  obtain ⟨_, t₂, hdebit, hcredit⟩ := bind_eq_ok.mp hmoves
  obtain ⟨hcovers, rfl⟩ := debit_eq_ok.mp hdebit
  exact ⟨hcovers, credit_eq_ok.mp hcredit⟩

/-- A successful `transferFrom`, up to the allowances. -/
theorem transferFrom_ok (h : transferFrom sender from_ to_ value t = .ok u t') :
    value ≤ t.allowed from_ sender ∧ (t.balances to_).toNat + value.toNat < 2 ^ 256 ∧
      value ≤ (t.credited to_ value).balances from_ ∧
      t'.owner = t.owner ∧ t'.totalSupply = t.totalSupply ∧
      t'.balances = ((t.credited to_ value).debited from_ value).balances := by
  have hallowed : Exec.allowance from_ sender t = .ok (t.allowed from_ sender) t := rfl
  have hread : Exec.balance from_ t = .ok (t.balances from_) t := rfl
  rw [transferFrom, bind_of_ok hallowed, bind_of_ok hread] at h
  obtain ⟨_, t₁, hrequire, hmoves⟩ := bind_eq_ok.mp h
  obtain ⟨⟨-, hspends⟩, rfl⟩ := require_eq_ok.mp hrequire
  obtain ⟨_, t₂, hcredit, hrest⟩ := bind_eq_ok.mp hmoves
  obtain ⟨hfits, rfl⟩ := credit_eq_ok.mp hcredit
  obtain ⟨_, t₃, hdebit, hspend⟩ := bind_eq_ok.mp hrest
  obtain ⟨hcovers, rfl⟩ := debit_eq_ok.mp hdebit
  refine ⟨hspends, hfits, hcovers, ?_⟩
  split at hspend
  · obtain ⟨allowed, t₄, hread, hstore⟩ := bind_eq_ok.mp hspend
    obtain ⟨-, rfl⟩ := modifyGet_eq_ok.mp hread
    obtain ⟨rest, t₅, hsub, hset⟩ := bind_eq_ok.mp hstore
    obtain ⟨-, -, rfl⟩ := sub_eq_ok.mp hsub
    obtain ⟨-, rfl⟩ := modifyGet_eq_ok.mp hset
    exact ⟨rfl, rfl, rfl⟩
  · obtain ⟨-, rfl⟩ := pure_eq_ok.mp hspend
    exact ⟨rfl, rfl, rfl⟩

/-- A successful `burn`. -/
theorem burn_ok (h : burn sender to_ amount t = .ok u t') :
    t.owner = sender ∧ amount ≤ t.balances to_ ∧ amount ≤ t.totalSupply ∧
      t' = { t.debited to_ amount with totalSupply := t.totalSupply - amount } := by
  obtain ⟨_, t₀, howner, hburn⟩ := bind_eq_ok.mp h
  obtain ⟨hsender, rfl⟩ := onlyOwner_eq_ok.mp howner
  obtain ⟨balance, t₁, hread, hrest⟩ := bind_eq_ok.mp hburn
  obtain ⟨rfl, rfl⟩ := modifyGet_eq_ok.mp hread
  obtain ⟨_, t₂, hrequire, hmoves⟩ := bind_eq_ok.mp hrest
  obtain ⟨-, rfl⟩ := require_eq_ok.mp hrequire
  obtain ⟨_, t₃, hdebit, hsupply⟩ := bind_eq_ok.mp hmoves
  obtain ⟨hcovers, rfl⟩ := debit_eq_ok.mp hdebit
  obtain ⟨supply, t₄, hread, hstore⟩ := bind_eq_ok.mp hsupply
  obtain ⟨rfl, rfl⟩ := modifyGet_eq_ok.mp hread
  obtain ⟨rest, t₅, hsub, hset⟩ := bind_eq_ok.mp hstore
  obtain ⟨hle, rfl, rfl⟩ := sub_eq_ok.mp hsub
  exact ⟨hsender, hcovers, hle, (modifyGet_eq_ok.mp hset).2⟩

/-- A successful `mint`. -/
theorem mint_ok (h : mint sender to_ amount t = .ok u t') :
    t.owner = sender ∧ (t.balances to_).toNat + amount.toNat < 2 ^ 256 ∧
      t.totalSupply.toNat + amount.toNat < 2 ^ 256 ∧
      t' = { t.credited to_ amount with totalSupply := t.totalSupply + amount } := by
  obtain ⟨_, t₀, howner, hmint⟩ := bind_eq_ok.mp h
  obtain ⟨hsender, rfl⟩ := onlyOwner_eq_ok.mp howner
  obtain ⟨_, t₂, hcredit, hsupply⟩ := bind_eq_ok.mp hmint
  obtain ⟨hfits, rfl⟩ := credit_eq_ok.mp hcredit
  obtain ⟨supply, t₃, hread, hstore⟩ := bind_eq_ok.mp hsupply
  obtain ⟨rfl, rfl⟩ := modifyGet_eq_ok.mp hread
  obtain ⟨sum, t₄, hadd, hset⟩ := bind_eq_ok.mp hstore
  obtain ⟨hlt, rfl, rfl⟩ := add_eq_ok.mp hadd
  exact ⟨hsender, hfits, hlt, (modifyGet_eq_ok.mp hset).2⟩

/-- The supply is what all accounts hold together. -/
def Backed (t : Token) : Prop := t.totalSupply.toNat = t.held

private theorem Backed.balance_le (h : t.Backed) (a : Address) : t.balances a ≤ t.totalSupply := by
  rw [le_def, h]
  exact le_total (fun a => (t.balances a).toNat) a

/-- Every call that returns keeps the supply backed. -/
theorem Backed.receive (h : t.Backed) (hcall : Token.receive sender call t = .ok u t') :
    t'.Backed := by
  unfold Backed at h ⊢
  cases call with
  | transfer to_ value =>
    obtain ⟨hcovers, hfits, rfl⟩ := transfer_ok hcall
    have hdebit := held_debited hcovers
    rw [held_credited hfits]
    exact h.trans hdebit.symm
  | transferFrom from_ to_ value =>
    obtain ⟨-, hfits, hcovers, -, hsupply, hbalances⟩ := transferFrom_ok hcall
    have hdebit := held_debited hcovers
    rw [held_credited hfits] at hdebit
    rw [hsupply, held, hbalances, h]
    exact (Nat.add_right_cancel hdebit).symm
  | approve spender value =>
    obtain ⟨-, rfl⟩ := modifyGet_eq_ok.mp hcall
    exact h
  | burn to_ amount =>
    obtain ⟨-, hcovers, hle, rfl⟩ := burn_ok hcall
    have hdebit := held_debited hcovers
    have hnat : amount.toNat ≤ t.totalSupply.toNat := le_def.mp hle
    change (t.totalSupply - amount).toNat = (t.debited to_ amount).held
    rw [toNat_sub_of_le hle]
    omega
  | mint to_ amount =>
    obtain ⟨-, hfits, hlt, rfl⟩ := mint_ok hcall
    change (t.totalSupply + amount).toNat = (t.credited to_ amount).held
    rw [toNat_add_of_lt hlt, held_credited hfits, h]
  | transferOwnership newOwner =>
    obtain ⟨_, t₁, howner, hrest⟩ := bind_eq_ok.mp hcall
    obtain ⟨-, rfl⟩ := onlyOwner_eq_ok.mp howner
    obtain ⟨_, t₂, hrequire, hset⟩ := bind_eq_ok.mp hrest
    obtain ⟨-, rfl⟩ := require_eq_ok.mp hrequire
    obtain ⟨-, rfl⟩ := modifyGet_eq_ok.mp hset
    exact h
  | renounceOwnership =>
    obtain ⟨_, t₁, howner, hset⟩ := bind_eq_ok.mp hcall
    obtain ⟨-, rfl⟩ := onlyOwner_eq_ok.mp howner
    obtain ⟨-, rfl⟩ := modifyGet_eq_ok.mp hset
    exact h

/-- Only the owner changes the supply or the ownership. -/
theorem unchanged_of_receive (hcall : Token.receive sender call t = .ok u t')
    (hsender : sender ≠ t.owner) : t'.owner = t.owner ∧ t'.totalSupply = t.totalSupply := by
  cases call with
  | transfer to_ value =>
    obtain ⟨-, -, rfl⟩ := transfer_ok hcall
    exact ⟨rfl, rfl⟩
  | transferFrom from_ to_ value =>
    obtain ⟨-, -, -, howner, hsupply, -⟩ := transferFrom_ok hcall
    exact ⟨howner, hsupply⟩
  | approve spender value =>
    obtain ⟨-, rfl⟩ := modifyGet_eq_ok.mp hcall
    exact ⟨rfl, rfl⟩
  | burn to_ amount => exact absurd (burn_ok hcall).1.symm hsender
  | mint to_ amount => exact absurd (mint_ok hcall).1.symm hsender
  | transferOwnership _ | renounceOwnership =>
    obtain ⟨_, t₁, howner, -⟩ := bind_eq_ok.mp hcall
    exact absurd (onlyOwner_eq_ok.mp howner).1.symm hsender

private theorem perform_of_error {e : Revert} (h : Token.receive sender call t = .error e t') :
    t.perform (sender, call) = t := by
  rw [perform, h]

private theorem Backed.perform (h : t.Backed) (call : Address × Call) :
    (t.perform call).Backed := by
  cases hrun : Token.receive call.1 call.2 t with
  | ok u t' =>
    rw [Token.perform, hrun]
    exact h.receive hrun
  | error e t' =>
    rw [perform_of_error hrun]
    exact h

private theorem Backed.deployed (owner : Address) : (Token.deployed owner).Backed := total_zero.symm

/-- The token after a sequence of calls. -/
def performAll (t : Token) (calls : List (Address × Call)) : Token := calls.foldl Token.perform t

private theorem Backed.performAll (h : t.Backed) (calls : List (Address × Call)) :
    (t.performAll calls).Backed := by
  induction calls generalizing t with
  | nil => exact h
  | cons call calls ih => exact ih (h.perform call)

/-- Whatever calls are made of a new token, its supply is the sum of all balances and bounds each of
them, and a call that reverts changes nothing. -/
theorem supply_of_calls (owner : Address) (calls : List (Address × Call)) :
    let t := (deployed owner).performAll calls
    t.totalSupply.toNat = total (fun a => (t.balances a).toNat) ∧
      (∀ a, t.balances a ≤ t.totalSupply) ∧
      ∀ sender call e t', Token.receive sender call t = .error e t' →
        t.perform (sender, call) = t := by
  intro t
  have hbacked : t.Backed := (Backed.deployed owner).performAll calls
  exact ⟨hbacked, hbacked.balance_le, fun sender call e t' h => perform_of_error h⟩

end Token

end CloakBridge.Tenet
