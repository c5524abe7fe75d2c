import CloakBridge.Models.Tenet.Token

/-!
# The contracts of the token bridge

`Tenet` of `tenet_l1.sol` holds the tokens of the first layer, `Tenet_L2` of
`tenet_l2.sol` issues a `Token` for each of them on the second. The tokens of the first
layer are not part of the repository: `Erc20` is what `Tenet` calls of them. The tables of
apps, nodes and rounds and the events that nobody delivers are left out.
-/

namespace CloakBridge.Tenet

open Function

open Service (Address Revert)

/-- The arguments of a dispatched call: `mint` if the first layer emitted it, `withdraw` if the
second did. -/
structure Payload where
  token : Address
  user : Address
  amount : Word
  deriving DecidableEq, Repr

/-- The data that a call to a token returned. -/
inductive Returned where
  | empty
  | bool (b : Bool)
  /-- Data that `abi.decode(data, (bool))` rejects. -/
  | malformed
  deriving DecidableEq, Repr

/-- `data.length == 0 || abi.decode(data, (bool))` -/
def Returned.accepted : Returned → Bool
  | .empty => true
  | .bool b => b
  | .malformed => false

/-- A token of the first layer; a call that reverts has no result. -/
structure Erc20 (σ : Type) where
  balanceOf (account : Address) : σ → Option Word
  transfer (sender recipient : Address) (amount : Word) : σ → Option (Returned × σ)
  transferFrom (spender sender recipient : Address) (amount : Word) : σ → Option (Returned × σ)

namespace Erc20

variable {σ : Type}

/-- Exactly the amount went from the sender to the recipient. -/
def Moved (c : Erc20 σ) (sender recipient : Address) (amount : Word) (s s' : σ) : Prop :=
  ∀ account, ∃ before after, c.balanceOf account s = some before ∧
    c.balanceOf account s' = some after ∧
    after.toNat + (if account = sender then amount.toNat else 0) =
      before.toNat + (if account = recipient then amount.toNat else 0)

/-- A standard token moves exactly the requested amount. -/
structure Standard (c : Erc20 σ) : Prop where
  transfer : ∀ {sender recipient amount s data s'},
    c.transfer sender recipient amount s = some (data, s') → data.accepted = true →
      c.Moved sender recipient amount s s'
  transferFrom : ∀ {spender sender recipient amount s data s'},
    c.transferFrom spender sender recipient amount s = some (data, s') → data.accepted = true →
      c.Moved sender recipient amount s s'

end Erc20

/-- `require(p, text)` -/
def require {S : Type} (p : Prop) [Decidable p] (text : String) : EStateM Revert S Unit :=
  if p then pure () else throw (.reason text)

private theorem require_ok {S : Type} {p : Prop} [Decidable p] {text : String} {s s' : S}
    {u : Unit} :
    require p text s = .ok u s' ↔ p ∧ s' = s := by
  rw [require, ite_throw_eq_ok, pure_eq_ok]
  simp

/-! ### The first layer -/

/-- The storage of `Tenet` and of the tokens around it. -/
structure TenetL1 (σ : Type) where
  /-- `owner` of OpenZeppelin's `Ownable` -/
  owner : Address
  tokenRegistered : Address → Bool
  /-- The token contracts of the layer. -/
  tokens : Address → σ
  /-- The payloads that no relayer has delivered. -/
  dispatched : List Payload

namespace TenetL1

variable {σ : Type}

/-- The constructor; nothing is registered. -/
def deployed (owner : Address) (tokens : Address → σ) : TenetL1 σ where
  owner := owner
  tokenRegistered _ := false
  tokens := tokens
  dispatched := []

/-- `token.call(..)`: the returned data, if the call succeeded -/
def callToken (token : Address) (f : σ → Option (Returned × σ)) :
    EStateM Revert (TenetL1 σ) (Option Returned) :=
  modifyGet fun l => match f (l.tokens token) with
    | none => (none, l)
    | some (data, s) => (some data, { l with tokens := update l.tokens token s })

/-- `require(success && (data.length == 0 || abi.decode(data, (bool))), text)` -/
def requireSuccess (text : String) : Option Returned → EStateM Revert (TenetL1 σ) Unit
  | some .malformed => throw .empty
  | some data => require (data.accepted = true) text
  | none => throw (.reason text)

def isRegistered (token : Address) : EStateM Revert (TenetL1 σ) Bool :=
  modifyGet fun l => (l.tokenRegistered token, l)

/-- `emit Dispatch(payload)` -/
def emit (payload : Payload) : EStateM Revert (TenetL1 σ) Unit :=
  modify fun l => { l with dispatched := l.dispatched ++ [payload] }

variable (erc20 : Address → Erc20 σ) (this : Address)

/-- `deposit` -/
def deposit (sender token : Address) (amount : Word) : EStateM Revert (TenetL1 σ) Unit := do
  let registered ← isRegistered token
  require (registered = true) "Token not registered"
  let reply ← callToken token ((erc20 token).transferFrom this sender this amount)
  requireSuccess "Deposit failed" reply
  emit ⟨token, sender, amount⟩

/-- `balance` -/
def balance (token : Address) : EStateM Revert (TenetL1 σ) Word := fun l =>
  match (erc20 token).balanceOf this (l.tokens token) with
  | some amount => .ok amount l
  | none => .error .empty l

/-- `withdraw`; anybody may call it. -/
def withdraw (token user : Address) (amount : Word) : EStateM Revert (TenetL1 σ) Unit := do
  let registered ← isRegistered token
  require (registered = true) "Token not registered"
  let available ← balance erc20 this token
  require (amount ≤ available) "Token balance lower than the value requested"
  let reply ← callToken token ((erc20 token).transfer this user amount)
  requireSuccess "Withdral failed" reply

/-- `registerToken` -/
def registerToken (sender token : Address) : EStateM Revert (TenetL1 σ) Unit := do
  let l ← get
  require (l.owner = sender) "Ownable: caller is not the owner"
  require (l.tokenRegistered token = false) "Token address already registered"
  set { l with tokenRegistered := update l.tokenRegistered token true }

/-- The layer with the state of a token replaced. -/
def withToken (l : TenetL1 σ) (token : Address) (s : σ) : TenetL1 σ :=
  { l with tokens := update l.tokens token s }

variable {l l' : TenetL1 σ} {u : Unit} {token : Address} {text : String} {sender : Address}
  {amount : Word}

private theorem callToken_ok {f : σ → Option (Returned × σ)}
    (h : (callToken token f >>= requireSuccess text) l = .ok u l') :
    ∃ data s, f (l.tokens token) = some (data, s) ∧ data.accepted = true ∧
      l' = l.withToken token s := by
  obtain ⟨reply, l₁, hcall, hrequire⟩ := bind_eq_ok.mp h
  rw [callToken, modifyGet_eq_ok] at hcall
  cases hf : f (l.tokens token) with
  | none =>
    rw [hf] at hcall
    rw [hcall.1] at hrequire
    cases hrequire
  | some result =>
    obtain ⟨data, s⟩ := result
    rw [hf] at hcall
    obtain ⟨rfl, rfl⟩ := hcall
    refine ⟨data, s, rfl, ?_⟩
    cases data with
    | malformed => cases hrequire
    | empty => exact require_ok.mp hrequire
    | bool b => exact require_ok.mp hrequire

/-- A successful `deposit`. -/
theorem deposit_ok (h : deposit erc20 this sender token amount l = .ok u l') :
    ∃ data s, (erc20 token).transferFrom this sender this amount (l.tokens token) = some (data, s) ∧
      data.accepted = true ∧
      l' =
        { l.withToken token s with dispatched := l.dispatched ++ [⟨token, sender, amount⟩] } := by
  obtain ⟨registered, l₁, hread, hrest⟩ := bind_eq_ok.mp h
  obtain ⟨-, rfl⟩ := modifyGet_eq_ok.mp hread
  obtain ⟨_, l₂, hrequire, hcall⟩ := bind_eq_ok.mp hrest
  obtain ⟨-, rfl⟩ := require_ok.mp hrequire
  rw [← bind_assoc] at hcall
  obtain ⟨_, l₃, hmove, hemit⟩ := bind_eq_ok.mp hcall
  obtain ⟨data, s, hs, haccepted, rfl⟩ := callToken_ok hmove
  exact ⟨data, s, hs, haccepted, (modifyGet_eq_ok.mp hemit).2⟩

/-- A successful `withdraw`. -/
theorem withdraw_ok {user : Address} (h : withdraw erc20 this token user amount l = .ok u l') :
    ∃ data s, (erc20 token).transfer this user amount (l.tokens token) = some (data, s) ∧
      data.accepted = true ∧ l' = l.withToken token s := by
  obtain ⟨registered, l₁, hread, hchecked⟩ := bind_eq_ok.mp h
  obtain ⟨-, rfl⟩ := modifyGet_eq_ok.mp hread
  obtain ⟨_, l₂, hregistered, hrest⟩ := bind_eq_ok.mp hchecked
  obtain ⟨-, rfl⟩ := require_ok.mp hregistered
  obtain ⟨available, l₃, hbalance, hcovered⟩ := bind_eq_ok.mp hrest
  have hsame : l₃ = l₂ := by
    rw [balance] at hbalance
    split at hbalance
    · cases hbalance
      rfl
    · cases hbalance
  subst hsame
  obtain ⟨_, l₄, hrequire, hmove⟩ := bind_eq_ok.mp hcovered
  obtain ⟨-, rfl⟩ := require_ok.mp hrequire
  exact callToken_ok hmove

/-- A successful `registerToken`. -/
theorem registerToken_ok (h : registerToken sender token l = .ok u l') :
    l' = { l with tokenRegistered := update l.tokenRegistered token true } := by
  obtain ⟨l₀, l₁, hget, hrest⟩ := bind_eq_ok.mp h
  cases hget
  obtain ⟨_, l₂, howner, hchecked⟩ := bind_eq_ok.mp hrest
  obtain ⟨-, rfl⟩ := require_ok.mp howner
  obtain ⟨_, l₃, hnew, hset⟩ := bind_eq_ok.mp hchecked
  obtain ⟨-, rfl⟩ := require_ok.mp hnew
  cases hset
  rfl

end TenetL1

/-! ### The second layer -/

/-- The storage of `Tenet_L2` and of the tokens it created. -/
structure TenetL2 where
  /-- `owner` of OpenZeppelin's `Ownable` -/
  owner : Address
  allToken : List Address
  /-- The contract for a token of the first layer, zero if there is none. -/
  tokens : Address → Address
  /-- The token contracts of the layer. -/
  contracts : Address → Option Token
  /-- The payloads that no relayer has delivered. -/
  dispatched : List Payload

namespace TenetL2

/-- The constructor; nothing is escrowed. -/
def deployed (owner : Address) : TenetL2 where
  owner := owner
  allToken := []
  tokens _ := 0
  contracts _ := none
  dispatched := []

/-- A call to a token contract; it reverts if there is none. -/
def callContract (address : Address) (x : Exec Unit) : EStateM Revert TenetL2 Unit := fun l =>
  match l.contracts address with
  | none => .error .empty l
  | some t => match x t with
    | .ok _ t' => .ok () { l with contracts := update l.contracts address (some t') }
    | .error e _ => .error e l

/-- `escrow`; `created` is the address that the chain gives the new contract. -/
def escrow (this sender token created : Address) : EStateM Revert TenetL2 Unit := do
  let l ← get
  require (l.owner = sender) "Ownable: caller is not the owner"
  require (l.tokens token = 0) "token has alread escrow"
  if created ≠ 0 ∧ l.contracts created = none then
    set { l with
      contracts := update l.contracts created (some (Token.deployed this))
      tokens := update l.tokens token created
      allToken := l.allToken ++ [token] }
  else throw .empty

/-- `onlyRegister`, and the contract that is registered -/
def onlyRegister (token : Address) : EStateM Revert TenetL2 Address := do
  let l ← get
  require (l.tokens token ≠ 0) "token has not escrow"
  pure (l.tokens token)

/-- `mint`; anybody may call it. -/
def mint (this token to_ : Address) (amount : Word) : EStateM Revert TenetL2 Unit := do
  let t ← onlyRegister token
  callContract t (Token.mint this to_ amount)

/-- `emit Dispatch(payload)` -/
def emit (payload : Payload) : EStateM Revert TenetL2 Unit :=
  modify fun l => { l with dispatched := l.dispatched ++ [payload] }

/-- `withdraw` -/
def withdraw (this sender token : Address) (amount : Word) : EStateM Revert TenetL2 Unit := do
  let t ← onlyRegister token
  callContract t (Token.burn this sender amount)
  emit ⟨token, sender, amount⟩

/-- `getTokenSupply`, zero where it reverts -/
def supply (l : TenetL2) (token : Address) : Nat :=
  if l.tokens token = 0 then 0
  else ((l.contracts (l.tokens token)).map fun t => t.totalSupply.toNat).getD 0

/-- The layer with a token contract replaced. -/
def withContract (l : TenetL2) (address : Address) (t : Token) : TenetL2 :=
  { l with contracts := update l.contracts address (some t) }

variable {l l' : TenetL2} {u : Unit} {this sender token to_ : Address} {amount : Word}
  {address : Address}

/-- A call that returned has changed its contract only. -/
theorem callContract_ok {x : Exec Unit} (h : callContract address x l = .ok u l') :
    ∃ t t', l.contracts address = some t ∧ x t = .ok () t' ∧ l' = l.withContract address t' := by
  rw [callContract] at h
  cases ht : l.contracts address with
  | none =>
    rw [ht] at h
    cases h
  | some t =>
    simp only [ht] at h
    cases hx : x t with
    | error e t' =>
      simp only [hx] at h
      cases h
    | ok v t' =>
      simp only [hx] at h
      cases h
      exact ⟨t, t', rfl, hx, rfl⟩

private theorem onlyRegister_ok (h : onlyRegister token l = .ok address l') :
    l.tokens token ≠ 0 ∧ address = l.tokens token ∧ l' = l := by
  obtain ⟨l₀, l₁, hget, hrest⟩ := bind_eq_ok.mp h
  cases hget
  obtain ⟨_, l₂, hrequire, hpure⟩ := bind_eq_ok.mp hrest
  obtain ⟨hregistered, rfl⟩ := require_ok.mp hrequire
  obtain ⟨rfl, rfl⟩ := pure_eq_ok.mp hpure
  exact ⟨hregistered, rfl, rfl⟩

/-- A successful `escrow`. -/
theorem escrow_ok {created : Address} (h : escrow this sender token created l = .ok u l') :
    l.tokens token = 0 ∧ created ≠ 0 ∧ l.contracts created = none ∧ l' = { l with
        contracts := update l.contracts created (some (Token.deployed this))
        tokens := update l.tokens token created
        allToken := l.allToken ++ [token] } := by
  obtain ⟨l₀, l₁, hget, hrest⟩ := bind_eq_ok.mp h
  cases hget
  obtain ⟨_, l₂, howner, hchecked⟩ := bind_eq_ok.mp hrest
  obtain ⟨-, rfl⟩ := require_ok.mp howner
  obtain ⟨_, l₃, hnew, hcreate⟩ := bind_eq_ok.mp hchecked
  obtain ⟨hunused, rfl⟩ := require_ok.mp hnew
  obtain ⟨⟨hne, hnone⟩, hset⟩ := ite_throw_eq_ok.mp hcreate
  cases hset
  exact ⟨hunused, hne, hnone, rfl⟩

/-- A successful `mint`. -/
theorem mint_ok (h : mint this token to_ amount l = .ok u l') :
    l.tokens token ≠ 0 ∧ ∃ t t', l.contracts (l.tokens token) = some t ∧
      t'.owner = t.owner ∧ t'.totalSupply.toNat = t.totalSupply.toNat + amount.toNat ∧
      l' = l.withContract (l.tokens token) t' := by
  obtain ⟨address, l₁, hregister, hcall⟩ := bind_eq_ok.mp h
  obtain ⟨hne, rfl, rfl⟩ := onlyRegister_ok hregister
  obtain ⟨t, t', ht, hmint, rfl⟩ := callContract_ok hcall
  obtain ⟨-, -, hfits, hafter⟩ := Token.mint_ok hmint
  refine ⟨hne, t, t', ht, ?_, ?_, rfl⟩
  · rw [hafter]
    rfl
  · rw [hafter]
    exact BitVec.toNat_add_of_lt hfits

/-- A successful `withdraw`. -/
theorem withdraw_ok (h : withdraw this sender token amount l = .ok u l') :
    l.tokens token ≠ 0 ∧ ∃ t t', l.contracts (l.tokens token) = some t ∧
      t'.owner = t.owner ∧ t'.totalSupply.toNat + amount.toNat = t.totalSupply.toNat ∧
      l' = { l.withContract (l.tokens token) t' with
        dispatched := l.dispatched ++ [⟨token, sender, amount⟩] } := by
  obtain ⟨address, l₁, hregister, hrest⟩ := bind_eq_ok.mp h
  obtain ⟨hne, rfl, rfl⟩ := onlyRegister_ok hregister
  obtain ⟨_, l₂, hcall, hemit⟩ := bind_eq_ok.mp hrest
  obtain ⟨t, t', ht, hburn, rfl⟩ := callContract_ok hcall
  obtain ⟨-, -, hle, hafter⟩ := Token.burn_ok hburn
  refine ⟨hne, t, t', ht, ?_, ?_, (modifyGet_eq_ok.mp hemit).2⟩
  · rw [hafter]
    rfl
  · rw [hafter, BitVec.toNat_sub_of_le hle]
    exact Nat.sub_add_cancel (BitVec.le_def.mp hle)

end TenetL2

end CloakBridge.Tenet
