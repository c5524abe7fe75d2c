import CloakBridge.Core.Run
import CloakBridge.Models.Tenet.Layers

/-!
# Solvency of the token bridge

Both layers and the payloads between them, with any accounts calling the contracts and
relayers that deliver a payload at most once. What `Tenet` holds of a token has to cover
the supply on the second layer, the withdrawals in flight and, for the sake of the steps
to come, the deposits in flight. Anybody may call `mint` and `withdraw`; the bridge stays
solvent where such a call is covered by what `Tenet` holds beyond its obligations.
-/

namespace CloakBridge.Tenet

open Function

open Service (Address Revert)

variable {σ : Type}

/-- Where the contracts are, and the code of the tokens of the first layer. -/
structure Deployment (σ : Type) where
  erc20 : Address → Erc20 σ
  tenet : Address
  tenetL2 : Address

/-- Both layers. -/
structure Bridge (σ : Type) where
  l1 : TenetL1 σ
  l2 : TenetL2

/-- What may happen. Nobody acts in the name of the contracts themselves: `Tenet` only calls tokens,
and `Tenet_L2` only mints and burns. -/
inductive Action (σ : Type) where
  | registerToken (sender token : Address)
  | deposit (sender token : Address) (amount : Word)
  /-- Somebody calls `withdraw` of the first layer. -/
  | withdraw (token user : Address) (amount : Word)
  /-- Others use a token of the first layer; they cannot lower what `Tenet` holds, as it grants no
  allowance. -/
  | useToken (token : Address) (s : σ)
  | escrow (sender token created : Address)
  /-- Somebody calls `mint` of the second layer. -/
  | mint (token to_ : Address) (amount : Word)
  /-- `withdraw` of the second layer -/
  | redeem (sender token : Address) (amount : Word)
  | callContract (sender address : Address) (call : Token.Call)
  /-- A relayer delivers a payload of the first layer. -/
  | deliverMint (index : Nat)
  /-- A relayer delivers a payload of the second layer. -/
  | deliverWithdraw (index : Nat)

/-- The state after a call, unless it reverts. -/
def committed {S : Type} (x : EStateM Revert S Unit) (s : S) : Option S :=
  match x s with
  | .ok _ s' => some s'
  | .error _ _ => none

variable {sender : Address} {amount : Word} {u : Unit}

private theorem ok_of_committed {S : Type} {x : EStateM Revert S Unit} {s s' : S}
    (h : committed x s = some s') : x s = .ok () s' := by
  unfold committed at h
  split at h
  next u s₁ hx =>
    cases h
    exact hx
  next => cases h

/-- What `Tenet` holds of a token. -/
def Deployment.held (d : Deployment σ) (l : TenetL1 σ) (token : Address) : Nat :=
  ((d.erc20 token).balanceOf d.tenet (l.tokens token)).elim 0 BitVec.toNat

/-- The amount of a token in a list of payloads. -/
def owed (token : Address) (payloads : List Payload) : Nat :=
  (payloads.map fun p => if p.token = token then p.amount.toNat else 0).sum

namespace Bridge

/-- The supply and all that is in flight. -/
def obligations (b : Bridge σ) (token : Address) : Nat :=
  b.l2.supply token + owed token b.l2.dispatched + owed token b.l1.dispatched

/-- What `Tenet` holds covers the supply and the withdrawals that were not executed yet. -/
def Solvent (d : Deployment σ) (b : Bridge σ) : Prop :=
  ∀ token, b.l1.tokenRegistered token = true →
    b.l2.supply token + owed token b.l2.dispatched ≤ d.held b.l1 token

end Bridge

variable (d : Deployment σ)

def step (b : Bridge σ) : Action σ → Option (Bridge σ)
  | .registerToken sender token =>
    (committed (TenetL1.registerToken sender token) b.l1).map fun l => { b with l1 := l }
  | .deposit sender token amount =>
    if sender = d.tenet then none
    else (committed (TenetL1.deposit d.erc20 d.tenet sender token amount) b.l1).map fun l =>
      { b with l1 := l }
  | .withdraw token user amount =>
    (committed (TenetL1.withdraw d.erc20 d.tenet token user amount) b.l1).map fun l =>
      { b with l1 := l }
  | .useToken token s =>
    if d.held b.l1 token ≤ d.held (b.l1.withToken token s) token then
      some { b with l1 := b.l1.withToken token s }
    else none
  | .escrow sender token created =>
    (committed (TenetL2.escrow d.tenetL2 sender token created) b.l2).map fun l => { b with l2 := l }
  | .mint token to_ amount =>
    (committed (TenetL2.mint d.tenetL2 token to_ amount) b.l2).map fun l => { b with l2 := l }
  | .redeem sender token amount =>
    (committed (TenetL2.withdraw d.tenetL2 sender token amount) b.l2).map fun l =>
      { b with l2 := l }
  | .callContract sender address call =>
    if sender = d.tenetL2 then none
    else (committed (TenetL2.callContract address (Token.receive sender call)) b.l2).map fun l =>
      { b with l2 := l }
  | .deliverMint index => do
    let p ← b.l1.dispatched[index]?
    let l ← committed (TenetL2.mint d.tenetL2 p.token p.user p.amount) b.l2
    some ⟨{ b.l1 with dispatched := b.l1.dispatched.eraseIdx index }, l⟩
  | .deliverWithdraw index => do
    let p ← b.l2.dispatched[index]?
    let l ← committed (TenetL1.withdraw d.erc20 d.tenet p.token p.user p.amount) b.l1
    some ⟨l, { b.l2 with dispatched := b.l2.dispatched.eraseIdx index }⟩

/-- What others than the relayers mint or withdraw is covered by what `Tenet` holds beyond its
obligations. -/
def Covered (b : Bridge σ) : Action σ → Prop
  | .mint token _ amount => b.obligations token + amount.toNat ≤ d.held b.l1 token
  | .withdraw token user amount =>
    user ≠ d.tenet → b.obligations token + amount.toNat ≤ d.held b.l1 token
  | _ => True

instance (b : Bridge σ) : (a : Action σ) → Decidable (Covered d b a)
  | .mint _ _ _ => inferInstanceAs (Decidable (_ ≤ _))
  | .withdraw _ user _ => inferInstanceAs (Decidable (user ≠ d.tenet → _ ≤ _))
  | .registerToken _ _ | .deposit _ _ _ | .useToken _ _ | .escrow _ _ _ | .redeem _ _ _
  | .callContract _ _ _ | .deliverMint _ | .deliverWithdraw _ => isTrue trivial

/-! ### Amounts -/

section Amounts

variable {d} {token token' : Address} {l : TenetL1 σ} {s : σ}

@[simp] theorem owed_nil : owed token [] = 0 := rfl

@[simp] theorem owed_append (payloads : List Payload) (p : Payload) : owed token (payloads ++ [p]) =
      owed token payloads + if p.token = token then p.amount.toNat else 0 := by
  simp [owed]

private theorem owed_eraseIdx (token : Address) {payloads : List Payload} {index : Nat}
    {p : Payload}
    (h : payloads[index]? = some p) :
    (if p.token = token then p.amount.toNat else 0) + owed token (payloads.eraseIdx index) =
      owed token payloads := by
  obtain ⟨hindex, rfl⟩ := List.getElem?_eq_some_iff.mp h
  have hsum := List.add_sum_eraseIdx
    (l := payloads.map fun p => if p.token = token then p.amount.toNat else 0) (i := index)
    (by simpa using hindex)
  rw [List.getElem_map, List.eraseIdx_map] at hsum
  exact hsum fun amount _ => AddCommute.all _ amount

/-- A transfer changes what `Tenet` holds by what it sends and receives. -/
theorem held_of_moved {recipient : Address}
    (h : (d.erc20 token).Moved sender recipient amount (l.tokens token) s) :
    d.held (l.withToken token s) token + (if d.tenet = sender then amount.toNat else 0) =
      d.held l token + (if d.tenet = recipient then amount.toNat else 0) := by
  obtain ⟨before, after, hbefore, hafter, hmoved⟩ := h d.tenet
  simpa [Deployment.held, TenetL1.withToken, hbefore, hafter] using hmoved

private theorem held_of_ne (h : token' ≠ token) :
    d.held (l.withToken token s) token' = d.held l token' := by
  simp [Deployment.held, TenetL1.withToken, h]

end Amounts

/-! ### The supply of the second layer -/

namespace TenetL2

/-- Every token contract belongs to `Tenet_L2`, and every escrowed token has one of its own. -/
structure Sound (this : Address) (l : TenetL2) : Prop where
  owned : ∀ address t, l.contracts address = some t → t.owner = this
  linked : ∀ token, l.tokens token ≠ 0 → l.contracts (l.tokens token) ≠ none
  distinct : ∀ token token', l.tokens token ≠ 0 → l.tokens token = l.tokens token' → token = token'

variable {this : Address} {l : TenetL2} {token token' : Address} {t : Token} {address : Address}
  {l' : TenetL2}

private theorem supply_of_contract (hne : l.tokens token ≠ 0)
    (h : l.contracts (l.tokens token) = some t) : l.supply token = t.totalSupply.toNat := by
  rw [supply, if_neg hne, h]
  rfl

private theorem supply_withContract (hne : l.tokens token ≠ 0) :
    (l.withContract (l.tokens token) t).supply token = t.totalSupply.toNat := by
  refine supply_of_contract hne ?_
  simp [withContract]

private theorem supply_withContract_of_ne (h : l.tokens token' ≠ address) :
    (l.withContract address t).supply token' = l.supply token' := by
  simp [supply, withContract, h]

private theorem Sound.tokens_ne (h : l.Sound this) (hne : l.tokens token ≠ 0)
    (hother : token' ≠ token) :
    l.tokens token' ≠ l.tokens token :=
  fun heq => hother (h.distinct token token' hne heq.symm).symm

private theorem Sound.withContract (h : l.Sound this) (howner : t.owner = this) :
    (l.withContract address t).Sound this := by
  refine ⟨?_, ?_, h.distinct⟩
  · intro a t' ht'
    by_cases ha : a = address
    · simp only [TenetL2.withContract, ha, update_self, Option.some.injEq] at ht'
      rw [← ht', howner]
    · simp only [TenetL2.withContract, update_of_ne ha] at ht'
      exact h.owned a t' ht'
  · intro token hne
    by_cases ha : l.tokens token = address
    · simp [TenetL2.withContract, ha]
    · simpa [TenetL2.withContract, ha] using h.linked token hne

/-- A new token has no supply, and its contract is nobody else's. -/
theorem Sound.escrow {created : Address} (h : l.Sound this)
    (hescrow : TenetL2.escrow this sender token created l = .ok u l') :
    l'.Sound this ∧ l'.dispatched = l.dispatched ∧
      ∀ token', l'.supply token' = l.supply token' := by
  obtain ⟨hunused, hcreated, hnone, rfl⟩ := escrow_ok hescrow
  have hfree : ∀ token', l.tokens token' ≠ created := by
    rintro token' rfl
    exact h.linked token' hcreated hnone
  refine ⟨⟨?_, ?_, ?_⟩, rfl, ?_⟩
  · intro address t ht
    by_cases ha : address = created
    · simp only [ha, update_self, Option.some.injEq] at ht
      rw [← ht]
      rfl
    · simp only [update_of_ne ha] at ht
      exact h.owned address t ht
  · intro token' hne
    by_cases htoken : token' = token
    · simp [htoken]
    · simp only [update_of_ne htoken] at hne ⊢
      rw [update_of_ne (hfree token')]
      exact h.linked token' hne
  · intro token₁ token₂ hne heq
    by_cases h₁ : token₁ = token <;> by_cases h₂ : token₂ = token
    · rw [h₁, h₂]
    · simp only [h₁, update_self, update_of_ne h₂] at heq
      exact absurd heq.symm (hfree token₂)
    · simp only [h₂, update_self, update_of_ne h₁] at heq
      exact absurd heq (hfree token₁)
    · simp only [update_of_ne h₁, update_of_ne h₂] at hne heq
      exact h.distinct token₁ token₂ hne heq
  · intro token'
    by_cases htoken : token' = token
    · simp [supply, htoken, hunused, Token.deployed]
    · simp [supply, update_of_ne htoken, hfree token']

/-- `mint` raises the supply of its token. -/
theorem Sound.mint {to_ : Address} (h : l.Sound this)
    (hmint : TenetL2.mint this token to_ amount l = .ok u l') :
    l'.Sound this ∧ l'.dispatched = l.dispatched ∧ ∀ token', l'.supply token' =
      l.supply token' + if token = token' then amount.toNat else 0 := by
  obtain ⟨hne, t, t', ht, howner, hsupply, rfl⟩ := mint_ok hmint
  refine ⟨h.withContract (howner.trans (h.owned _ t ht)), rfl, fun token' => ?_⟩
  by_cases htoken : token = token'
  · subst htoken
    rw [if_pos rfl, supply_withContract hne, supply_of_contract hne ht, hsupply]
  · rw [if_neg htoken, supply_withContract_of_ne (h.tokens_ne hne (Ne.symm htoken)), Nat.add_zero]

/-- `withdraw` turns supply into a payload. -/
theorem Sound.withdraw (h : l.Sound this)
    (hwithdraw : TenetL2.withdraw this sender token amount l = .ok u l') : l'.Sound this ∧ ∀ token',
      l'.supply token' + owed token' l'.dispatched =
        l.supply token' + owed token' l.dispatched := by
  obtain ⟨hne, t, t', ht, howner, hsupply, rfl⟩ := withdraw_ok hwithdraw
  have hsound : (l.withContract (l.tokens token) t').Sound this :=
    h.withContract (howner.trans (h.owned _ t ht))
  refine ⟨⟨hsound.owned, hsound.linked, hsound.distinct⟩, fun token' => ?_⟩
  change (l.withContract (l.tokens token) t').supply token' + _ = _
  rw [owed_append]
  by_cases htoken : token = token'
  · subst htoken
    rw [if_pos rfl, supply_withContract hne, supply_of_contract hne ht]
    dsimp only
    omega
  · rw [if_neg htoken, supply_withContract_of_ne (h.tokens_ne hne (Ne.symm htoken)), Nat.add_zero]

/-- The calls of others change no supply. -/
theorem Sound.callContract {call : Token.Call} (h : l.Sound this) (hsender : sender ≠ this)
    (hcall : TenetL2.callContract address (Token.receive sender call) l = .ok u l') :
    l'.Sound this ∧ l'.dispatched = l.dispatched ∧
      ∀ token', l'.supply token' = l.supply token' := by
  obtain ⟨t, t', ht, hreceive, rfl⟩ := callContract_ok hcall
  have howner := h.owned address t ht
  obtain ⟨hsame, hsupply⟩ := Token.unchanged_of_receive hreceive (by rwa [howner])
  refine ⟨h.withContract (hsame.trans howner), rfl, fun token' => ?_⟩
  by_cases htoken : l.tokens token' = address
  · subst htoken
    by_cases hne : l.tokens token' = 0
    · simp [supply, TenetL2.withContract, hne]
    · rw [supply_withContract hne, supply_of_contract hne ht, hsupply]
  · exact supply_withContract_of_ne htoken

end TenetL2

/-! ### Runs -/

namespace Bridge

/-- What `Tenet` holds covers its obligations, and the second layer is sound. -/
structure Sound (d : Deployment σ) (b : Bridge σ) : Prop where
  l2 : b.l2.Sound d.tenetL2
  covered : ∀ token, b.obligations token ≤ d.held b.l1 token

variable {d} {b b' : Bridge σ} {a : Action σ}

private theorem Sound.solvent (h : b.Sound d) : b.Solvent d :=
  fun token _ => (Nat.le_add_right _ _).trans (h.covered token)

private theorem Sound.deployed (owner ownerL2 : Address) (tokens : Address → σ) :
    Sound d ⟨.deployed owner tokens, .deployed ownerL2⟩ := by
  refine ⟨⟨?_, ?_, ?_⟩, ?_⟩
  · intro address t ht
    cases ht
  · intro token hne
    exact absurd rfl hne
  · intro token token' hne
    exact absurd rfl hne
  · intro token
    simp [obligations, TenetL2.supply, TenetL2.deployed, TenetL1.deployed]

/-- A withdrawal lowers what `Tenet` holds by at most the amount, and not at all if it goes to
`Tenet`. -/
theorem held_of_withdraw (hstandard : ∀ token, (d.erc20 token).Standard) {token user : Address}
    {l l' : TenetL1 σ} (h : TenetL1.withdraw d.erc20 d.tenet token user amount l = .ok u l') :
    l'.dispatched = l.dispatched ∧
      d.held l' token + (if user = d.tenet then 0 else amount.toNat) = d.held l token ∧
      ∀ token', token' ≠ token → d.held l' token' = d.held l token' := by
  obtain ⟨data, s, htransfer, haccepted, rfl⟩ := TenetL1.withdraw_ok _ _ h
  refine ⟨rfl, ?_, fun token' hother => held_of_ne hother⟩
  have hmoved := held_of_moved ((hstandard token).transfer htransfer haccepted)
  rw [if_pos rfl] at hmoved
  by_cases huser : user = d.tenet
  · rw [if_pos huser.symm] at hmoved
    rw [if_pos huser]
    exact Nat.add_right_cancel hmoved
  · rw [if_neg (Ne.symm huser)] at hmoved
    rw [if_neg huser]
    exact hmoved

section Actions

variable {token user sender to_ : Address} {amount : Word} {l : TenetL1 σ} {l₂ : TenetL2} {u : Unit}
  {p : Payload} {index : Nat} (hstandard : ∀ token, (d.erc20 token).Standard) (h : b.Sound d)

include h

/-- What the second layer does to its tokens and payloads is covered as long as their sum stays. -/
theorem Sound.changeL2 (hl : l₂.Sound d.tenetL2)
    (hsum : ∀ token, l₂.supply token + owed token l₂.dispatched =
      b.l2.supply token + owed token b.l2.dispatched) : Sound d { b with l2 := l₂ } := by
  refine ⟨hl, fun token => ?_⟩
  have hbefore := h.covered token
  unfold obligations at hbefore ⊢
  rw [hsum]
  exact hbefore

/-- What others than the relayers mint has to be covered. -/
theorem Sound.mint (hok : b.obligations token + amount.toNat ≤ d.held b.l1 token)
    (hl : TenetL2.mint d.tenetL2 token to_ amount b.l2 = .ok u l₂) :
    Sound d { b with l2 := l₂ } := by
  obtain ⟨hsound, hdispatched, hsupply⟩ := h.l2.mint hl
  refine ⟨hsound, fun token' => ?_⟩
  have hbefore := h.covered token'
  unfold obligations at hbefore hok ⊢
  dsimp only
  rw [hsupply, hdispatched]
  by_cases htoken : token = token'
  · subst htoken
    rw [if_pos rfl]
    omega
  · rw [if_neg htoken]
    exact hbefore

/-- The relayers mint what has been deposited. -/
theorem Sound.deliverMint (hp : b.l1.dispatched[index]? = some p)
    (hl : TenetL2.mint d.tenetL2 p.token p.user p.amount b.l2 = .ok u l₂) :
    Sound d ⟨{ b.l1 with dispatched := b.l1.dispatched.eraseIdx index }, l₂⟩ := by
  obtain ⟨hsound, hdispatched, hsupply⟩ := h.l2.mint hl
  refine ⟨hsound, fun token' => ?_⟩
  have hbefore := h.covered token'
  have hdelivered := owed_eraseIdx token' hp
  unfold obligations at hbefore ⊢
  dsimp only
  rw [hsupply, hdispatched]
  change _ ≤ d.held b.l1 token'
  omega

include hstandard

/-- A deposit is held and owed. -/
theorem Sound.deposit (hsender : sender ≠ d.tenet)
    (hl : TenetL1.deposit d.erc20 d.tenet sender token amount b.l1 = .ok u l) :
    Sound d { b with l1 := l } := by
  obtain ⟨data, s, htransfer, haccepted, rfl⟩ := TenetL1.deposit_ok _ _ hl
  have hmoved := held_of_moved ((hstandard token).transferFrom htransfer haccepted)
  rw [if_pos rfl, if_neg (Ne.symm hsender)] at hmoved
  refine ⟨h.l2, fun token' => ?_⟩
  have hbefore := h.covered token'
  change b.l2.supply token' + owed token' b.l2.dispatched + owed token' (b.l1.dispatched ++ [⟨token,
    sender, amount⟩]) ≤ d.held (b.l1.withToken token s) token'
  rw [owed_append]
  unfold obligations at hbefore
  by_cases htoken : token = token'
  · subst htoken
    rw [if_pos rfl]
    dsimp only
    omega
  · rw [if_neg htoken, held_of_ne (Ne.symm htoken)]
    exact hbefore

/-- What others than the relayers withdraw has to be covered. -/
theorem Sound.withdraw
    (hok : user ≠ d.tenet → b.obligations token + amount.toNat ≤ d.held b.l1 token)
    (hl : TenetL1.withdraw d.erc20 d.tenet token user amount b.l1 = .ok u l) :
    Sound d { b with l1 := l } := by
  obtain ⟨hdispatched, hheld, hothers⟩ := held_of_withdraw hstandard hl
  refine ⟨h.l2, fun token' => ?_⟩
  have hbefore := h.covered token'
  change b.l2.supply token' + owed token' b.l2.dispatched + owed token' l.dispatched ≤
    d.held l token'
  rw [hdispatched]
  change b.obligations token' ≤ _
  by_cases htoken : token' = token
  · subst htoken
    by_cases huser : user = d.tenet
    · rw [if_pos huser] at hheld
      omega
    · have hsurplus := hok huser
      rw [if_neg huser] at hheld
      omega
  · rw [hothers token' htoken]
    exact hbefore

/-- The relayers withdraw what has been burnt. -/
theorem Sound.deliverWithdraw (hp : b.l2.dispatched[index]? = some p)
    (hl : TenetL1.withdraw d.erc20 d.tenet p.token p.user p.amount b.l1 = .ok u l) :
    Sound d ⟨l, { b.l2 with dispatched := b.l2.dispatched.eraseIdx index }⟩ := by
  obtain ⟨hdispatched, hheld, hothers⟩ := held_of_withdraw hstandard hl
  refine ⟨⟨h.l2.owned, h.l2.linked, h.l2.distinct⟩, fun token' => ?_⟩
  have hbefore := h.covered token'
  have hdelivered := owed_eraseIdx token' hp
  change b.l2.supply token' + owed token' (b.l2.dispatched.eraseIdx index) +
    owed token' l.dispatched ≤ d.held l token'
  unfold obligations at hbefore
  rw [hdispatched]
  by_cases htoken : p.token = token'
  · subst htoken
    rw [if_pos rfl] at hdelivered
    split at hheld <;> omega
  · rw [if_neg htoken] at hdelivered
    rw [hothers token' (Ne.symm htoken)]
    omega

/-- Every covered step keeps the obligations covered. -/
theorem Sound.step (hok : Covered d b a) (hstep : Tenet.step d b a = some b') : b'.Sound d := by
  cases a with
  | registerToken sender token =>
    obtain ⟨l, hl, rfl⟩ := Option.map_eq_some_iff.mp hstep
    obtain rfl := TenetL1.registerToken_ok (ok_of_committed hl)
    exact ⟨h.l2, h.covered⟩
  | deposit sender token amount =>
    obtain ⟨hsender, hrest⟩ := Option.ite_none_left_eq_some.mp hstep
    obtain ⟨l, hl, rfl⟩ := Option.map_eq_some_iff.mp hrest
    exact h.deposit hstandard hsender (ok_of_committed hl)
  | withdraw token user amount =>
    obtain ⟨l, hl, rfl⟩ := Option.map_eq_some_iff.mp hstep
    exact h.withdraw hstandard hok (ok_of_committed hl)
  | useToken token s =>
    obtain ⟨hle, hb⟩ := Option.ite_none_right_eq_some.mp hstep
    cases hb
    refine ⟨h.l2, fun token' => (h.covered token').trans ?_⟩
    by_cases htoken : token' = token
    · rw [htoken]
      exact hle
    · exact (held_of_ne htoken).ge
  | escrow sender token created =>
    obtain ⟨l, hl, rfl⟩ := Option.map_eq_some_iff.mp hstep
    obtain ⟨hsound, hdispatched, hsupply⟩ := h.l2.escrow (ok_of_committed hl)
    exact h.changeL2 hsound fun token' => by rw [hsupply, hdispatched]
  | mint token to_ amount =>
    obtain ⟨l, hl, rfl⟩ := Option.map_eq_some_iff.mp hstep
    exact h.mint hok (ok_of_committed hl)
  | redeem sender token amount =>
    obtain ⟨l, hl, rfl⟩ := Option.map_eq_some_iff.mp hstep
    obtain ⟨hsound, hsum⟩ := h.l2.withdraw (ok_of_committed hl)
    exact h.changeL2 hsound hsum
  | callContract sender address call =>
    obtain ⟨hsender, hrest⟩ := Option.ite_none_left_eq_some.mp hstep
    obtain ⟨l, hl, rfl⟩ := Option.map_eq_some_iff.mp hrest
    obtain ⟨hsound, hdispatched, hsupply⟩ := h.l2.callContract hsender (ok_of_committed hl)
    exact h.changeL2 hsound fun token' => by rw [hsupply, hdispatched]
  | deliverMint index =>
    obtain ⟨p, hp, hrest⟩ := Option.bind_eq_some_iff.mp hstep
    obtain ⟨l, hl, hb⟩ := Option.bind_eq_some_iff.mp hrest
    cases hb
    exact h.deliverMint hp (ok_of_committed hl)
  | deliverWithdraw index =>
    obtain ⟨p, hp, hrest⟩ := Option.bind_eq_some_iff.mp hstep
    obtain ⟨l, hl, hb⟩ := Option.bind_eq_some_iff.mp hrest
    cases hb
    exact h.deliverWithdraw hstandard hp (ok_of_committed hl)

end Actions

end Bridge

/-- In every run of the bridge, whatever is called by whom and however payloads are delivered, what
`Tenet` holds of a registered token covers the supply and the withdrawals in flight, if what others
than the relayers mint or withdraw is covered. -/
theorem solvent_of_reaches (hstandard : ∀ token, (d.erc20 token).Standard)
    (owner ownerL2 : Address) (tokens : Address → σ) (b : Bridge σ)
    (h : Reaches (step d) (Covered d) ⟨.deployed owner tokens, .deployed ownerL2⟩ b) :
    b.Solvent d := by
  have hsound := h.invariant (Bridge.Sound.deployed owner ownerL2 tokens)
    fun _ _ _ hb hok hstep => hb.step hstandard hok hstep
  exact hsound.solvent

/-! ### A token of the second layer on the first -/

namespace Token

/-- `Token` as a token of the first layer; its transfers return no data. -/
def erc20 : Erc20 Token where
  balanceOf account t := some (t.balances account)
  transfer sender recipient amount t :=
    (committed (transfer sender recipient amount) t).map fun t' => (.empty, t')
  transferFrom spender sender recipient amount t :=
    (committed (transferFrom spender sender recipient amount) t).map fun t' => (.empty, t')

variable {t : Token} {account : Address} {value : Word}

private theorem balances_credited (h : (t.balances account).toNat + value.toNat < 2 ^ 256)
    (a : Address) :
    ((t.credited account value).balances a).toNat =
      (t.balances a).toNat + if a = account then value.toNat else 0 := by
  by_cases ha : a = account
  · subst ha
    simp only [credited, update_self, if_true]
    exact BitVec.toNat_add_of_lt h
  · simp [credited, ha]

private theorem balances_debited (h : value ≤ t.balances account) (a : Address) :
    ((t.debited account value).balances a).toNat + (if a = account then value.toNat else 0) =
      (t.balances a).toNat := by
  by_cases ha : a = account
  · subst ha
    simp only [debited, update_self, if_true, BitVec.toNat_sub_of_le h]
    exact Nat.sub_add_cancel (BitVec.le_def.mp h)
  · simp [debited, ha]

/-- `Token` is a standard token, also when sender and recipient are the same. -/
theorem standard_erc20 : erc20.Standard := by
  constructor
  · intro sender recipient amount t data t' h _
    obtain ⟨t₁, ht₁, hpair⟩ := Option.map_eq_some_iff.mp h
    cases hpair
    obtain ⟨hcovers, hfits, rfl⟩ := transfer_ok (ok_of_committed ht₁)
    intro a
    refine ⟨_, _, rfl, rfl, ?_⟩
    have hdebit := balances_debited hcovers a
    rw [balances_credited hfits]
    omega
  · intro spender sender recipient amount t data t' h _
    obtain ⟨t₁, ht₁, hpair⟩ := Option.map_eq_some_iff.mp h
    cases hpair
    obtain ⟨-, hfits, hcovers, -, -, hbalances⟩ := transferFrom_ok (ok_of_committed ht₁)
    intro a
    refine ⟨_, _, rfl, rfl, ?_⟩
    have hdebit := balances_debited hcovers a
    rw [balances_credited hfits] at hdebit
    rw [hbalances, hdebit]

end Token

/-- Every token of the first layer is a `Token`. -/
def sampleDeployment : Deployment Token := ⟨fun _ => Token.erc20, 0x100, 0x200⟩

/-- Account 10 has 7 of every token and lets `Tenet` take them. -/
def sampleTokens (_ : Address) : Token where
  owner := 1
  balances a := if a = 10 then 7 else 0
  totalSupply := 7
  allowed a spender := if a = 10 ∧ spender = 0x100 then 7 else 0

/-- The bridge when it is deployed. -/
def sampleBridge : Bridge Token := ⟨.deployed 1 sampleTokens, .deployed 2⟩

private theorem sample_deposit :
    (performAll (step sampleDeployment) (Covered sampleDeployment) sampleBridge
      [.registerToken 1 0x300, .escrow 2 0x300 0x400, .deposit 10 0x300 5, .deliverMint 0,
        .callContract 10 0x400 (.transfer 11 4), .redeem 11 0x300 3]).map (fun b =>
        (b.l2.supply 0x300, owed 0x300 b.l2.dispatched, sampleDeployment.held b.l1 0x300)) =
      some (2, 3, 5) := by
  decide +kernel

private theorem sample_mint : (performAll (step sampleDeployment) (fun _ _ => True) sampleBridge
      [.registerToken 1 0x300, .escrow 2 0x300 0x400, .mint 0x300 10 5]).map (fun b =>
        (b.l1.tokenRegistered 0x300, b.l2.supply 0x300, sampleDeployment.held b.l1 0x300)) =
      some (true, 5, 0) := by
  decide +kernel

/-- A deposit is minted, transferred and redeemed, and the bridge is solvent. -/
theorem solvent_after_redeem :
    ∃ b, Reaches (step sampleDeployment) (Covered sampleDeployment) sampleBridge b ∧
      b.l2.supply 0x300 = 2 ∧ owed 0x300 b.l2.dispatched = 3 ∧ b.Solvent sampleDeployment := by
  obtain ⟨b, hb, hfacts⟩ := Option.map_eq_some_iff.mp sample_deposit
  obtain ⟨hsupply, hrest⟩ := Prod.mk.inj hfacts
  have hreach := reaches_of_performAll .refl hb
  exact ⟨b, hreach, hsupply, (Prod.mk.inj hrest).1,
    solvent_of_reaches sampleDeployment (fun _ => Token.standard_erc20) 1 2 sampleTokens b hreach⟩

/-- Anybody mints without a deposit. -/
theorem not_solvent_after_mint : (∀ token, (sampleDeployment.erc20 token).Standard) ∧
      ∃ b, Reachable (step sampleDeployment) sampleBridge b ∧ ¬ b.Solvent sampleDeployment := by
  refine ⟨fun _ => Token.standard_erc20, ?_⟩
  obtain ⟨b, hb, hfacts⟩ := Option.map_eq_some_iff.mp sample_mint
  obtain ⟨hregistered, hrest⟩ := Prod.mk.inj hfacts
  obtain ⟨hsupply, hheld⟩ := Prod.mk.inj hrest
  refine ⟨b, reaches_of_performAll .refl hb, fun hsolvent => ?_⟩
  have hcovers := hsolvent 0x300 hregistered
  omega

end CloakBridge.Tenet
