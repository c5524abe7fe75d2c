import CloakBridge.Core.Chunks
import CloakBridge.Core.Effect
import CloakBridge.Models.Evm.HexText
import CloakBridge.Models.Mpt.Generator

/-!
# The layout of states

The states of a policy travel in one vector of texts. A state starts with its place in the
policy; a scalar follows as one text, or as three when it is encrypted, a mapping as the
number of its keys and the words and value of each key.

`visit_states` calls a visitor at the start of each state. No place is checked, and the
cursor is advanced in 64 bits by a number that the vector contains.
-/

namespace CloakBridge.Mpt

open Evm BitVec List

/-- What a structural type says about the layout. -/
inductive Kind where
  | address
  /-- an array, with `get_static_array_size` -/
  | array (size : Nat)
  | mapping (depth : BitVec 64)
  | other
  deriving DecidableEq, Repr

/-- The member `owner` of a state's owner. -/
inductive Owner where
  | all
  | tee
  /-- the key of a mapping, with `var` and `var_pos` -/
  | mapping (var : ByteString) (varPos : Int)
  /-- the state of type address with this name -/
  | identifier (name : ByteString)
  deriving DecidableEq, Repr

/-- How the layout of a state is read from its description, if it can be. -/
class StateJson (J : Type) where
  kind : J → Option Kind
  owner : J → Option Owner

/-- Why a method on states does not return. -/
inductive StateFailure where
  /-- an exception -/
  | thrown
  /-- an element behind the end of a vector -/
  | undefined
  /-- the loop does not end -/
  | endless
  deriving DecidableEq, Repr

/-- An access of a vector that the code does not check. -/
def element {α : Type} (v : List α) (i : Nat) : Except StateFailure α :=
  (v[i]?).elim (.error .undefined) .ok

/-- What the JSON library throws for a description of another shape. -/
def described {α : Type} (x : Option α) : Except StateFailure α := x.elim (.error .thrown) .ok

variable {J : Type} [StateJson J]

/-- What the structural type says. -/
abbrev Params.kind (state : Params J) : Option Kind := StateJson.kind state.structuralType

/-- What the member `owner` says. -/
abbrev Params.ownedBy (state : Params J) : Option Owner := StateJson.owner state.owner

/-- The texts of a value: three when it is encrypted. -/
def factor (encrypted : Bool) (owner : Owner) : BitVec 64 :=
  if encrypted ∧ owner ≠ .all then 3 else 1

/-- `is_encryped && state.owner["owner"] != "all" ? 3 : 1` -/
def Params.factor (state : Params J) (encrypted : Bool) : Except StateFailure (BitVec 64) := do
  if encrypted then
    let owner ← described state.ownedBy
    return Mpt.factor true owner
  else return 1

/-- Where the cursor of `visit_states` goes from a state at `i`. -/
def Params.advance (state : Params J) (v : List ByteString) (encrypted : Bool) (i : BitVec 64) :
    Except StateFailure (BitVec 64) := do
  let factor ← state.factor encrypted
  match ← described state.kind with
  | .mapping depth =>
    let count ← element v (i + 1).toNat
    return i + (2 + toUint64 count * (factor + depth))
  | _ => return i + (1 + factor)

/-- What a round of `visit_states` does behind the call of the visitor. -/
def advance (states : List (Params J)) (v : List ByteString) (encrypted : Bool) (i : BitVec 64) :
    Except StateFailure (BitVec 64) := do
  let text ← element v i.toNat
  let state ← element states (toUint64 text).toNat
  state.advance v encrypted i

/-- A computation without state inside one with state. -/
def liftExcept {ε σ α : Type} : Except ε α → EStateM ε σ α
  | .ok a => pure a
  | .error e => throw e

/-- The loop of `visit_states` from `i` on, for at most `fuel` calls of the visitor. -/
def visitFrom {σ : Type} (states : List (Params J)) (v : List ByteString) (encrypted : Bool)
    (f : Nat → Nat → EStateM StateFailure σ Unit) : Nat → BitVec 64 → EStateM StateFailure σ Unit
  | 0, i => if i.toNat < v.length then throw .endless else pure ()
  | fuel + 1, i =>
    match v[i.toNat]? with
    | none => pure ()
    | some text => do
      f (toUint64 text).toNat i.toNat
      let j ← liftExcept (advance states v encrypted i)
      visitFrom states v encrypted f fuel j

/-- `visit_states`. A walk that ends visits no position twice, so the loop does not end when
more calls are made than there are elements. -/
def visitStates {σ : Type} (states : List (Params J)) (v : List ByteString) (encrypted : Bool)
    (f : Nat → Nat → EStateM StateFailure σ Unit) : EStateM StateFailure σ Unit :=
  visitFrom states v encrypted f v.length 0

/-- `Function::get_keys_size` -/
def Function.getKeysSize {J : Type} (function : Function J) (name : ByteString) : BitVec 64 :=
  (function.read ++ function.mutate).foldl
    (fun sum x => if x.name = name then sum + BitVec.ofNat 64 x.keys.length else sum) 0

/-- The texts of one state, added up in `get_states_return_len`. -/
def addReturnLen (function : Function J) (encrypted : Bool) (res : BitVec 64) (state : Params J) :
    Except StateFailure (BitVec 64) := do
  let owner ← described state.ownedBy
  let factor := factor encrypted owner
  match ← described state.kind with
  | .mapping depth => return res + (2 + (depth + factor) * function.getKeysSize state.name)
  | _ => return res + (factor + 1)

/-- `get_states_return_len` -/
def getStatesReturnLen (states : List (Params J)) (function : Function J) (encrypted : Bool) :
    Except StateFailure (BitVec 64) :=
  states.foldlM (addReturnLen function encrypted) 0

/-! ### Vectors of any shape -/

/-- A visitor that notes its calls. -/
def note (id i : Nat) : EStateM StateFailure (List (Nat × Nat)) Unit :=
  modify fun calls => calls ++ [(id, i)]

section

variable (states : List (Params J)) (encrypted : Bool)

/-- The texts from a position on are those of states of the policy: a scalar with the texts of its
value, a mapping with the number of its keys and as many keys and values, until `stop`. The last
state may lack some of its texts, and no number of keys leads beyond 64 bits. -/
inductive StatesUntil (stop : Nat → List ByteString → Prop) : Nat → List ByteString → Prop
  | stop {i : Nat} {rest : List ByteString} (h : stop i rest) : StatesUntil stop i rest
  | scalar {i : Nat} {place : ByteString} {rest : List ByteString} {state : Params J}
      {factor : BitVec 64} {kind : Kind} (hstate : states[(toUint64 place).toNat]? = some state)
      (hfactor : state.factor encrypted = .ok factor)
      (hkind : state.kind = some kind)
      (hscalar : ∀ depth, kind ≠ .mapping depth)
      (hrest : StatesUntil stop (i + (factor.toNat + 1)) (rest.drop factor.toNat)) :
    StatesUntil stop i (place :: rest)
  | mapping {i : Nat} {place count : ByteString} {rest : List ByteString} {state : Params J}
      {factor depth : BitVec 64} (hstate : states[(toUint64 place).toNat]? = some state)
      (hfactor : state.factor encrypted = .ok factor)
      (hkind : state.kind = some (.mapping depth))
      (hlt : i + (2 + (depth.toNat + factor.toNat) * (toUint64 count).toNat) < 2 ^ 64)
      (hrest : StatesUntil stop (i + (2 + (depth.toNat + factor.toNat) * (toUint64 count).toNat))
        (rest.drop ((depth.toNat + factor.toNat) * (toUint64 count).toNat))) :
    StatesUntil stop i (place :: count :: rest)

/-- The vector has come to its end, or the description of the next state is no such thing. -/
def Ends (_ : Nat) (rest : List ByteString) : Prop :=
  rest = [] ∨ ∃ place rest' state, rest = place :: rest' ∧
    states[(toUint64 place).toNat]? = some state ∧
      ∀ factor kind, state.factor encrypted = .ok factor →
        state.kind ≠ some kind

/-- A mapping whose number of keys leads beyond 64 bits. -/
def Overflows (i : Nat) (rest : List ByteString) : Prop :=
  ∃ place count rest' state factor depth, rest = place :: count :: rest' ∧
    states[(toUint64 place).toNat]? = some state ∧ state.factor encrypted = .ok factor ∧
      state.kind = some (.mapping depth) ∧
        2 ^ 64 ≤ i + (2 + (depth.toNat + factor.toNat) * (toUint64 count).toNat)

end

/-- The traversal returns or throws, having called its visitor no more often than there are
elements. -/
def SafelyTraversed (states : List (Params J)) (v : List ByteString) (encrypted : Bool) : Prop :=
  ∃ calls, calls.length ≤ v.length ∧
    (visitStates states v encrypted note [] = .ok () calls ∨
      visitStates states v encrypted note [] = .error .thrown calls)

variable {states : List (Params J)} {v : List ByteString} {encrypted : Bool} {α σ : Type}
  {e : StateFailure} {state : Params J} {text count : ByteString} {depth : BitVec 64} {kind : Kind}
  {x j fuel : Nat} {rest : List ByteString} {owner : Owner} {order : List Nat}
  {segments : List (List ByteString)}

/-- An element is read if it is there. -/
theorem element_eq_ok {l : List α} {i : Nat} {a : α} : element l i = .ok a ↔ l[i]? = some a := by
  rw [element]
  cases l[i]? <;> simp

private theorem element_eq_error {l : List α} {i : Nat} :
    element l i = .error e ↔ l[i]? = none ∧ e = .undefined := by
  rw [element]
  cases l[i]? <;> simp [eq_comm]

/-- A description is read if it has the shape. -/
theorem described_eq_ok {x : Option α} {a : α} : described x = .ok a ↔ x = some a := by
  cases x <;> simp [described]

private theorem described_eq_error {x : Option α} :
    described x = .error e ↔ x = none ∧ e = .thrown := by
  cases x <;> simp [described, eq_comm]

private theorem Params.factor_eq_error (h : state.factor encrypted = .error e) : e = .thrown := by
  cases encrypted with
  | false => cases h
  | true =>
    rcases except_bind_eq_error.mp h with h | ⟨owner, -, h⟩
    · exact (described_eq_error.mp h).2
    · cases h

/-- The cursor is advanced by the state whose place it finds. -/
theorem advance_of_state {i : BitVec 64} (htext : v[i.toNat]? = some text)
    (hstate : states[(toUint64 text).toNat]? = some state) :
    advance states v encrypted i = state.advance v encrypted i := by
  rw [advance, element_eq_ok.mpr htext]
  change (element states (toUint64 text).toNat >>= _) = _
  rw [element_eq_ok.mpr hstate]
  rfl

private theorem advance_undefined {i : BitVec 64} (htext : v[i.toNat]? = some text)
    (hstate : states[(toUint64 text).toNat]? = none) :
    advance states v encrypted i = .error .undefined := by
  rw [advance, element_eq_ok.mpr htext]
  change (element states (toUint64 text).toNat >>= _) = _
  rw [element_eq_error.mpr ⟨hstate, rfl⟩]
  rfl

/-- A mapping is left by its number of keys. -/
theorem Params.advance_mapping {i factor : BitVec 64}
    (hfactor : state.factor encrypted = .ok factor) (hkind : state.kind = some (.mapping depth))
    (hcount : v[(i + 1).toNat]? = some count) :
    state.advance v encrypted i = .ok (i + (2 + toUint64 count * (factor + depth))) := by
  rw [Params.advance, hfactor]
  change (described state.kind >>= _) = _
  rw [described_eq_ok.mpr hkind]
  change (element v (i + 1).toNat >>= _) = _
  rw [element_eq_ok.mpr hcount]
  rfl

private theorem Params.advance_scalar {i factor : BitVec 64}
    (hfactor : state.factor encrypted = .ok factor)
    (hkind : state.kind = some kind) (hscalar : ∀ depth, kind ≠ .mapping depth) :
    state.advance v encrypted i = .ok (i + (1 + factor)) := by
  rw [Params.advance, hfactor]
  change (described state.kind >>= _) = _
  rw [described_eq_ok.mpr hkind]
  cases kind with
  | mapping depth => exact absurd rfl (hscalar depth)
  | address | array _ | other => rfl

private theorem Params.advance_thrown {i : BitVec 64}
    (h : ∀ factor kind, state.factor encrypted = .ok factor → state.kind ≠ some kind) :
    state.advance v encrypted i = .error .thrown := by
  rw [Params.advance]
  cases hfactor : state.factor encrypted with
  | error e =>
    rw [state.factor_eq_error hfactor]
    rfl
  | ok factor =>
    change (described state.kind >>= _) = _
    rw [Option.eq_none_iff_forall_ne_some.mpr fun kind => h factor kind hfactor]
    rfl

private theorem Params.advance_undefined {i factor : BitVec 64}
    (hfactor : state.factor encrypted = .ok factor) (hkind : state.kind = some (.mapping depth))
    (hcount : v[(i + 1).toNat]? = none) : state.advance v encrypted i = .error .undefined := by
  rw [Params.advance, hfactor]
  change (described state.kind >>= _) = _
  rw [described_eq_ok.mpr hkind]
  change (element v (i + 1).toNat >>= _) = _
  rw [element_eq_error.mpr ⟨hcount, rfl⟩]
  rfl

private theorem Params.factor_le {factor : BitVec 64} (h : state.factor encrypted = .ok factor) :
    factor.toNat ≤ 3 := by
  cases encrypted with
  | false =>
    cases h
    decide
  | true =>
    obtain ⟨owner, -, hpure⟩ := except_bind_eq_ok.mp h
    cases hpure
    rw [Mpt.factor]
    split <;> decide

private theorem visitFrom_note_succ {i : BitVec 64} (fuel : Nat) (calls : List (Nat × Nat))
    (htext : v[i.toNat]? = some text) : visitFrom states v encrypted note (fuel + 1) i calls =
      match advance states v encrypted i with
      | .ok j =>
        visitFrom states v encrypted note fuel j (calls ++ [((toUint64 text).toNat, i.toNat)])
      | .error e => .error e (calls ++ [((toUint64 text).toNat, i.toNat)]) := by
  simp only [visitFrom, htext]
  cases hadvance : advance states v encrypted i with
  | ok _ | error _ => rfl

private theorem visitFrom_of_le {f : Nat → Nat → EStateM StateFailure σ Unit} {i : BitVec 64}
    (fuel : Nat)
    (s : σ) (h : v.length ≤ i.toNat) : visitFrom states v encrypted f fuel i s = .ok () s := by
  cases fuel with
  | zero =>
    rw [visitFrom, if_neg (Nat.not_lt.mpr h)]
    rfl
  | succ fuel =>
    simp only [visitFrom, List.getElem?_eq_none h]
    rfl

theorem toNat_ofNat_of_lt (h : x < 2 ^ 64) : (BitVec.ofNat 64 x).toNat = x := by
  rw [toNat_ofNat, Nat.mod_eq_of_lt h]

theorem toNat_ofNat_add_one (h : x + 1 < 2 ^ 64) : (BitVec.ofNat 64 x + 1).toNat = x + 1 := by
  change (BitVec.ofNat 64 x + BitVec.ofNat 64 1).toNat = _
  rw [← ofNat_add, toNat_ofNat_of_lt h]

private theorem ofNat_add_scalar (x : Nat) (factor : BitVec 64) :
    BitVec.ofNat 64 (x + (factor.toNat + 1)) = BitVec.ofNat 64 x + (1 + factor) := by
  rw [ofNat_add, ofNat_add, ofNat_toNat, setWidth_eq]
  change BitVec.ofNat 64 x + (factor + (1 : BitVec 64)) = _
  ring

private theorem ofNat_add_mapping (x : Nat) (factor depth count : BitVec 64) :
    BitVec.ofNat 64 (x + (2 + (depth.toNat + factor.toNat) * count.toNat)) =
      BitVec.ofNat 64 x + (2 + count * (factor + depth)) := by
  simp only [ofNat_add, ofNat_mul, ofNat_toNat, setWidth_eq]
  change BitVec.ofNat 64 x + ((2 : BitVec 64) + (depth + factor) * count) = _
  ring

/-- The text at a position is the first of those from there on. -/
private theorem getElem?_of_drop {i : Nat} (h : v.drop i = text :: rest)
    (hlength : v.length < 2 ^ 63) :
    v[(BitVec.ofNat 64 i).toNat]? = some text ∧ v.drop (i + 1) = rest ∧ i < v.length := by
  have hlt : i < v.length := by
    by_contra hge
    rw [drop_eq_nil_of_le (Nat.le_of_not_lt hge)] at h
    cases h
  have hget : (v.drop i)[0]? = v[i]? := List.getElem?_drop
  rw [h] at hget
  rw [toNat_ofNat_of_lt (by omega), ← drop_drop, h]
  exact ⟨hget.symm, rfl, hlt⟩

private theorem drop_of_drop {i n : Nat} (h : v.drop i = rest) (hj : i + n = j) :
    v.drop j = rest.drop n := by
  rw [← hj, ← drop_drop, h]

/-- The number of keys of a mapping at a position is the second text from there on. -/
private theorem getElem?_count {i : Nat} (h : v.drop (i + 1) = count :: rest)
    (hlength : v.length < 2 ^ 63) :
    v[(BitVec.ofNat 64 i + 1).toNat]? = some count ∧ v.drop (i + 2) = rest := by
  obtain ⟨hcount, hrest, hlt⟩ := getElem?_of_drop h hlength
  rw [toNat_ofNat_of_lt (by omega), ← toNat_ofNat_add_one (by omega)] at hcount
  exact ⟨hcount, hrest⟩

/-- The traversal comes to an end within so many calls. -/
def Finishes (states : List (Params J)) (v : List ByteString) (encrypted : Bool)
    (fuel i bound : Nat) : Prop :=
  ∀ calls, ∃ calls', calls'.length ≤ calls.length + bound ∧
    (visitFrom states v encrypted note fuel (BitVec.ofNat 64 i) calls = .ok () calls' ∨
      visitFrom states v encrypted note fuel (BitVec.ofNat 64 i) calls = .error .thrown calls')

private theorem Finishes.of_round {i bound : Nat}
    (htext : v[(BitVec.ofNat 64 i).toNat]? = some text)
    (hstate : states[(toUint64 text).toNat]? = some state)
    (hround : state.advance v encrypted (BitVec.ofNat 64 i) = .ok (BitVec.ofNat 64 j))
    (h : Finishes states v encrypted fuel j bound) {bound' : Nat} (hbound : bound < bound') :
    Finishes states v encrypted (fuel + 1) i bound' := by
  intro calls
  rw [visitFrom_note_succ fuel calls htext, advance_of_state htext hstate, hround]
  obtain ⟨calls', hle, hrun⟩ := h (calls ++ [((toUint64 text).toNat, (BitVec.ofNat 64 i).toNat)])
  rw [length_append, length_singleton] at hle
  exact ⟨calls', by omega, hrun⟩

/-- Texts of states up to the end are visited once each, in order. -/
theorem finishes_of_statesUntil {i : Nat}
    (h : StatesUntil states encrypted (Ends states encrypted) i rest) (hrest : v.drop i = rest)
    (hi : i < 2 ^ 64) (hlength : v.length < 2 ^ 63) (hfuel : rest.length ≤ fuel) :
    Finishes states v encrypted fuel i rest.length := by
  induction h generalizing fuel with
  | @stop i rest hends =>
    intro calls
    rcases hends with rfl | ⟨place, rest', state, rfl, hstate, hnone⟩
    · refine ⟨calls, Nat.le_add_right _ _, .inl (visitFrom_of_le fuel calls ?_)⟩
      rw [toNat_ofNat_of_lt hi]
      exact drop_eq_nil_iff.mp hrest
    · obtain ⟨hplace, -⟩ := getElem?_of_drop hrest hlength
      obtain ⟨fuel, rfl⟩ := Nat.exists_eq_add_one_of_ne_zero (Nat.ne_zero_of_lt hfuel)
      rw [visitFrom_note_succ fuel calls hplace, advance_of_state hplace hstate,
        Params.advance_thrown hnone]
      exact ⟨_, by simp, .inr rfl⟩
  | @scalar i place rest state factor kind hstate hfactor hkind hscalar _ ih =>
    obtain ⟨hplace, hbehind, hlt⟩ := getElem?_of_drop hrest hlength
    obtain ⟨fuel, rfl⟩ := Nat.exists_eq_add_one_of_ne_zero (Nat.ne_zero_of_lt hfuel)
    have hround := Params.advance_scalar (v := v) (i := BitVec.ofNat 64 i) hfactor hkind hscalar
    have hle := Params.factor_le hfactor
    have hdropped := length_drop (i := factor.toNat) (l := rest)
    rw [← ofNat_add_scalar] at hround
    rw [length_cons] at hfuel ⊢
    have hbehind := @ih fuel (drop_of_drop hbehind (by omega)) (by omega) (by omega)
    exact hbehind.of_round hplace hstate hround (by omega)
  | @mapping i place count rest state factor depth hstate hfactor hkind hlt _ ih =>
    obtain ⟨hplace, hbehind, -⟩ := getElem?_of_drop hrest hlength
    obtain ⟨hcount, hbehind⟩ := getElem?_count hbehind hlength
    obtain ⟨fuel, rfl⟩ := Nat.exists_eq_add_one_of_ne_zero (Nat.ne_zero_of_lt hfuel)
    have hround := Params.advance_mapping (v := v) hfactor hkind hcount
    have hdropped := length_drop (i := (depth.toNat + factor.toNat) * (toUint64 count).toNat)
      (l := rest)
    rw [← ofNat_add_mapping] at hround
    rw [length_cons, length_cons] at hfuel ⊢
    have hbehind := @ih fuel (drop_of_drop hbehind (by omega)) hlt (by omega)
    exact hbehind.of_round hplace hstate hround (by omega)

/-- What stands at a place of the vector: no state of the policy or no number of keys, the end, a
number of keys that leads beyond 64 bits, or a state behind which the cursor goes on. -/
theorem round_cases {i : Nat} {place : ByteString} {rest : List ByteString}
    (hrest : v.drop i = place :: rest) (hlength : v.length < 2 ^ 63) :
    advance states v encrypted (BitVec.ofNat 64 i) = .error .undefined ∨
      Ends states encrypted i (v.drop i) ∨ Overflows states encrypted i (v.drop i) ∨
        ∃ j < 2 ^ 64, advance states v encrypted (BitVec.ofNat 64 i) = .ok (BitVec.ofNat 64 j) ∧
          ∀ stop, StatesUntil states encrypted stop j (v.drop j) →
            StatesUntil states encrypted stop i (v.drop i) := by
  obtain ⟨hplace, hbehind, hlt⟩ := getElem?_of_drop hrest hlength
  rw [hrest]
  cases hstate : states[(toUint64 place).toNat]? with
  | none => exact .inl (advance_undefined hplace hstate)
  | some state =>
    rw [advance_of_state hplace hstate]
    by_cases hdescribed : ∃ factor kind, state.factor encrypted = .ok factor ∧
      state.kind = some kind
    swap
    · exact .inr (.inl (.inr ⟨place, rest, state, rfl, hstate, fun factor kind hfactor hkind =>
        hdescribed ⟨factor, kind, hfactor, hkind⟩⟩))
    obtain ⟨factor, kind, hfactor, hkind⟩ := hdescribed
    by_cases hscalar : ∀ depth, kind ≠ .mapping depth
    · have hle := Params.factor_le hfactor
      refine .inr (.inr (.inr ⟨i + (factor.toNat + 1), by omega, ?_, fun stop hstop => ?_⟩))
      · rw [Params.advance_scalar hfactor hkind hscalar, ofNat_add_scalar]
      · rw [drop_of_drop (n := factor.toNat) hbehind (by omega)] at hstop
        exact .scalar hstate hfactor hkind hscalar hstop
    obtain ⟨depth, rfl⟩ := not_forall_not.mp hscalar
    cases rest with
    | nil =>
      refine .inl (Params.advance_undefined hfactor hkind ?_)
      rw [toNat_ofNat_add_one (by omega)]
      exact List.getElem?_eq_none (drop_eq_nil_iff.mp hbehind)
    | cons count rest =>
      obtain ⟨hcount, hbehind⟩ := getElem?_count hbehind hlength
      by_cases hfits : i + (2 + (depth.toNat + factor.toNat) * (toUint64 count).toNat) < 2 ^ 64
      · refine .inr (.inr (.inr ⟨_, hfits, ?_, fun stop hstop => ?_⟩))
        · rw [Params.advance_mapping hfactor hkind hcount, ofNat_add_mapping]
        · rw [drop_of_drop hbehind (Nat.add_assoc i 2 _)] at hstop
          exact .mapping hstate hfactor hkind hfits hstop
      · exact .inr (.inr (.inl ⟨place, count, rest, state, factor, depth, rfl, hstate, hfactor,
          hkind, Nat.le_of_not_lt hfits⟩))

/-- A traversal that returns or throws has come to an end, or to a number of keys that leads
beyond 64 bits. -/
theorem statesUntil_of_visitFrom {i : Nat} {calls calls' : List (Nat × Nat)} (hi : i < 2 ^ 64)
    (hlength : v.length < 2 ^ 63)
    (h : visitFrom states v encrypted note fuel (BitVec.ofNat 64 i) calls = .ok () calls' ∨
      visitFrom states v encrypted note fuel (BitVec.ofNat 64 i) calls = .error .thrown calls') :
    StatesUntil states encrypted (Ends states encrypted) i (v.drop i) ∨
      StatesUntil states encrypted (Overflows states encrypted) i (v.drop i) := by
  induction fuel generalizing i calls with
  | zero =>
    rw [visitFrom, toNat_ofNat_of_lt hi] at h
    split at h
    · rcases h with h | h <;> cases h
    next hge => exact .inl (.stop (.inl (drop_eq_nil_of_le (Nat.le_of_not_lt hge))))
  | succ fuel ih =>
    cases hrest : v.drop i with
    | nil => exact .inl (.stop (.inl rfl))
    | cons place rest =>
      obtain ⟨hplace, -⟩ := getElem?_of_drop hrest hlength
      rw [visitFrom_note_succ fuel calls hplace] at h
      rw [← hrest]
      rcases @round_cases _ _ states v encrypted _ _ _ hrest hlength with
        hundefined | hends | hover | ⟨j, hj, hround, hback⟩
      · rw [hundefined] at h
        rcases h with h | h <;> cases h
      · exact .inl (.stop hends)
      · exact .inr (.stop hover)
      · rw [hround] at h
        exact (ih hj h).imp (hback _) (hback _)

/-- Descriptions of states as the layout reads them. -/
inductive Description where
  | kind (kind : Kind)
  | owner (owner : Owner)
  deriving DecidableEq

instance : StateJson Description where
  kind
    | .kind kind => some kind
    | .owner _ => none
  owner
    | .owner owner => some owner
    | .kind _ => none

/-- A state with the given kind and owner. -/
def describe (name : ByteString) (kind : Kind) (owner : Owner) : Params Description :=
  ⟨name, .kind kind, .owner owner, none⟩

/-- The traversal of a vector is safe if the vector has the texts of states of the policy: every
place is that of a state, and the place of a mapping is followed by a number of keys that fits.
Where no number of keys leads beyond 64 bits, it is safe in no other case. -/
theorem safelyTraversed_iff (states : List (Params J)) (v : List ByteString) (encrypted : Bool)
    (hlength : v.length < 2 ^ 63) : (StatesUntil states encrypted (Ends states encrypted) 0 v →
      SafelyTraversed states v encrypted) ∧
    (¬StatesUntil states encrypted (Overflows states encrypted) 0 v →
      (SafelyTraversed states v encrypted ↔
        StatesUntil states encrypted (Ends states encrypted) 0 v)) := by
  have hsafe : StatesUntil states encrypted (Ends states encrypted) 0 v →
      SafelyTraversed states v encrypted := by
    intro h
    obtain ⟨calls, hle, hrun⟩ :=
      finishes_of_statesUntil h rfl (by decide) hlength (Nat.le_refl _) []
    exact ⟨calls, by simpa using hle, hrun⟩
  refine ⟨hsafe, fun hfits => ⟨?_, hsafe⟩⟩
  rintro ⟨calls, -, hrun⟩
  exact (statesUntil_of_visitFrom (i := 0) (by decide) hlength hrun).resolve_right hfits

/-- A number owned by the TEE, and a mapping of everyone. -/
def twoStates : List (Params Description) :=
  [describe [0] .other .tee, describe [1] (.mapping 1) .all]

/-- The mapping with one key, and the number, of whose three texts two are missing. -/
theorem safelyTraversed_two :
    SafelyTraversed twoStates [[49], [49], [50], [51], [48], []] true := by
  refine (safelyTraversed_iff _ _ _ (by decide)).1 ?_
  have hnumber : twoStates[0]? = some (describe [0] .other .tee) := rfl
  have hmapping : twoStates[1]? = some (describe [1] (.mapping 1) .all) := rfl
  refine .mapping hmapping rfl rfl (by decide) ?_
  refine .scalar hnumber rfl rfl (by simp) ?_
  exact .stop (.inl rfl)

/-- The number of keys with which the cursor at a mapping of two texts for each key stays. -/
def stayingCount : ByteString :=
  Abicoder.toHexString [0x7f, 0xff, 0xff, 0xff, 0xff, 0xff, 0xff, 0xff]

/-- A mapping with `2 ^ 63 - 1` keys of two texts each leaves the cursor where it is. -/
theorem not_safelyTraversed_of_stayingCount :
    ¬SafelyTraversed [describe [] (.mapping 1) .all] [Abicoder.toHexString [0], stayingCount]
      true := by
  have hrun : visitStates [describe [] (.mapping 1) .all]
      [Abicoder.toHexString [0], stayingCount] true note [] = .error .endless [(0, 0), (0, 0)] := by
    rfl
  rintro ⟨calls, -, h⟩
  rw [hrun] at h
  rcases h with h | h <;> cases h

/-! ### Vectors of the layout -/

/-- The texts of one state: its place in the policy, then its value, or the number of its keys
and each key with its value. -/
inductive IsSegment (function : Function J) (encrypted : Bool) (id : Nat) (state : Params J) :
    List ByteString → Prop
  | scalar {kind : Kind} {owner : Owner} {place : ByteString} {value : List ByteString}
    (hkind : state.kind = some kind)
    (hscalar : ∀ depth, kind ≠ .mapping depth)
    (howner : state.ownedBy = some owner) (hplace : (toUint64 place).toNat = id)
    (hvalue : value.length = (factor encrypted owner).toNat) :
    IsSegment function encrypted id state (place :: value)
  | mapping {depth : BitVec 64} {owner : Owner} {place count : ByteString}
    {entries : List (List ByteString × List ByteString)}
    (hkind : state.kind = some (.mapping depth))
    (howner : state.ownedBy = some owner) (hplace : (toUint64 place).toNat = id)
    (hcount : toUint64 count = function.getKeysSize state.name)
    (hentries : entries.length = (function.getKeysSize state.name).toNat)
    (hkeys : ∀ entry ∈ entries, entry.1.length = depth.toNat)
    (hvalues : ∀ entry ∈ entries, entry.2.length = (factor encrypted owner).toNat) :
    IsSegment function encrypted id state
      (place :: count :: entries.flatMap fun entry => entry.1 ++ entry.2)

section

variable (states : List (Params J)) (function : Function J) (encrypted : Bool) (order : List Nat)
  (segments : List (List ByteString))

/-- The segments are those of states of the policy, in the given order. -/
abbrev AreSegments : Prop :=
  List.Forall₂ (fun id segment => ∃ state, states[id]? = some state ∧
    IsSegment function encrypted id state segment) order segments

/-- Every state of the policy has one of the segments. -/
structure Laid : Prop where
  perm : order.Perm (List.range states.length)
  segment : AreSegments states function encrypted order segments

end

/-- Where the segments start when the first one starts at `i`. -/
def starts : Nat → List (List ByteString) → List Nat
  | _, [] => []
  | i, segment :: segments => i :: starts (i + segment.length) segments

/-- The number of texts of a state. -/
def Params.size (state : Params J) (function : Function J) (encrypted : Bool) : Nat :=
  match state.ownedBy, state.kind with
  | some owner, some (.mapping depth) =>
    2 + (depth.toNat + (Mpt.factor encrypted owner).toNat) *
      (function.getKeysSize state.name).toNat
  | some owner, some _ => (Mpt.factor encrypted owner).toNat + 1
  | _, _ => 0

variable {function : Function J} {id : Nat} {state : Params J} {segment : List ByteString}

/-- The factor of a state is that of its owner. -/
theorem Params.factor_of_owner (h : state.ownedBy = some owner) :
    state.factor encrypted = .ok (Mpt.factor encrypted owner) := by
  cases encrypted with
  | false => simp [Params.factor, Mpt.factor, pure, Except.pure]
  | true => simp [Params.factor, h, described, pure, Except.pure, bind, Except.bind]

private theorem size_scalar (hkind : state.kind = some kind)
    (hscalar : ∀ depth, kind ≠ .mapping depth) (howner : state.ownedBy = some owner) :
    state.size function encrypted = (factor encrypted owner).toNat + 1 := by
  rw [Params.size, howner, hkind]
  cases kind with
  | mapping depth => exact absurd rfl (hscalar depth)
  | address | array _ | other => rfl

private theorem size_mapping (hkind : state.kind = some (.mapping depth))
    (howner : state.ownedBy = some owner) :
    state.size function encrypted = 2 + (depth.toNat + (factor encrypted owner).toNat) *
      (function.getKeysSize state.name).toNat := by
  rw [Params.size, howner, hkind]

private theorem IsSegment.length_eq (h : IsSegment function encrypted id state segment) :
    segment.length = state.size function encrypted := by
  cases h with
  | scalar hkind hscalar howner hplace hvalue =>
    rw [length_cons, hvalue, size_scalar hkind hscalar howner]
  | @mapping depth owner place count entries hkind howner hplace hcount hentries hkeys hvalues =>
    have hlength : ∀ entry ∈ entries,
        (entry.1 ++ entry.2).length = depth.toNat + (factor encrypted owner).toNat := by
      intro entry hentry
      rw [length_append, hkeys entry hentry, hvalues entry hentry]
    rw [length_cons, length_cons, length_flatMap_of_forall hlength, hentries,
      size_mapping hkind howner]
    omega

/-- A segment has at least the place of its state. -/
theorem IsSegment.length_pos (h : IsSegment function encrypted id state segment) :
    0 < segment.length := by
  cases h <;> simp

/-- The first text of a segment is the place of its state. -/
theorem IsSegment.exists_place (h : IsSegment function encrypted id state segment) :
    ∃ place rest, segment = place :: rest ∧ (toUint64 place).toNat = id := by
  cases h with
  | scalar hkind hscalar howner hplace hvalue => exact ⟨_, _, rfl, hplace⟩
  | mapping hkind howner hplace hcount hentries hkeys hvalues => exact ⟨_, _, rfl, hplace⟩

/-- From the start of a segment the cursor goes to its end. -/
theorem IsSegment.advance_eq (h : IsSegment function encrypted id state segment)
    {start : List ByteString} (hlt : (start ++ segment ++ rest).length < 2 ^ 64) :
    state.advance (start ++ segment ++ rest) encrypted (BitVec.ofNat 64 start.length) =
      .ok (BitVec.ofNat 64 (start.length + segment.length)) := by
  have hsize := h.length_eq
  cases h with
  | scalar hkind hscalar howner hplace hvalue =>
    rw [Params.advance_scalar (Params.factor_of_owner howner) hkind hscalar, hsize,
      size_scalar hkind hscalar howner, ofNat_add_scalar]
  | @mapping depth owner place count entries hkind howner hplace hcount hentries hkeys hvalues =>
    have hnext : (BitVec.ofNat 64 start.length + 1).toNat = start.length + 1 := by
      simp only [length_append, length_cons] at hlt
      exact toNat_ofNat_add_one (by omega)
    have hget : (start ++ (place :: count :: entries.flatMap fun entry => entry.1 ++ entry.2) ++
        rest)[(BitVec.ofNat 64 start.length + 1).toNat]? = some count := by
      rw [hnext, List.append_assoc, List.getElem?_append_right (Nat.le_succ _)]
      simp
    rw [Params.advance_mapping (Params.factor_of_owner howner) hkind hget, hsize,
      size_mapping hkind howner, ofNat_add_mapping, hcount]

private theorem visitFrom_succ (f : Nat → Nat → EStateM StateFailure σ Unit) {i j : BitVec 64}
    (fuel : Nat)
    (htext : v[i.toNat]? = some text) (hadvance : advance states v encrypted i = .ok j) :
    visitFrom states v encrypted f (fuel + 1) i =
      f (toUint64 text).toNat i.toNat >>= fun _ => visitFrom states v encrypted f fuel j := by
  simp only [visitFrom, htext, hadvance]
  rfl

/-- The traversal of segments calls the visitor once for each, at its start. -/
theorem visitFrom_of_segments {σ : Type} (f : Nat → Nat → EStateM StateFailure σ Unit)
    {order : List Nat} {segments : List (List ByteString)}
    (h : AreSegments states function encrypted order segments)
    {start : List ByteString} {fuel : Nat} (hlt : (start ++ segments.flatten).length < 2 ^ 64)
    (hfuel : segments.flatten.length ≤ fuel) :
    visitFrom states (start ++ segments.flatten) encrypted f fuel (BitVec.ofNat 64 start.length) =
      (order.zip (starts start.length segments)).forM fun call => f call.1 call.2 := by
  induction h generalizing start fuel with
  | nil =>
    funext s
    apply visitFrom_of_le
    rw [toNat_ofNat_of_lt (by simpa using hlt)]
    simp
  | @cons id segment order segments hhead htail ih =>
    obtain ⟨state, hstate, hsegment⟩ := hhead
    have hadvance : state.advance (start ++ segment ++ segments.flatten) encrypted
        (BitVec.ofNat 64 start.length) = .ok (BitVec.ofNat 64 (start.length + segment.length)) :=
      hsegment.advance_eq (by simpa using hlt)
    have hpos := hsegment.length_pos
    obtain ⟨place, texts, rfl, hplace⟩ := hsegment.exists_place
    have hlength : start.length < 2 ^ 64 := by
      rw [length_append] at hlt
      omega
    have hget : (start ++ (((place :: texts) :: segments).flatten))[
        (BitVec.ofNat 64 start.length).toNat]? = some place := by
      rw [toNat_ofNat_of_lt hlength, List.getElem?_append_right (Nat.le_refl _)]
      simp
    rw [List.flatten_cons, length_append] at hfuel
    obtain ⟨fuel, rfl⟩ := Nat.exists_eq_succ_of_ne_zero (show fuel ≠ 0 by omega)
    have htail := @ih (start ++ (place :: texts)) fuel (by simpa using hlt) (by omega)
    rw [List.append_assoc, ← List.flatten_cons] at hadvance htail
    have hround := advance_of_state hget (hplace ▸ hstate) |>.trans hadvance
    rw [length_append] at htail
    rw [visitFrom_succ f fuel hget hround, htail, hplace, toNat_ofNat_of_lt hlength]
    rfl

private theorem Laid.exists_segment (h : Laid states function encrypted order segments)
    (hstate : state ∈ states) : ∃ id segment, IsSegment function encrypted id state segment := by
  obtain ⟨id, hid, rfl⟩ := mem_iff_getElem.mp hstate
  have hmem : id ∈ order := h.perm.mem_iff.mpr (mem_range.mpr hid)
  obtain ⟨i, hi, rfl⟩ := mem_iff_getElem.mp hmem
  obtain ⟨state, hget, hsegment⟩ := h.segment.get hi (h.segment.length_eq ▸ hi)
  rw [get_eq_getElem, List.getElem?_eq_getElem hid, Option.some.injEq] at hget
  exact ⟨_, _, hget ▸ hsegment⟩

private theorem Laid.length_flatten (h : Laid states function encrypted order segments) :
    segments.flatten.length = (states.map (Params.size · function encrypted)).sum := by
  let size (id : Nat) : Nat := ((states[id]?).map (Params.size · function encrypted)).getD 0
  have hlengths : segments.map List.length = order.map size := by
    have hsegment := h.segment
    clear h
    induction hsegment with
    | nil => rfl
    | cons hhead _ ih =>
      obtain ⟨state, hstate, hsegment⟩ := hhead
      rw [map_cons, map_cons, ih, hsegment.length_eq]
      simp [size, hstate]
  have hsizes : (List.range states.length).map size =
      states.map (Params.size · function encrypted) := by
    apply ext_getElem?
    intro i
    by_cases hi : i < states.length
    · simp [size, hi]
    · simp [hi]
  rw [List.length_flatten, hlengths, (h.perm.map size).sum_nat, hsizes]

private theorem IsSegment.addReturnLen_eq (h : IsSegment function encrypted id state segment)
    (x : Nat) :
    addReturnLen function encrypted (BitVec.ofNat 64 x) state =
      .ok (BitVec.ofNat 64 (x + state.size function encrypted)) := by
  cases h with
  | @scalar kind owner place value hkind hscalar howner hplace hvalue =>
    rw [size_scalar hkind hscalar howner, ofNat_add_scalar, addReturnLen,
      described_eq_ok.mpr howner]
    change (described state.kind >>= _) = _
    rw [described_eq_ok.mpr hkind, add_comm 1]
    cases kind with
    | mapping depth => exact absurd rfl (hscalar depth)
    | address => rfl
    | array size => rfl
    | other => rfl
  | @mapping depth owner place count entries hkind howner hplace hcount hentries hkeys hvalues =>
    have hadded : function.getKeysSize state.name * (factor encrypted owner + depth) =
        (depth + factor encrypted owner) * function.getKeysSize state.name := by ring
    rw [size_mapping hkind howner, ofNat_add_mapping, hadded, addReturnLen,
      described_eq_ok.mpr howner]
    change (described state.kind >>= _) = _
    rw [described_eq_ok.mpr hkind]
    rfl

/-- The computed length is the sum of the sizes of the states. -/
theorem foldlM_addReturnLen
    (h : ∀ state ∈ states, ∃ id segment, IsSegment function encrypted id state segment) (x : Nat) :
    states.foldlM (addReturnLen function encrypted) (BitVec.ofNat 64 x) =
      .ok (BitVec.ofNat 64 (x + (states.map (Params.size · function encrypted)).sum)) := by
  induction states generalizing x with
  | nil => simp [pure, Except.pure]
  | cons state states ih =>
    obtain ⟨id, segment, hsegment⟩ := h state mem_cons_self
    have hrest := ih (fun state hstate => h state (mem_cons_of_mem _ hstate))
      (x + state.size function encrypted)
    rw [foldlM_cons, hsegment.addReturnLen_eq, map_cons, sum_cons, ← Nat.add_assoc]
    exact hrest

/-- In a vector of the layout the traversal calls its visitor once for each state, with its place
in the policy and in the vector, and the computed length is that of the vector. -/
theorem layout_agrees (states : List (Params J)) (function : Function J) (encrypted : Bool)
    (order : List Nat) (segments : List (List ByteString))
    (hlaid : Laid states function encrypted order segments)
    (hlt : segments.flatten.length < 2 ^ 64) :
    (∀ (σ : Type) (f : Nat → Nat → EStateM StateFailure σ Unit),
      visitStates states segments.flatten encrypted f =
        (order.zip (starts 0 segments)).forM fun call => f call.1 call.2) ∧
    ∃ len, getStatesReturnLen states function encrypted = .ok len ∧
      len.toNat = segments.flatten.length := by
  constructor
  · intro σ f
    exact @visitFrom_of_segments J _ states encrypted function σ f order segments hlaid.segment []
      segments.flatten.length hlt (Nat.le_refl _)
  · have hlen := foldlM_addReturnLen (fun state hstate => hlaid.exists_segment hstate) 0
    rw [Nat.zero_add, ← hlaid.length_flatten] at hlen
    exact ⟨_, hlen, toNat_ofNat_of_lt hlt⟩

/-- A function that writes one key of the mapping named 1. -/
def oneKeyFunction : Function Description :=
  ⟨[], [], [], [], [], [⟨[1], [[2]]⟩], [], []⟩

/-- The mapping with one key, then the number, encrypted. -/
theorem layout_agrees_two : (∀ (σ : Type) (f : Nat → Nat → EStateM StateFailure σ Unit),
      visitStates twoStates [[49], [49], [50], [51], [48], [], [], []] true f =
        [(1, 0), (0, 4)].forM fun call => f call.1 call.2) ∧
    ∃ len, getStatesReturnLen twoStates oneKeyFunction true = .ok len ∧ len.toNat = 8 := by
  have hlaid : Laid twoStates oneKeyFunction true [1, 0]
      [[[49], [49], [50], [51]], [[48], [], [], []]] := by
    constructor
    · exact List.Perm.swap _ _ _
    · apply List.Forall₂.cons
      · refine ⟨_, rfl, @IsSegment.mapping _ _ _ _ _ _ 1 .all [49] [49] [([[50]], [[51]])] rfl rfl
          rfl rfl rfl ?_ ?_⟩
        · simp
        · simp [factor]
      · apply List.Forall₂.cons _ .nil
        refine ⟨_, rfl, @IsSegment.scalar _ _ _ _ _ _ .other .tee [48] [[], [], []] rfl ?_ rfl rfl
          rfl⟩
        intro depth
        simp
  exact layout_agrees _ _ _ _ _ hlaid (by decide)

end CloakBridge.Mpt
