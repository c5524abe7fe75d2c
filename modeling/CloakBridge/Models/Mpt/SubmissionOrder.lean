import CloakBridge.Core.KeccakRows
import CloakBridge.Core.Slots
import CloakBridge.Models.Mpt.Generator

/-!
# The order of the submissions to a transaction

The parties of a pending transaction submit inputs one after the other, also when the
inputs are complete. The inputs, the parties and the proposals are the same for every
order of the submissions exactly if each of them is waited for, and where they name the
same inputs they agree.
-/

namespace CloakBridge.Mpt

open Std Tee CloakPolicyTransaction List

variable {J : Type}

/-- Everything of an input but its value. -/
def Params.shape (x : Params J) : ByteString × J × J := (x.name, x.structuralType, x.owner)

variable {f : Function J} {i : Nat}

namespace Function

/-- The value of the input at an index. -/
def values (f : Function J) (i : Nat) : Option J := f.inputs[i]?.bind Params.value

/-- The input that `padding` sets for a name. -/
def slot (f : Function J) (name : ByteString) : Option Nat :=
  f.inputs.findIdx? fun x => name = x.name

variable {g : Function J}

private theorem complete_iff : f.complete = true ↔ ∀ i < f.inputs.length, f.values i ≠ none := by
  rw [complete, all_eq_true]
  constructor
  · intro h i hi
    have hx := h _ (getElem_mem hi)
    rw [values, List.getElem?_eq_getElem hi, Option.bind_some]
    exact Option.isSome_iff_ne_none.mp hx
  · intro h x hx
    obtain ⟨i, hi, rfl⟩ := getElem_of_mem hx
    have hvalue := h i hi
    rw [values, List.getElem?_eq_getElem hi, Option.bind_some] at hvalue
    exact Option.isSome_iff_ne_none.mpr hvalue

private theorem inputs_eq_of_values (hshape : f.inputs.map Params.shape = g.inputs.map Params.shape)
    (hvalues : f.values = g.values) : f.inputs = g.inputs := by
  have hlength : f.inputs.length = g.inputs.length := by
    simpa using congrArg List.length hshape
  apply ext_getElem hlength
  intro i hf hg
  have hsame := congrFun hvalues i
  rw [values, values, List.getElem?_eq_getElem hf, List.getElem?_eq_getElem hg] at hsame
  have hshapes : f.inputs[i].shape = g.inputs[i].shape := by
    have hi := congrArg (fun shapes => shapes[i]?) hshape
    simpa [List.getElem?_eq_getElem hf, List.getElem?_eq_getElem hg] using hi
  generalize f.inputs[i] = x at hsame hshapes
  generalize g.inputs[i] = y at hsame hshapes
  cases x
  cases y
  simp only [Params.shape, Prod.mk.injEq] at hshapes
  obtain ⟨rfl, rfl, rfl⟩ := hshapes
  cases hsame
  rfl

private theorem slot_eq_of_shape (hshape : f.inputs.map Params.shape = g.inputs.map Params.shape) :
    f.slot = g.slot := by
  funext name
  have h : ∀ l : List (Params J), l.findIdx? (fun x => name = x.name) =
      (l.map Params.shape).findIdx? fun shape => name = shape.1 := by
    intro l
    rw [List.findIdx?_map]
    rfl
  rw [slot, slot, h, h, hshape]

private theorem setInput_of_slot (l : List (Params J)) (name : ByteString) (value : J) :
    (l.findIdx? (fun x => name = x.name) = none ∧
      Function.setInput name value l = .error (.noInput name)) ∨
    ∃ i l', l.findIdx? (fun x => name = x.name) = some i ∧ i < l.length ∧
      Function.setInput name value l = .ok l' ∧ l'.map Params.shape = l.map Params.shape ∧
        ∀ j, l'[j]?.bind Params.value = if j = i then some value else l[j]?.bind Params.value := by
  induction l with
  | nil => exact .inl ⟨rfl, rfl⟩
  | cons x l ih =>
    by_cases hname : name = x.name
    · refine .inr ⟨0, { x with value := some value } :: l, ?_, by simp, ?_, rfl, ?_⟩
      · simp [List.findIdx?_cons, hname]
      · rw [setInput, if_pos hname]
      · intro j
        cases j <;> simp
    · rcases ih with ⟨hnone, herror⟩ | ⟨i, l', hslot, hi, hset, hshape, hvalues⟩
      · refine .inl ⟨?_, ?_⟩
        · simp [List.findIdx?_cons, hname, hnone]
        · rw [setInput, if_neg hname, herror]
          rfl
      · refine .inr ⟨i + 1, x :: l', ?_, by simpa using hi, ?_, ?_, ?_⟩
        · simp [List.findIdx?_cons, hname, hslot]
        · rw [setInput, if_neg hname, hset]
          rfl
        · rw [map_cons, map_cons, hshape]
        · intro j
          cases j with
          | zero => simp
          | succ j => simpa using hvalues j

private theorem slot_eq_some {name : ByteString} (h : f.slot name = some i) :
    ∃ x, f.inputs[i]? = some x ∧ name = x.name := by
  obtain ⟨hi, hx, -⟩ := List.findIdx?_eq_some_iff_getElem.mp h
  exact ⟨f.inputs[i], List.getElem?_eq_getElem hi, by simpa using hx⟩

/-- What a submission has for the inputs of a function. -/
def entries (f : Function J) (inputs : List (ByteString × J)) : List (Option Nat × J) :=
  inputs.map fun input => (f.slot input.1, input.2)

private theorem distinct_entries (f : Function J) {inputs : List (ByteString × J)}
    (h : (inputs.map Prod.fst).Nodup) : ((f.entries inputs).filterMap Prod.fst).Nodup := by
  have hslots : (f.entries inputs).filterMap Prod.fst = (inputs.map Prod.fst).filterMap f.slot := by
    rw [entries, filterMap_map, filterMap_map]
    rfl
  rw [hslots]
  refine h.filterMap ?_
  intro name name' i hname hname'
  obtain ⟨x, hx, rfl⟩ := slot_eq_some hname
  obtain ⟨y, hy, rfl⟩ := slot_eq_some hname'
  rw [hx] at hy
  cases hy
  rfl

private theorem padding_of_slot (name : ByteString) (value : J) (hcomplete : f.complete = false) :
    (f.slot name = none ∧ f.padding name value = .error (.noInput name)) ∨
      ∃ i inputs, f.slot name = some i ∧ f.padding name value = .ok { f with inputs := inputs } ∧
          inputs.map Params.shape = f.inputs.map Params.shape ∧
            values { f with inputs := inputs } = Function.update f.values i (some value) := by
  simp only [padding, hcomplete, Bool.false_eq_true, if_false]
  rcases setInput_of_slot f.inputs name value with
    ⟨hnone, herror⟩ | ⟨i, inputs, hslot, -, hset, hshape, hvalues⟩
  · exact .inl ⟨hnone, by rw [herror]; rfl⟩
  · refine .inr ⟨i, inputs, hslot, by rw [hset]; rfl, hshape, ?_⟩
    funext j
    rw [Function.update_apply]
    exact hvalues j

variable [Json J]

/-- The inputs of a function as slots that submissions fill. -/
def form (f : Function J) : Form Nat J (MultiPartyTransaction J) where
  slots := {i | i < f.inputs.length}
  null v := v = Json.null
  entries mpt := f.entries mpt.params.inputs
  mem_slots mpt i v h := by
    obtain ⟨input, -, hinput⟩ := mem_map.mp h
    obtain ⟨x, hx, -⟩ := slot_eq_some (congrArg Prod.fst hinput)
    exact (List.getElem?_eq_some_iff.mp hx).1
  distinct mpt := by
    apply distinct_entries
    rw [List.Nodup, pairwise_map]
    refine mpt.params.sorted.imp ?_
    rintro ⟨name, v⟩ ⟨name', w⟩ hlt rfl
    exact List.lt_irrefl name hlt

private theorem full_form : f.form.Full f.values ↔ f.complete = true := complete_iff.symm

private theorem form_eq_of_shape (hshape : f.inputs.map Params.shape = g.inputs.map Params.shape) :
    f.form = g.form := by
  have hlength : f.inputs.length = g.inputs.length := by
    simpa using congrArg List.length hshape
  simp only [form, entries, slot_eq_of_shape hshape, hlength]

/-- The loop of `set_content` fills the form. -/
theorem paddingAll_cases (f : Function J) (inputs : List (ByteString × J)) :
    (f.form.fill f.values (f.entries inputs) = none ∧ ∃ e, f.paddingAll inputs = .error e) ∨
      ∃ f', f.paddingAll inputs = .ok f' ∧ f'.inputs.map Params.shape = f.inputs.map Params.shape ∧
          f.form.fill f.values (f.entries inputs) = some f'.values := by
  induction inputs generalizing f with
  | nil => exact .inr ⟨f, rfl, rfl, rfl⟩
  | cons input inputs ih =>
    obtain ⟨name, value⟩ := input
    cases hcomplete : f.complete with
    | true =>
      have hpadding : f.padding name value = .ok f := by rw [padding, if_pos hcomplete]
      rcases ih f with ⟨hnone, -⟩ | ⟨f', hall, hshape, hfill⟩
      · rw [Form.fill_of_full (full_form.mpr hcomplete)] at hnone
        cases hnone
      · refine .inr ⟨f', ?_, hshape, ?_⟩
        · rw [paddingAll, hpadding]
          exact hall
        · rw [← hfill, Form.fill_of_full (full_form.mpr hcomplete),
            Form.fill_of_full (full_form.mpr hcomplete)]
    | false =>
      have hfull : ¬ f.form.Full f.values := by
        rw [full_form, hcomplete]
        exact Bool.false_ne_true
      have hentries : f.entries ((name, value) :: inputs) =
          (f.slot name, value) :: f.entries inputs := rfl
      rcases padding_of_slot name value hcomplete with
        ⟨hslot, hpadding⟩ | ⟨i, inputs₁, hslot, hpadding, hshape₁, hvalues⟩
      · refine .inl ⟨?_, .noInput name, ?_⟩
        · rw [hentries, hslot, Form.fill_none hfull]
        · rw [paddingAll, hpadding]
          rfl
      · have hform : form { f with inputs := inputs₁ } = f.form := form_eq_of_shape hshape₁
        have hslots : entries { f with inputs := inputs₁ } = f.entries := by
          funext l
          rw [entries, entries, slot_eq_of_shape (f := { f with inputs := inputs₁ }) hshape₁]
        have hstep := ih { f with inputs := inputs₁ }
        rw [hform, hslots, hvalues] at hstep
        rw [hentries, hslot, Form.fill_some hfull, paddingAll, hpadding]
        rcases hstep with ⟨hnone, e, herror⟩ | ⟨f', hall, hshape, hfill⟩
        · exact .inl ⟨hnone, e, herror⟩
        · exact .inr ⟨f', hall, hshape.trans hshape₁, hfill⟩

end Function

section Reload

variable [Json J] [DecidableEq J]

private theorem Function.shape_reload (f : Function J) :
    f.reload.inputs.map Params.shape = f.inputs.map Params.shape := by
  rw [Function.reload, map_map]
  rfl

private theorem Function.values_reload (f : Function J) :
    f.reload.values = f.form.stored f.values := by
  funext i
  ext v
  rw [Form.stored_eq_some, Function.values, Function.values, Function.reload, List.getElem?_map]
  cases f.inputs[i]? with
  | none => simp
  | some x => simp [Params.reload, Function.form, Option.filter_eq_some_iff]

private theorem Function.not_null_of_reload {v : J} (h : f.reload.values i = some v) :
    v ≠ Json.null := by
  rw [f.values_reload] at h
  exact (Form.stored_eq_some.mp h).2

end Reload

/-- A submission as it is written to the record. -/
def MultiPartyTransaction.dump [Json J] (mpt : MultiPartyTransaction J) : ByteString :=
  Json.dump mpt.params.function mpt.params.inputs

namespace Node

variable [Json J] [DecidableEq J]

/-- A submission arrives; one that is rejected has no effect. -/
def arrive (digest : MultiPartyTransaction J → ByteString) (st : Node J)
    (mpt : MultiPartyTransaction J) : Node J :=
  match st.addCloakTransaction (digest mpt) mpt with
  | .ok st' => st'
  | .error _ => st

/-- Submissions arrive in this order. -/
def arriveAll (digest : MultiPartyTransaction J → ByteString) (st : Node J)
    (L : List (MultiPartyTransaction J)) : Node J :=
  L.foldl (arrive digest) st

/-- The inputs and the parties of a transaction. -/
def content (st : Node J) (id : ByteString) :
    Option (List (Params J) × ExtTreeMap PublicKey ByteString) :=
  (st.load id).map fun r => (r.function.inputs, r.partys)

/-- The value of an input of a transaction. -/
def valueOf (st : Node J) (id : ByteString) (i : Nat) : Option J :=
  (st.load id).bind fun r => r.function.values i

/-- The submissions have the same outcome in every order, and no value is replaced. -/
structure OrderIndependent (digest : MultiPartyTransaction J → ByteString) (st : Node J)
    (id : ByteString) (L : List (MultiPartyTransaction J)) : Prop where
  content : ∀ M, M.Perm L →
    (st.arriveAll digest M).content id = (st.arriveAll digest L).content id
  proposals : ∀ M, M.Perm L →
    (st.arriveAll digest M).proposals id = (st.arriveAll digest L).proposals id
  keeps : ∀ A mpt B, (A ++ mpt :: B).Perm L → ∀ i v,
    (st.arriveAll digest A).valueOf id i = some v →
      (st.arriveAll digest (A ++ [mpt])).valueOf id i = some v

/-- A pending transaction, and one submission of each of several parties that have not submitted. -/
structure Awaits (st : Node J) (id : ByteString) (r : CloakPolicyTransaction J)
    (L : List (MultiPartyTransaction J)) : Prop where
  load : st.load id = some r
  pending : r.status = .pending
  size : id.length = 32
  target : ∀ mpt ∈ L, mpt.to_ = id
  parties : (L.map MultiPartyTransaction.from_).Nodup
  fresh : ∀ mpt ∈ L, ∀ key ∈ r.partys, key.address ≠ mpt.from_
  account : st.teeAddress.isSome
  service : st.serviceAddr.isSome

variable {st : Node J} {mpt : MultiPartyTransaction J} {r : CloakPolicyTransaction J}
  {digest : MultiPartyTransaction J → ByteString}

private theorem addCloakTransaction_join (digest : ByteString) (hload : st.load mpt.to_ = some r)
    (hpending : r.status = .pending) (hsize : mpt.to_.length = 32) :
    st.addCloakTransaction digest mpt = r.setContent mpt >>= st.putContent mpt.to_ := by
  have hget : st.get mpt.to_ = .ok r := by rw [get, hload]
  rw [addCloakTransaction, if_pos hsize, hget]
  exact if_neg (not_not.mpr hpending)

omit [Json J] [DecidableEq J] in
private theorem propose_eq (st : Node J) (haccount : st.teeAddress.isSome)
    (hservice : st.serviceAddr.isSome) (id : ByteString) (r : CloakPolicyTransaction J) :
    st.propose id r = .ok (st.signAndSend
      (.propose id r.verifierAddr r.calcInputsHash.1 r.calcInputsHash.2)) := by
  obtain ⟨account, haccount⟩ := Option.isSome_iff_exists.mp haccount
  obtain ⟨service, hservice⟩ := Option.isSome_iff_exists.mp hservice
  rw [propose, makeAccount, haccount, getServiceAddr, hservice]
  rfl

private theorem arrive_of_ok {st' : Node J}
    (h : st.addCloakTransaction (digest mpt) mpt = .ok st') :
    st.arrive digest mpt = st' := by
  rw [arrive, h]

private theorem arrive_of_error {e : Failure}
    (h : st.addCloakTransaction (digest mpt) mpt = .error e) :
    st.arrive digest mpt = st := by
  rw [arrive, h]

/-- What a submission to a pending transaction does. -/
theorem arrive_cases (digest : MultiPartyTransaction J → ByteString) (mpt : MultiPartyTransaction J)
    (hload : st.load mpt.to_ = some r) (hpending : r.status = .pending)
    (hsize : mpt.to_.length = 32) (haccount : st.teeAddress.isSome)
    (hservice : st.serviceAddr.isSome) :
    (∃ e, r.function.paddingAll mpt.params.inputs = .error e ∧ st.arrive digest mpt = st) ∨
      ∃ f r', r.function.paddingAll mpt.params.inputs = .ok f ∧
        r' = { r with function := f, partys := r.partys.insert mpt.publicKeys mpt.dump } ∧
          ((f.complete = true ∧ st.arrive digest mpt = (st.store mpt.to_ r').signAndSend
            (.propose mpt.to_ r'.verifierAddr r'.calcInputsHash.1 r'.calcInputsHash.2)) ∨
          (f.complete = false ∧ st.arrive digest mpt = st.store mpt.to_ r')) := by
  have hadd := addCloakTransaction_join (digest mpt) hload hpending hsize
  rw [setContent] at hadd
  cases hpadding : r.function.paddingAll mpt.params.inputs with
  | error e =>
    rw [hpadding] at hadd
    exact .inl ⟨e, rfl, arrive_of_error hadd⟩
  | ok f =>
    rw [hpadding] at hadd
    refine .inr ⟨f, _, rfl, rfl, ?_⟩
    cases hcomplete : f.complete with
    | true =>
      refine .inl ⟨rfl, arrive_of_ok (hadd.trans ?_)⟩
      exact (if_pos hcomplete).trans (propose_eq (st.store mpt.to_ _) haccount hservice _ _)
    | false =>
      refine .inr ⟨rfl, arrive_of_ok (hadd.trans (if_neg ?_))⟩
      simp [hcomplete]

/-- The parties of a record after some submissions. -/
structure Records (base : ExtTreeMap PublicKey ByteString) (X : Finset (MultiPartyTransaction J))
    (partys : ExtTreeMap PublicKey ByteString) : Prop where
  accepted : ∀ mpt ∈ X, partys[mpt.publicKeys]? = some mpt.dump
  others : ∀ key, (∀ mpt ∈ X, mpt.publicKeys ≠ key) → partys[key]? = base[key]?

/-- The addresses and the hashes of the inputs of some parties. -/
def inputsHash (partys : ExtTreeMap PublicKey ByteString) : List Address × List ByteString :=
  (partys.toList.map fun party => party.1.address,
    partys.toList.map fun party => Tee.keccak256 party.2)

variable {base partys partys' : ExtTreeMap PublicKey ByteString}
  {X Y : Finset (MultiPartyTransaction J)} {L : List (MultiPartyTransaction J)}
  {mpt : MultiPartyTransaction J} {st : Node J} {id : ByteString} {r : CloakPolicyTransaction J}

private theorem Records.insert (h : Records base X partys)
    (hdistinct : ∀ t ∈ X, t.publicKeys = mpt.publicKeys → t = mpt) :
    Records base (Insert.insert mpt X) (partys.insert mpt.publicKeys mpt.dump) := by
  constructor
  · intro t ht
    rw [ExtTreeMap.getElem?_insert]
    rcases Finset.mem_insert.mp ht with rfl | htX
    · simp
    · by_cases hkey : t.publicKeys = mpt.publicKeys
      · simp [hdistinct t htX hkey]
      · rw [if_neg, h.accepted t htX]
        rw [Std.compare_eq_iff_eq]
        exact Ne.symm hkey
  · intro key hkey
    have hne : mpt.publicKeys ≠ key := hkey mpt (Finset.mem_insert_self mpt X)
    rw [ExtTreeMap.getElem?_insert, if_neg (by rwa [Std.compare_eq_iff_eq])]
    exact h.others key fun t ht => hkey t (Finset.mem_insert_of_mem ht)

omit [DecidableEq J] in
private theorem Records.unique (h : Records base X partys) (h' : Records base X partys') :
    partys = partys' := by
  apply ExtTreeMap.ext_getElem?
  intro key
  by_cases hkey : ∃ t ∈ X, t.publicKeys = key
  · obtain ⟨t, ht, rfl⟩ := hkey
    rw [h.accepted t ht, h'.accepted t ht]
  · have hnone : ∀ t ∈ X, t.publicKeys ≠ key := fun t ht heq => hkey ⟨t, ht, heq⟩
    rw [h.others key hnone, h'.others key hnone]

/-- Who has been accepted can be told from the addresses that are proposed. -/
theorem Awaits.mem_iff (h : st.Awaits id r L) (hX : ∀ t ∈ X, t ∈ L)
    (hrecords : Records r.partys X partys) (hmpt : mpt ∈ L) :
    mpt.from_ ∈ (inputsHash partys).1 ↔ mpt ∈ X := by
  simp only [inputsHash, mem_map, Prod.exists, ExtTreeMap.mem_toList_iff_getElem?_eq_some]
  constructor
  · rintro ⟨key, v, hkey, haddress⟩
    by_cases hex : ∃ t ∈ X, t.publicKeys = key
    · obtain ⟨t, ht, rfl⟩ := hex
      have htm : t = mpt := inj_on_of_nodup_map h.parties (hX t ht) hmpt haddress
      rwa [← htm]
    · rw [hrecords.others key fun t ht heq => hex ⟨t, ht, heq⟩] at hkey
      have hmem : key ∈ r.partys := by
        rw [ExtTreeMap.mem_iff_isSome_getElem?, hkey]
        rfl
      exact absurd haddress (h.fresh mpt hmpt key hmem)
  · intro hmem
    exact ⟨mpt.publicKeys, mpt.dump, hrecords.accepted mpt hmem, rfl⟩

private theorem Awaits.eq_of_inputsHash (h : st.Awaits id r L) (hX : ∀ t ∈ X, t ∈ L)
    (hY : ∀ t ∈ Y, t ∈ L)
    (hrecords : Records r.partys X partys) (hrecords' : Records r.partys Y partys')
    (hsame : inputsHash partys = inputsHash partys') : X = Y := by
  ext t
  constructor
  · intro ht
    rw [← h.mem_iff hY hrecords' (hX t ht), ← hsame]
    exact (h.mem_iff hX hrecords (hX t ht)).mpr ht
  · intro ht
    rw [← h.mem_iff hX hrecords (hY t ht), hsame]
    exact (h.mem_iff hY hrecords' (hY t ht)).mpr ht

/-- A proposal announces the submissions that the record had accepted. -/
def Announces (base : ExtTreeMap PublicKey ByteString) (L : List (MultiPartyTransaction J))
    (X : Finset (MultiPartyTransaction J)) (proposal : List Address × List ByteString) : Prop :=
  (∀ t ∈ X, t ∈ L) ∧ ∃ partys, Records base X partys ∧ proposal = inputsHash partys

private theorem Awaits.announces_inj (h : st.Awaits id r L) {announced announced' : List (Finset _)}
    {proposals proposals' : List (List Address × List ByteString)}
    (hann : List.Forall₂ (Announces r.partys L) announced proposals)
    (hann' : List.Forall₂ (Announces r.partys L) announced' proposals') :
    announced = announced' ↔ proposals = proposals' := by
  constructor
  · rintro rfl
    refine right_unique_forall₂' ?_ hann hann'
    rintro X _ _ ⟨-, partys, hrecords, rfl⟩ ⟨-, partys', hrecords', rfl⟩
    rw [hrecords.unique hrecords']
  · rintro rfl
    refine left_unique_forall₂' ?_ hann hann'
    rintro X Y _ ⟨hX, partys, hrecords, rfl⟩ ⟨hY, partys', hrecords', hsame⟩
    exact h.eq_of_inputsHash hX hY hrecords hrecords' hsame

/-- The node and its record follow the progress of the form. -/
structure Tracks (st₀ : Node J) (id : ByteString) (r : CloakPolicyTransaction J)
    (L : List (MultiPartyTransaction J)) (st : Node J)
    (p : Form.Progress Nat J (MultiPartyTransaction J)) : Prop where
  record : ∃ r', st.load id = some r' ∧ r'.status = .pending ∧
    r'.function.inputs.map Params.shape = r.function.inputs.map Params.shape ∧
      r'.function.values = p.values ∧ Records r.partys p.accepted r'.partys
  account : st.teeAddress.isSome
  service : st.serviceAddr.isSome
  accepted : ∀ t ∈ p.accepted, t ∈ L
  proposals : ∃ new, st.proposals id = st₀.proposals id ++ new ∧
    List.Forall₂ (Announces r.partys L) p.announced new

private theorem Awaits.tracks (h : st.Awaits id r L) :
    Tracks st id r L st (Form.start r.function.values) where
  record := ⟨r, h.load, h.pending, rfl, rfl, ⟨nofun, fun _ _ => rfl⟩⟩
  account := h.account
  service := h.service
  accepted := nofun
  proposals := ⟨[], (append_nil _).symm, .nil⟩

private theorem Awaits.distinct (h : st.Awaits id r L) {t : MultiPartyTransaction J}
    (ht : t ∈ L) (hmpt : mpt ∈ L) (hkey : t.publicKeys = mpt.publicKeys) : t = mpt :=
  inj_on_of_nodup_map h.parties ht hmpt (congrArg PublicKey.address hkey)

variable {digest : MultiPartyTransaction J → ByteString} {st₁ : Node J}
  {p : Form.Progress Nat J (MultiPartyTransaction J)}

/-- A submission to the node is one to the form. -/
theorem Tracks.arrive (h : st.Awaits id r L) (ht : Tracks st id r L st₁ p) (hmpt : mpt ∈ L) :
    Tracks st id r L (st₁.arrive digest mpt) (r.function.form.submit p mpt) := by
  obtain ⟨r₁, hload, hpending, hshape, hvalues, hrecords⟩ := ht.record
  have hform : r₁.function.form = r.function.form := Function.form_eq_of_shape hshape
  have htarget := h.target mpt hmpt
  have hfill := Function.paddingAll_cases r₁.function mpt.params.inputs
  rw [hform, hvalues, show r₁.function.entries mpt.params.inputs = r.function.form.entries mpt from
    congrFun (congrArg Form.entries hform) mpt] at hfill
  have harrive := arrive_cases digest mpt (by rwa [htarget]) hpending
    (by rw [htarget, h.size]) ht.account ht.service
  rw [htarget] at harrive
  rcases harrive with ⟨e, herror, hsame⟩ | ⟨f, r₂, hpadding, hr₂, hcases⟩
  · rcases hfill with ⟨hnone, -⟩ | ⟨f, hok, -⟩
    · rw [hsame, Form.submit, hnone]
      exact ht
    · rw [herror] at hok
      cases hok
  · rcases hfill with ⟨-, e, herror⟩ | ⟨f', hok, hshape', hfill⟩
    · rw [hpadding] at herror
      cases herror
    · rw [hpadding] at hok
      obtain rfl := Except.ok.inj hok
      have hshape₂ : f.inputs.map Params.shape = r.function.inputs.map Params.shape :=
        hshape'.trans hshape
      have hfull : r.function.form.Full f.values ↔ f.complete = true := by
        rw [← Function.full_form, Function.form_eq_of_shape hshape₂]
      have hrecords₂ : Records r.partys (insert mpt p.accepted) r₂.partys := by
        rw [hr₂]
        exact hrecords.insert fun t htp hkey => h.distinct (ht.accepted t htp) hmpt hkey
      have haccepted : ∀ t ∈ insert mpt p.accepted, t ∈ L := by
        intro t htp
        rcases Finset.mem_insert.mp htp with rfl | htp
        · exact hmpt
        · exact ht.accepted t htp
      have hstored : ∃ r', (st₁.store id r₂).load id = some r' ∧ r'.status = .pending ∧
          r'.function.inputs.map Params.shape = r.function.inputs.map Params.shape ∧
            r'.function.values = r.function.form.stored f.values ∧
              Records r.partys (insert mpt p.accepted) r'.partys := by
        refine ⟨r₂.reload, load_store st₁ id r₂, by rw [hr₂]; exact hpending, ?_, ?_, hrecords₂⟩
        · rw [reload, Function.shape_reload, hr₂]
          exact hshape₂
        · rw [reload, Function.values_reload, hr₂, Function.form_eq_of_shape hshape₂]
      obtain ⟨new, hnew, hannounced⟩ := ht.proposals
      rw [Form.submit, hfill]
      rcases hcases with ⟨hcomplete, harrive⟩ | ⟨hcomplete, harrive⟩ <;> rw [harrive]
      · refine ⟨hstored, ht.account, ht.service, haccepted, new ++ [inputsHash r₂.partys], ?_, ?_⟩
        · rw [proposals_signAndSend_propose, ← append_assoc]
          exact congrArg (· ++ _) hnew
        · simp only [if_pos (hfull.mpr hcomplete)]
          exact rel_append hannounced (.cons ⟨haccepted, r₂.partys, hrecords₂, rfl⟩ .nil)
      · have hnot : ¬ r.function.form.Full f.values := by
          rw [hfull, hcomplete]
          exact Bool.false_ne_true
        refine ⟨hstored, ht.account, ht.service, haccepted, new, hnew, ?_⟩
        simp only [if_neg hnot]
        exact hannounced

private theorem Tracks.arriveAll (digest : MultiPartyTransaction J → ByteString)
    (h : st.Awaits id r L)
    {M : List (MultiPartyTransaction J)} (hM : M ⊆ L) : Tracks st id r L (st.arriveAll digest M)
      (r.function.form.run (Form.start r.function.values) M) := by
  induction M using List.reverseRecOn with
  | nil => exact h.tracks
  | append_singleton M mpt ih =>
    rw [Node.arriveAll, foldl_append, Form.run_concat]
    exact (ih fun t ht => hM (by simp [ht])).arrive h (hM (by simp))

private theorem Tracks.valueOf_eq (ht : Tracks st id r L st₁ p) (i : Nat) :
    st₁.valueOf id i = p.values i := by
  obtain ⟨r', hload, -, -, hvalues, -⟩ := ht.record
  rw [valueOf, hload, Option.bind_some, hvalues]

variable {st₂ : Node J} {q : Form.Progress Nat J (MultiPartyTransaction J)}

/-- The record tells the values and who has been accepted. -/
theorem Tracks.content_eq_iff (h : st.Awaits id r L) (ht : Tracks st id r L st₁ p)
    (ht' : Tracks st id r L st₂ q) :
    st₁.content id = st₂.content id ↔ p.values = q.values ∧ p.accepted = q.accepted := by
  obtain ⟨r₁, hload₁, -, hshape₁, hvalues₁, hrecords₁⟩ := ht.record
  obtain ⟨r₂, hload₂, -, hshape₂, hvalues₂, hrecords₂⟩ := ht'.record
  rw [content, content, hload₁, hload₂, Option.map_some, Option.map_some, Option.some_inj,
    Prod.mk.injEq]
  constructor
  · rintro ⟨hinputs, hpartys⟩
    constructor
    · rw [← hvalues₁, ← hvalues₂]
      funext i
      rw [Function.values, Function.values, hinputs]
    · exact h.eq_of_inputsHash ht.accepted ht'.accepted hrecords₁ hrecords₂ (by rw [hpartys])
  · rintro ⟨hvalues, haccepted⟩
    constructor
    · refine Function.inputs_eq_of_values (hshape₁.trans hshape₂.symm) ?_
      rw [hvalues₁, hvalues₂, hvalues]
    · rw [← haccepted] at hrecords₂
      exact hrecords₁.unique hrecords₂

/-- The proposals tell what has been announced. -/
theorem Tracks.proposals_eq_iff (h : st.Awaits id r L) (ht : Tracks st id r L st₁ p)
    (ht' : Tracks st id r L st₂ q) :
    st₁.proposals id = st₂.proposals id ↔ p.announced = q.announced := by
  obtain ⟨new₁, hnew₁, hann₁⟩ := ht.proposals
  obtain ⟨new₂, hnew₂, hann₂⟩ := ht'.proposals
  rw [hnew₁, hnew₂, append_cancel_left_eq, h.announces_inj hann₁ hann₂]

/-- Orders of submissions to the node are orders of submissions to the form. -/
theorem Awaits.orderIndependent_iff_form (h : st.Awaits id r L) : st.OrderIndependent digest id L ↔
      r.function.form.OrderIndependent r.function.values L := by
  have htracks : ∀ M : List (MultiPartyTransaction J), M ⊆ L →
      Tracks st id r L (st.arriveAll digest M) _ := fun M hM => Tracks.arriveAll digest h hM
  have hL := htracks L (List.Subset.refl L)
  have hparts : ∀ {A : List (MultiPartyTransaction J)} {mpt B}, (A ++ mpt :: B).Perm L →
      A ⊆ L ∧ A ++ [mpt] ⊆ L := by
    intro A mpt B hM
    have hsub : A ++ [mpt] ⊆ L := fun t ht => hM.subset (by simp at ht ⊢; tauto)
    exact ⟨fun t ht => hsub (by simp [ht]), hsub⟩
  constructor
  · intro horder
    constructor
    · intro M hM
      have hcontent := (Tracks.content_eq_iff h (htracks M hM.subset) hL).mp (horder.content M hM)
      ext1
      · exact hcontent.1
      · exact hcontent.2
      · exact (Tracks.proposals_eq_iff h (htracks M hM.subset) hL).mp (horder.proposals M hM)
    · intro A mpt B hM i v hv
      obtain ⟨hA, hAm⟩ := hparts hM
      rw [← (htracks _ hAm).valueOf_eq]
      exact horder.keeps A mpt B hM i v (by rwa [(htracks _ hA).valueOf_eq])
  · intro horder
    constructor
    · intro M hM
      rw [Tracks.content_eq_iff h (htracks M hM.subset) hL, horder.same M hM]
      exact ⟨rfl, rfl⟩
    · intro M hM
      rw [Tracks.proposals_eq_iff h (htracks M hM.subset) hL, horder.same M hM]
    · intro A mpt B hM i v hv
      obtain ⟨hA, hAm⟩ := hparts hM
      rw [(htracks _ hAm).valueOf_eq]
      exact horder.keeps A mpt B hM i v (by rwa [← (htracks _ hA).valueOf_eq])

/-- Submissions that complete a transaction have the same outcome in every order, and replace no
value, exactly if they are compatible. -/
theorem orderIndependent_iff_compatible (digest : MultiPartyTransaction J → ByteString)
    (st : Node J) (id : ByteString) (r r' : CloakPolicyTransaction J)
    (L : List (MultiPartyTransaction J)) (hawaits : st.Awaits id r L)
    (hfinal : (st.arriveAll digest L).load id = some r') (hcomplete : r'.function.complete = true) :
    st.OrderIndependent digest id L ↔ r.function.form.Compatible r.function.values L := by
  have htracks := Tracks.arriveAll digest hawaits (List.Subset.refl L)
  obtain ⟨r₁, hload, -, hshape, hvalues, -⟩ := htracks.record
  rw [hfinal, Option.some_inj] at hload
  subst hload
  rw [hawaits.orderIndependent_iff_form]
  apply Form.orderIndependent_iff
  · intro i v hv
    obtain ⟨r₀, -, rfl⟩ := Option.map_eq_some_iff.mp hawaits.load
    exact Function.not_null_of_reload hv
  · exact hawaits.parties.of_map _
  · rw [← hvalues, ← Function.form_eq_of_shape hshape, Function.full_form]
    exact hcomplete

end Node

/-- Numbers as values, with 0 as null. -/
instance : Json Nat where
  null := 0
  dump function inputs := function ++ inputs.flatMap Prod.fst

/-- An input without a value. -/
def emptyInput (name : ByteString) : Params Nat := ⟨name, 0, 0, none⟩

/-- A pending transaction that has these inputs. -/
def recordWith (names : List ByteString) : CloakPolicyTransaction Nat where
  from_ := 1
  to_ := 2
  verifierAddr := 3
  codeHash := []
  function := ⟨[], [], [], names.map emptyInput, [], [], [], []⟩
  states := []
  oldStates := []
  requestedAddresses := []
  publicKeys := ∅
  status := .pending
  partys := ∅

/-- A node with one such transaction. -/
def nodeWith (names : List ByteString) : Node Nat where
  cloakPolicys id := if id = List.replicate 32 7 then some (recordWith names) else none
  privacyDigests _ := none
  privacys _ := none
  statesDigests _ := none
  nonces _ := 0
  teeAddress := some 4
  teeNonce := 0
  serviceAddr := some 5
  agentLog := []

/-- A party submits one value. -/
def submission (point : UInt8) (name : ByteString) (value : Nat) : MultiPartyTransaction Nat where
  nonce := 0
  to_ := List.replicate 32 7
  publicKeys := ⟨[point]⟩
  params := ⟨[], [(name, value)], pairwise_singleton _ _⟩

private theorem address_ne : (⟨[1]⟩ : PublicKey).address ≠ (⟨[2]⟩ : PublicKey).address := by
  simp only [PublicKey.address, Tee.keccak256, Keccak.keccak256_eq_digest]
  decide +kernel

private theorem reload_recordWith (names : List ByteString) :
    (recordWith names).reload = recordWith names := by
  simp [recordWith, reload, Function.reload, emptyInput, Params.reload]

private theorem awaits_nodeWith (names : List ByteString) (name name' : ByteString)
    (value value' : Nat) :
    (nodeWith names).Awaits (List.replicate 32 7) (recordWith names)
      [submission 1 name value, submission 2 name' value'] where
  load := congrArg some (reload_recordWith names)
  pending := rfl
  size := rfl
  target := by simp [submission]
  parties := by simpa [submission, MultiPartyTransaction.from_] using address_ne
  fresh _ _ _ hkey := absurd hkey ExtTreeMap.not_mem_empty
  account := rfl
  service := rfl

private theorem values_recordWith (names : List ByteString) (i : Nat) :
    (recordWith names).function.values i = none := by
  rw [Function.values, recordWith, List.getElem?_map]
  cases names[i]? <;> rfl

private theorem compatible_two : (recordWith [[120], [121]]).function.form.Compatible
    (recordWith [[120], [121]]).function.values [submission 1 [120] 1, submission 2 [121] 2] := by
  have hmem : ∀ mpt ∈ [submission 1 [120] 1, submission 2 [121] 2], ∃ i < 2,
      (recordWith [[120], [121]]).function.form.entries mpt = [(some i, i + 1)] ∧
        mpt = if i = 0 then submission 1 [120] 1 else submission 2 [121] 2 := by
    simp only [forall_mem_cons]
    exact ⟨⟨0, by decide, rfl, rfl⟩, ⟨1, by decide, rfl, rfl⟩, by simp⟩
  have hreached : ∀ {T mpt e}, (recordWith [[120], [121]]).function.form.Reached
      (recordWith [[120], [121]]).function.values T mpt e →
        e ∈ (recordWith [[120], [121]]).function.form.entries mpt := by
    rintro T mpt e ⟨pre, post, hentries, -⟩
    simp [hentries]
  constructor
  · intro mpt hmpt v h
    obtain ⟨i, -, hentries, -⟩ := hmem mpt hmpt
    simpa [hentries] using hreached h
  · intro mpt _ i v w _ hw
    rw [values_recordWith] at hw
    cases hw
  · intro s hs t _ _ i v w h _
    obtain ⟨j, -, hj, -⟩ := hmem s hs
    have hv := hreached h
    simp only [hj, mem_singleton, Prod.mk.injEq] at hv
    rw [hv.2]
    exact Nat.succ_ne_zero j
  · intro s hs t ht i v w hv hw
    obtain ⟨j, -, hj, rfl⟩ := hmem s hs
    obtain ⟨k, -, hk, rfl⟩ := hmem t ht
    have hv := hv.1
    have hw := hw.1
    simp only [hj, hk, mem_singleton, Prod.mk.injEq, Option.some.injEq] at hv hw
    omega
  · intro s hs t ht hst
    obtain ⟨j, -, hj, rfl⟩ := hmem s hs
    obtain ⟨k, hk2, hk, rfl⟩ := hmem t ht
    refine ⟨k, hk2, values_recordWith _ k, ?_, ?_⟩
    · intro u hu hut v hv
      obtain ⟨l, -, hl, rfl⟩ := hmem u hu
      have hv := hv.1
      simp only [hl, mem_singleton, Prod.mk.injEq, Option.some.injEq] at hv
      simp [hv.1] at hut
    · rintro ⟨v, hv⟩
      simp only [hj, mem_singleton, Prod.mk.injEq, Option.some.injEq] at hv
      simp [hv.1] at hst

/-- Two parties with an input each. -/
theorem orderIndependent_two :
    (nodeWith [[120], [121]]).OrderIndependent (fun _ => []) (List.replicate 32 7)
      [submission 1 [120] 1, submission 2 [121] 2] := by
  have hfinal : ∃ r', ((nodeWith [[120], [121]]).arriveAll (fun _ => [])
      [submission 1 [120] 1, submission 2 [121] 2]).load (List.replicate 32 7) = some r' ∧
        r'.function.complete = true := ⟨_, rfl, rfl⟩
  obtain ⟨r', hload, hcomplete⟩ := hfinal
  exact (Node.orderIndependent_iff_compatible _ _ _ _ r' _ (awaits_nodeWith _ _ _ _ _) hload
    hcomplete).mpr compatible_two

/-- Of two parties with the same input, the first decides. -/
theorem not_orderIndependent_same_input :
    (nodeWith [[120]]).Awaits (List.replicate 32 7) (recordWith [[120]])
        [submission 1 [120] 1, submission 2 [120] 2] ∧
      (∃ r', ((nodeWith [[120]]).arriveAll (fun _ => [])
        [submission 1 [120] 1, submission 2 [120] 2]).load (List.replicate 32 7) = some r' ∧
          r'.function.complete = true) ∧
      ¬ (nodeWith [[120]]).OrderIndependent (fun _ => []) (List.replicate 32 7)
        [submission 1 [120] 1, submission 2 [120] 2] := by
  refine ⟨awaits_nodeWith _ _ _ _ _, ⟨_, rfl, rfl⟩, fun h => ?_⟩
  have hsame := h.content [submission 2 [120] 2, submission 1 [120] 1] (List.Perm.swap _ _ _)
  have hinputs := congrArg (fun c => c.map Prod.fst) hsame
  exact absurd hinputs (by decide)

end CloakBridge.Mpt
