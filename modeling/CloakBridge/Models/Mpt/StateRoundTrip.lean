import CloakBridge.Models.Mpt.SealedStates

/-!
# The round trip of states

The states that `encrypt_states` writes are read back by `decrypt_states` exactly when
each of them is. That depends on the old states at the places of owners, on the keys of
mappings, and on no mapping being owned by the TEE or an identifier, whose number of keys
would be encrypted.
-/

namespace CloakBridge.Mpt

open Std Evm Abicoder CloakPolicyTransaction List
open Tee (Address)

variable {J : Type} [StateJson J]

/-! ### The addresses of owners -/

variable {σ : Type}

section

variable {tx : CloakPolicyTransaction J} {call : Nat × Nat} {calls : List (Nat × Nat)}
  {name : ByteString} {address : Address} {addresses addresses' : ExtTreeMap ByteString ByteString}

/-- The call is that of a state with a kind and an owner. -/
def IsDescribed (tx : CloakPolicyTransaction J) (call : Nat × Nat) : Prop :=
  ∃ state kind owner, tx.states[call.1]? = some state ∧
    state.kind = some kind ∧ state.ownedBy = some owner

variable {ε α : Type}

private theorem NamesOwner.unique {name' : ByteString} (h : NamesOwner tx name call)
    (h' : NamesOwner tx name' call) : name = name' := by
  obtain ⟨state, hstate, rfl, -⟩ := h
  obtain ⟨state', hstate', rfl, -⟩ := h'
  cases hstate.symm.trans hstate'
  rfl

omit [StateJson J] in
private theorem ReadsAddress.unique {address' : Address} (h : ReadsAddress tx call address)
    (h' : ReadsAddress tx call address') : address = address' := by
  obtain ⟨text, htext, hread⟩ := h
  obtain ⟨text', htext', hread'⟩ := h'
  cases htext.symm.trans htext'
  exact Except.ok.inj (hread.symm.trans hread')

private theorem not_hasAddress_nil : ¬HasAddress tx [] name address := by
  rintro ⟨before, call, after, h, -⟩
  simp at h

private theorem hasAddress_cons : HasAddress tx (call :: calls) name address ↔
    HasAddress tx calls name address ∨
      NamesOwner tx name call ∧ (∀ other ∈ calls, ¬NamesOwner tx name other) ∧
        ReadsAddress tx call address := by
  constructor
  · rintro ⟨before, last, after, hsplit, hnames, hafter, hreads⟩
    cases before with
    | nil =>
      cases hsplit
      exact .inr ⟨hnames, hafter, hreads⟩
    | cons first before =>
      cases hsplit
      exact .inl ⟨before, last, after, rfl, hnames, hafter, hreads⟩
  · rintro (⟨before, last, after, rfl, hlast⟩ | ⟨hnames, hafter, hreads⟩)
    · exact ⟨call :: before, last, after, rfl, hlast⟩
    · exact ⟨[], call, calls, rfl, hnames, hafter, hreads⟩

private theorem liftExcept_ok (a : α) :
    (liftExcept (.ok a : Except ε α) : EStateM ε σ α) = pure a := rfl

private theorem liftExcept_eq_ok {x : Except ε α} {s s' : σ} {a : α} :
    (liftExcept x : EStateM ε σ α) s = .ok a s' ↔ x = .ok a ∧ s' = s := by
  cases x with
  | ok b =>
    rw [liftExcept_ok, pure_eq_ok, Except.ok.injEq]
    exact and_congr_left fun _ => eq_comm
  | error e =>
    constructor
    · intro h
      cases h
    · rintro ⟨h, -⟩
      cases h

private theorem noteAddress_eq_ok (h : IsDescribed tx call) :
    tx.noteAddress call.1 call.2 addresses = .ok () addresses' ↔
      (∀ name, ¬NamesOwner tx name call) ∧ addresses' = addresses ∨
      ∃ name address, NamesOwner tx name call ∧ ReadsAddress tx call address ∧
        addresses' = addresses.insert name (toChecksumAddress address) := by
  obtain ⟨state, kind, owner, hstate, hkind, howner⟩ := h
  have hnames : ∀ name, NamesOwner tx name call ↔
      state.name = name ∧ kind = .address ∧ owner = .all := by
    intro name
    rw [NamesOwner]
    simp only [hstate, Option.some.injEq]
    constructor
    · rintro ⟨_, rfl, hname, hkind', howner'⟩
      exact ⟨hname, Option.some.inj (hkind.symm.trans hkind'),
        Option.some.inj (howner.symm.trans howner')⟩
    · rintro ⟨hname, rfl, rfl⟩
      exact ⟨state, rfl, hname, hkind, howner⟩
  simp only [noteAddress, element_eq_ok.mpr hstate, liftExcept_ok,
    pure_bind, described_eq_ok.mpr hkind, described_eq_ok.mpr howner, hnames]
  by_cases hboth : kind = .address ∧ owner = .all
  · rw [if_pos hboth]
    simp only [bind_eq_ok, liftExcept_eq_ok, element_eq_ok, orThrow_eq_ok, hboth, and_true]
    constructor
    · rintro ⟨text, _, ⟨htext, rfl⟩, read, _, ⟨hread, rfl⟩, hinsert⟩
      exact .inr
        ⟨state.name, read, rfl, ⟨text, htext, hread⟩, (EStateM.Result.ok.inj hinsert).2.symm⟩
    · rintro (⟨hnone, -⟩ | ⟨_, read, rfl, ⟨text, htext, hread⟩, rfl⟩)
      · exact absurd rfl (hnone state.name)
      · exact ⟨text, _, ⟨htext, rfl⟩, read, _, ⟨hread, rfl⟩, rfl⟩
  · rw [if_neg hboth]
    simp only [hboth, and_false, not_false_eq_true, implies_true, true_and, false_and,
      exists_false, or_false]
    rw [pure_eq_ok]
    simp [eq_comm]

private theorem collected_eq_ok {x : EStateM StateFailure σ Unit} {s s' : σ} :
    collected x s = .ok s' ↔ x s = .ok () s' := by
  rw [collected]
  cases x s <;> simp

/-- The addresses behind the calls are those of the last states that name their owners. -/
theorem getElem?_of_noteAddress (hdescribed : ∀ call ∈ calls, IsDescribed tx call)
    (h : (calls.forM fun call => tx.noteAddress call.1 call.2) addresses = .ok () addresses')
    (name text : ByteString) : addresses'[name]? = some text ↔
      (∃ address, HasAddress tx calls name address ∧ text = toChecksumAddress address) ∨
      (∀ call ∈ calls, ¬NamesOwner tx name call) ∧ addresses[name]? = some text := by
  induction calls generalizing addresses with
  | nil =>
    cases h
    simp [not_hasAddress_nil]
  | cons call calls ih =>
    obtain ⟨_, addresses₁, hcall, h⟩ := bind_eq_ok.mp h
    rw [ih (fun call hmem => hdescribed call (mem_cons_of_mem _ hmem)) h]
    simp only [hasAddress_cons, forall_mem_cons]
    rcases (noteAddress_eq_ok (hdescribed call mem_cons_self)).mp hcall with
      ⟨hnone, rfl⟩ | ⟨owner, address, howner, hreads, rfl⟩
    · simp only [hnone name, false_and, or_false, not_false_eq_true, true_and]
    · rw [ExtTreeMap.getElem?_insert]
      by_cases hname : owner = name
      · subst hname
        rw [if_pos (Std.compare_eq_iff_eq.mpr rfl)]
        simp only [howner, not_true, false_and, or_false, true_and, Option.some.injEq]
        constructor
        · rintro (⟨a, ha, rfl⟩ | ⟨hrest, rfl⟩)
          · exact ⟨a, .inl ha, rfl⟩
          · exact ⟨address, .inr ⟨hrest, hreads⟩, rfl⟩
        · rintro ⟨a, ha | ⟨hrest, ha⟩, rfl⟩
          · exact .inl ⟨a, ha, rfl⟩
          · exact .inr ⟨hrest, by rw [hreads.unique ha]⟩
      · have hother : ¬NamesOwner tx name call := fun h => hname (howner.unique h)
        rw [if_neg (fun h => hname (Std.compare_eq_iff_eq.mp h))]
        simp only [hother, false_and, or_false, not_false_eq_true, true_and]

/-- The traversal for addresses returns when the old states have them. -/
theorem exists_noteAddress_iff (hdescribed : ∀ call ∈ calls, IsDescribed tx call) :
    (∃ addresses', (calls.forM fun call => tx.noteAddress call.1 call.2) addresses =
      .ok () addresses') ↔ ReadsOwners tx calls := by
  induction calls generalizing addresses with
  | nil =>
    apply iff_of_true
    · exact ⟨addresses, rfl⟩
    · intro call hcall
      cases hcall
  | cons call calls ih =>
    have hnote {addresses₁ : ExtTreeMap ByteString ByteString} :=
      @noteAddress_eq_ok J _ tx call addresses addresses₁ (hdescribed call mem_cons_self)
    have hrest {addresses₁ : ExtTreeMap ByteString ByteString} := @ih addresses₁
      (fun call hmem => hdescribed call (mem_cons_of_mem _ hmem))
    constructor
    · rintro ⟨addresses', h⟩
      obtain ⟨_, addresses₁, hcall, h⟩ := bind_eq_ok.mp h
      have htail := hrest.mp ⟨addresses', h⟩
      intro other hother name hname
      rcases mem_cons.mp hother with rfl | hother
      · rcases hnote.mp hcall with ⟨hnone, -⟩ | ⟨_, address, -, hreads, -⟩
        · exact absurd hname (hnone name)
        · exact ⟨address, hreads⟩
      · exact htail other hother name hname
    · intro h
      have htail : ReadsOwners tx calls := fun other hother => h other (mem_cons_of_mem _ hother)
      by_cases hname : ∃ name, NamesOwner tx name call
      · obtain ⟨name, hname⟩ := hname
        obtain ⟨address, hreads⟩ := h call mem_cons_self name hname
        obtain ⟨addresses', hrun⟩ := hrest.mpr htail
        exact ⟨addresses', (bind_of_ok (hnote.mpr (.inr ⟨name, address, hname, hreads, rfl⟩))).trans
          hrun⟩
      · obtain ⟨addresses', hrun⟩ := hrest.mpr htail
        exact ⟨addresses', (bind_of_ok (hnote.mpr (.inl ⟨not_exists.mp hname, rfl⟩))).trans hrun⟩

end

/-! ### Traversals -/

/-- Where the segments of the states start. -/
def places (order : List Nat) (segments : List (List ByteString)) : List (Nat × Nat) :=
  order.zip (starts 0 segments)

variable {segment encrypted decrypted newStates : List ByteString} {idx id : Nat} {state : Params J}
  {addresses : ExtTreeMap ByteString ByteString} {calls : List (Nat × Nat)}
  {states : List (Params J)}

private theorem length_starts (i : Nat) (segments : List (List ByteString)) :
    (starts i segments).length = segments.length := by
  induction segments generalizing i with
  | nil => rfl
  | cons segment segments ih => rw [starts, length_cons, ih, length_cons]

section

variable {order : List Nat} {segments : List (List ByteString)} {k : Nat} {call : Nat × Nat}

private theorem getElem?_places : (places order segments)[k]? = some call ↔
    order[k]? = some call.1 ∧ (starts 0 segments)[k]? = some call.2 := by
  rw [places, List.getElem?_zip_eq_some]

private theorem stands_of_getElem? (hsegment : segments[k]? = some segment)
    (hidx : (starts 0 segments)[k]? = some idx) : Stands segment segments.flatten idx :=
  (forall₂_iff_getElem?.mp (stands_starts [] segments)).2 k segment idx hsegment hidx

private theorem length_places (h : order.length = segments.length) :
    (places order segments).length = order.length := by
  rw [places, length_zip, length_starts, h, Nat.min_self]

end

section

variable [StateTexts J] {tx : CloakPolicyTransaction J} {tee : PublicKey} {c : StateCipher}
  {entropy : Entropy} {order : List Nat} {segments encrypteds : List (List ByteString)}

/-- The addresses that the first traversal notes. -/
abbrev Notes (tx : CloakPolicyTransaction J) (calls : List (Nat × Nat))
    (addresses : ExtTreeMap ByteString ByteString) : Prop :=
  (calls.forM fun call => tx.noteAddress call.1 call.2) ∅ = .ok () addresses

/-- The segments as they are encrypted one by one. -/
abbrev encryptAll (tx : CloakPolicyTransaction J) (tee : PublicKey) (c : StateCipher)
    (entropy : Entropy) (addresses : ExtTreeMap ByteString ByteString) (order : List Nat)
    (segments : List (List ByteString)) : Except StateFailure (List (List ByteString)) :=
  (places order segments).mapM fun call =>
    tx.encryptState tee c entropy addresses segments.flatten call.1 call.2

private theorem ArePlain.visitStates_eq (h : ArePlain tx order segments)
    (hlt : segments.flatten.length < 2 ^ 64) (f : Nat → Nat → EStateM StateFailure σ Unit) :
    visitStates tx.states segments.flatten false f =
      (places order segments).forM fun call => f call.1 call.2 := by
  apply @visitFrom_of_segments J _ tx.states false tx.function σ f order segments ?_ [] _ hlt
    (Nat.le_refl _)
  apply h.imp
  rintro id segment ⟨state, hstate, hplain⟩
  exact ⟨state, hstate, hplain.isSegment fun owner _ => by simp [factor]⟩

private theorem ArePlain.length_eq (h : ArePlain tx order segments) :
    order.length = segments.length :=
  (forall₂_iff_getElem?.mp h).1

private theorem IsPlain.described (h : IsPlain tx id state segment) :
    ∃ kind owner, state.kind = some kind ∧
      state.ownedBy = some owner := by
  cases h with
  | scalar hkind hscalar howner => exact ⟨_, _, hkind, howner⟩
  | mapping hkind hdepth howner => exact ⟨_, _, hkind, howner⟩

private theorem ArePlain.isDescribed (h : ArePlain tx order segments) :
    ∀ call ∈ places order segments, IsDescribed tx call := by
  intro call hcall
  obtain ⟨k, hk⟩ := List.getElem?_of_mem hcall
  obtain ⟨hlength, hplain⟩ := forall₂_iff_getElem?.mp h
  obtain ⟨hid, -⟩ := getElem?_places.mp hk
  have hlt := (List.getElem?_eq_some_iff.mp hid).1
  obtain ⟨state, hstate, hplain⟩ := hplain k _ _ hid (List.getElem?_eq_getElem (hlength ▸ hlt))
  obtain ⟨kind, owner, hkind, howner⟩ := hplain.described
  exact ⟨state, kind, owner, hstate, hkind, howner⟩

/-- `encrypt_states` reads the addresses and encrypts the segments one by one. -/
theorem ArePlain.encryptStates_eq_ok (h : ArePlain tx order segments)
    (hlt : segments.flatten.length < 2 ^ 64) :
    tx.encryptStates tee c entropy segments.flatten = .ok encrypted ↔ ∃ addresses encrypteds,
        Notes tx (places order segments) addresses ∧
        encryptAll tx tee c entropy addresses order segments = .ok encrypteds ∧
        encrypted = encrypteds.flatten := by
  rw [encryptStates, except_bind_eq_ok]
  simp only [ownerAddresses, h.visitStates_eq hlt]
  constructor
  · rintro ⟨addresses, haddresses, hrun⟩
    obtain ⟨encrypteds, hmap, rfl⟩ := collected_appending.mp hrun
    exact ⟨addresses, encrypteds, collected_eq_ok.mp haddresses, hmap, rfl⟩
  · rintro ⟨addresses, encrypteds, haddresses, hmap, rfl⟩
    exact ⟨addresses, collected_eq_ok.mpr haddresses,
      collected_appending.mpr ⟨encrypteds, hmap, rfl⟩⟩

/-- `decrypt_states` decrypts the segments one by one. -/
theorem decryptStates_eq_ok (h : AreSegments tx.states tx.function true order encrypteds)
    (hlt : encrypteds.flatten.length < 2 ^ 64) :
    decryptStates { tx with oldStates := encrypteds.flatten } tee c = .ok decrypted ↔
      ∃ decrypteds, (places order encrypteds).mapM (fun call =>
          decryptState { tx with oldStates := encrypteds.flatten } tee c
            call.1 call.2) = .ok decrypteds ∧ decrypted = decrypteds.flatten := by
  have hvisit := @visitFrom_of_segments J _ tx.states true tx.function _
    (appending (decryptState
      { tx with oldStates := encrypteds.flatten } tee c)) order encrypteds h []
    encrypteds.flatten.length hlt (Nat.le_refl _)
  have hcollect : decryptStates { tx with oldStates := encrypteds.flatten }
      tee c = collected ((places order encrypteds).forM fun call =>
        appending (decryptState
          { tx with oldStates := encrypteds.flatten } tee c) call.1 call.2) [] :=
    collected_congr (congrFun hvisit [])
  rw [hcollect, collected_appending]
  rfl

private theorem encryptAs_owned {texts : List ByteString} {owner : Owner} {value : ByteString}
    (hvalue : element newStates (sizeT (idx + 1)) = .ok value) (hall : owner ≠ .all)
    (hkeys : ∀ var varPos, owner ≠ .mapping var varPos)
    (h : tx.encryptAs tee c entropy addresses newStates state idx owner = .ok texts) :
    ∃ der sender, texts = c.sealValue der (entropy.iv idx 0) value sender := by
  cases owner with
  | all => exact absurd rfl hall
  | mapping var varPos => exact absurd rfl (hkeys var varPos)
  | tee =>
    cases (encryptAs_tee hvalue).symm.trans h
    exact ⟨_, _, rfl⟩
  | identifier name =>
    obtain ⟨sender, der, -, -, rfl⟩ := (encryptAs_identifier hvalue).mp h
    exact ⟨_, _, rfl⟩

private theorem IsPlain.length_encrypted_le (h : IsPlain tx id state segment)
    (hstate : tx.states[id]? = some state) (hstands : Stands segment newStates idx)
    (hnew : newStates.length < 2 ^ 64)
    (hencrypt : tx.encryptState tee c entropy addresses newStates id idx = .ok encrypted) :
    encrypted.length ≤ 2 * segment.length := by
  have hplain := h
  cases h with
  | @scalar kind owner place value hkind hscalar howner hplace hvalue =>
    obtain ⟨texts, htexts, rfl⟩ :=
      (encryptState_eq_ok hstate hstands.getElem?_place howner).mp hencrypt
    cases owner with
    | all =>
      cases (hplain.encryptAs_all hstands hnew).symm.trans htexts
      simp
    | mapping var varPos => exact absurd htexts (encryptAs_keys_scalar hkind hscalar)
    | tee =>
      obtain ⟨der, sender, rfl⟩ := encryptAs_owned (hstands.element_eq hnew (k := 1) rfl)
        (by simp) (by simp) htexts
      exact Nat.le_refl 4
    | identifier name =>
      obtain ⟨der, sender, rfl⟩ := encryptAs_owned (hstands.element_eq hnew (k := 1) rfl)
        (by simp) (by simp) htexts
      exact Nat.le_refl 4
  | @mapping depth owner place count size entries hkind hdepth howner hplace hcount hread hsize
      hentries hwords hkeys hvalues =>
    obtain ⟨texts, htexts, rfl⟩ :=
      (encryptState_eq_ok hstate hstands.getElem?_place howner).mp hencrypt
    have hget := hstands.element_eq hnew (k := 1) rfl
    cases owner with
    | all =>
      cases (hplain.encryptAs_all hstands hnew).symm.trans htexts
      omega
    | mapping var varPos =>
      have hkeyed : Keyed tx state.name depth.toNat entries :=
        ⟨hdepth, hentries, hwords, hkeys (by simp), hvalues⟩
      obtain ⟨outs, houts, rfl⟩ := (encryptAs_keys hkind hkeyed.mappingKeys_eq hget).mp htexts
      have hmul : (depth.toNat + 3) * entries.length ≤
          2 * ((depth.toNat + 1) * entries.length) := by
        rw [← Nat.mul_assoc]
        exact Nat.mul_le_mul_right _ (by omega)
      rw [length_cons, length_cons, length_cons, length_cons,
        length_flatten_of_forall (hkeyed.length_encryptEntry hstands hnew houts),
        (mapM_range_eq_ok.mp houts).1, ← hentries, length_flatMap_of_forall (length_entry hwords)]
      omega
    | tee | identifier _ =>
      obtain ⟨der, sender, rfl⟩ := encryptAs_owned hget (by simp) (by simp) htexts
      rw [StateCipher.sealValue, length_cons, length_cons, length_cons,
        length_cons, length_nil, length_cons, length_cons]
      omega

private theorem ArePlain.forall_encrypted (h : ArePlain tx order segments)
    (hmap : encryptAll tx tee c entropy addresses order segments = .ok encrypteds) :
    segments.length = encrypteds.length ∧
      ∀ (k : Nat) segment encrypted, segments[k]? = some segment → encrypteds[k]? = some encrypted →
        ∃ id idx state, order[k]? = some id ∧ tx.states[id]? = some state ∧
          IsPlain tx id state segment ∧ Stands segment segments.flatten idx ∧
          tx.encryptState tee c entropy addresses segments.flatten id idx = .ok encrypted := by
  obtain ⟨hlength, hplain⟩ := forall₂_iff_getElem?.mp h
  obtain ⟨hlength', hrounds⟩ := forall₂_iff_getElem?.mp (mapM_eq_ok.mp hmap)
  rw [length_places hlength] at hlength'
  refine ⟨hlength.symm.trans hlength', ?_⟩
  intro k segment encrypted hsegment hencrypted
  have hk := (List.getElem?_eq_some_iff.mp hsegment).1
  have hid := List.getElem?_eq_getElem (hlength.symm ▸ hk)
  have hidx := List.getElem?_eq_getElem ((length_starts 0 segments).symm ▸ hk)
  obtain ⟨state, hstate, hstatePlain⟩ := hplain k _ _ hid hsegment
  exact ⟨_, _, state, hid, hstate, hstatePlain, stands_of_getElem? hsegment hidx,
    hrounds k (_, _) _ (getElem?_places.mpr ⟨hid, hidx⟩) hencrypted⟩

private theorem ArePlain.length_encrypted_lt (h : ArePlain tx order segments)
    (hlt : segments.flatten.length < 2 ^ 63)
    (hmap : encryptAll tx tee c entropy addresses order segments = .ok encrypteds) :
    encrypteds.flatten.length < 2 ^ 64 := by
  obtain ⟨hlength, hall⟩ := h.forall_encrypted hmap
  have hle : encrypteds.flatten.length ≤ 2 * segments.flatten.length := by
    apply length_flatten_le_of_forall₂
    apply forall₂_iff_getElem?.mpr ⟨hlength.symm, ?_⟩
    intro k encrypted segment hencrypted hsegment
    obtain ⟨id, idx, state, -, hstate, hplain, hstands, hencrypt⟩ :=
      hall k segment encrypted hsegment hencrypted
    exact hplain.length_encrypted_le hstate hstands (by omega) hencrypt
  omega

/-! ### States that are treated as what they are -/

/-- Each state of the vector comes back. -/
def AllRecover (tx : CloakPolicyTransaction J) (tee : PublicKey) (order : List Nat)
    (segments : List (List ByteString)) : Prop :=
  List.Forall₂ (fun id segment => ∃ state, tx.states[id]? = some state ∧
    Recovers tx tee (places order segments) state segment) order segments

/-- The segments are encrypted so that each can be read back. -/
structure AreSealed (tx : CloakPolicyTransaction J) (tee : PublicKey) (c : StateCipher)
    (calls : List (Nat × Nat)) (order : List Nat) (segments encrypteds : List (List ByteString)) :
    Prop where
  length_order : order.length = segments.length
  length_segments : segments.length = encrypteds.length
  sealed : ∀ (k : Nat) segment encrypted, segments[k]? = some segment →
    encrypteds[k]? = some encrypted → ∃ id state, order[k]? = some id ∧
      tx.states[id]? = some state ∧
      Sealed tx tee c id state segment encrypted (Recovers tx tee calls state segment)

private theorem AreSealed.isSegment (h : AreSealed tx tee c calls order segments encrypteds) :
    AreSegments tx.states tx.function true order encrypteds := by
  apply forall₂_iff_getElem?.mpr ⟨h.length_order.trans h.length_segments, ?_⟩
  intro k id encrypted hid hencrypted
  have hk := (List.getElem?_eq_some_iff.mp hencrypted).1
  obtain ⟨_, state, hid', hstate, hsealed⟩ := h.sealed k _ encrypted
    (List.getElem?_eq_getElem (h.length_segments.symm ▸ hk)) hencrypted
  cases hid.symm.trans hid'
  exact ⟨state, hstate, hsealed.isSegment⟩

/-- Each segment is read back, as what it was if it recovers. -/
theorem AreSealed.decryptState_eq {k : Nat} {call : Nat × Nat}
    (h : AreSealed tx tee c calls order segments encrypteds)
    (hlt : encrypteds.flatten.length < 2 ^ 64) (hcall : (places order encrypteds)[k]? = some call) :
    ∃ segment state decrypted, segments[k]? = some segment ∧ tx.states[call.1]? = some state ∧
      decryptState { tx with oldStates := encrypteds.flatten } tee c call.1 call.2 = .ok decrypted ∧
      decrypted.length = segment.length ∧
      (decrypted = segment ↔ Recovers tx tee calls state segment) := by
  obtain ⟨hid, hidx⟩ := getElem?_places.mp hcall
  have hk := (List.getElem?_eq_some_iff.mp hidx).1
  rw [length_starts] at hk
  have hsegment := List.getElem?_eq_getElem (h.length_segments.symm ▸ hk)
  have hencrypted := List.getElem?_eq_getElem hk
  obtain ⟨id, state, hid', hstate, hsealed⟩ := h.sealed k _ _ hsegment hencrypted
  cases hid.symm.trans hid'
  obtain ⟨decrypted, hok, hlength, hiff⟩ :=
    hsealed.opened _ _ (stands_of_getElem? hencrypted hidx) hlt
  exact ⟨_, state, decrypted, hsegment, hstate, hok, hlength, hiff⟩

/-- The sealed states are decrypted to what they were exactly when each comes back. -/
theorem AreSealed.decryptStates_iff
    (h : AreSealed tx tee c (places order segments) order segments encrypteds)
    (hlt : encrypteds.flatten.length < 2 ^ 64) :
    decryptStates { tx with oldStates := encrypteds.flatten } tee c =
      .ok segments.flatten ↔ AllRecover tx tee order segments := by
  have hlength : (places order encrypteds).length = segments.length := by
    rw [length_places (h.length_order.trans h.length_segments), h.length_order]
  rw [decryptStates_eq_ok h.isSegment hlt]
  constructor
  · rintro ⟨decrypteds, hmap, hflatten⟩
    obtain ⟨hcount, hrounds⟩ := forall₂_iff_getElem?.mp (mapM_eq_ok.mp hmap)
    have hlengths : segments.map List.length = decrypteds.map List.length := by
      apply ext_getElem
      · rw [length_map, length_map, ← hcount, hlength]
      · intro k hk hk'
        rw [length_map] at hk hk'
        have hcall := List.getElem?_eq_getElem (hlength.symm ▸ hk)
        obtain ⟨segment, state, decrypted, hsegment, -, hok, hlen, -⟩ := h.decryptState_eq hlt hcall
        cases (hrounds k _ _ hcall (List.getElem?_eq_getElem hk')).symm.trans hok
        cases (List.getElem?_eq_getElem hk).symm.trans hsegment
        rw [getElem_map, getElem_map, hlen]
    have hsame := eq_iff_flatten_eq.mpr ⟨hflatten, hlengths⟩
    apply forall₂_iff_getElem?.mpr ⟨h.length_order, ?_⟩
    intro k id segment hid hget
    have hk := (List.getElem?_eq_some_iff.mp hget).1
    have hcall := List.getElem?_eq_getElem (hlength.symm ▸ hk)
    obtain ⟨segment', state, decrypted, hsegment, hstate, hok, -, hiff⟩ :=
      h.decryptState_eq hlt hcall
    cases hget.symm.trans hsegment
    cases hid.symm.trans (getElem?_places.mp hcall).1
    have hdecrypted := hrounds k _ segment hcall (hsame ▸ hget)
    exact ⟨state, hstate, hiff.mp (Except.ok.inj (hok.symm.trans hdecrypted))⟩
  · intro hall
    refine ⟨segments, mapM_eq_ok.mpr (forall₂_iff_getElem?.mpr ⟨hlength, ?_⟩), rfl⟩
    intro k call segment hcall hget
    obtain ⟨segment', state, decrypted, hsegment, hstate, hok, -, hiff⟩ :=
      h.decryptState_eq hlt hcall
    cases hget.symm.trans hsegment
    obtain ⟨state', hstate', hrecovers⟩ :=
      (forall₂_iff_getElem?.mp hall).2 k _ _ (getElem?_places.mp hcall).1 hget
    cases hstate.symm.trans hstate'
    rw [hok, hiff.mpr hrecovers]

/-- The traversal fills the table with the addresses of the last states of each name. -/
theorem ArePlain.readsAddresses (h : ArePlain tx order segments)
    (hrun : Notes tx (places order segments) addresses) :
    ReadsAddresses tx (places order segments) addresses := by
  intro name text
  rw [getElem?_of_noteAddress h.isDescribed hrun]
  simp

/-- Where no mapping is treated as a scalar, the states come back exactly when the owners'
addresses are read and each state comes back. -/
theorem ArePlain.roundTrips_iff (h : ArePlain tx order segments) (hc : c.Lawful)
    (hlt : segments.flatten.length < 2 ^ 63)
    (hshape : ∀ id ∈ order, ∀ state, tx.states[id]? = some state → ¬TreatedAsScalar state) :
    tx.RoundTrips tee c entropy segments.flatten ↔
      ReadsOwners tx (places order segments) ∧ AllRecover tx tee order segments := by
  have hnew : segments.flatten.length < 2 ^ 64 := by omega
  obtain ⟨hlength, hplain⟩ := forall₂_iff_getElem?.mp h
  have hsealed {addresses : ExtTreeMap ByteString ByteString} {encrypteds : List (List ByteString)}
      (haddresses : Notes tx (places order segments) addresses)
      (hmap : encryptAll tx tee c entropy addresses order segments = .ok encrypteds) :
      AreSealed tx tee c (places order segments) order segments encrypteds := by
    obtain ⟨hcount, hall⟩ := h.forall_encrypted hmap
    refine ⟨hlength, hcount, ?_⟩
    intro k segment encrypted hsegment hencrypted
    obtain ⟨id, idx, state, hid, hstate, hsegmentPlain, hstands, hencrypt⟩ :=
      hall k segment encrypted hsegment hencrypted
    exact ⟨id, state, hid, hstate, hsegmentPlain.sealed hc
      (hshape id (mem_of_getElem? hid) state hstate) (h.readsAddresses haddresses) hstate
      hstands hnew hencrypt⟩
  constructor
  · rintro ⟨encrypted, hencrypt, hdecrypt⟩
    obtain ⟨addresses, encrypteds, haddresses, hmap, rfl⟩ :=
      (h.encryptStates_eq_ok hnew).mp hencrypt
    refine ⟨(exists_noteAddress_iff h.isDescribed).mp ⟨addresses, haddresses⟩, ?_⟩
    exact ((hsealed haddresses hmap).decryptStates_iff (h.length_encrypted_lt hlt hmap)).mp hdecrypt
  · rintro ⟨howners, hall⟩
    obtain ⟨addresses, haddresses⟩ := (exists_noteAddress_iff h.isDescribed).mpr howners
    have hreturns : ∃ encrypteds, encryptAll tx tee c entropy addresses order segments =
        .ok encrypteds := by
      apply exists_mapM_of_forall
      intro call hcall
      obtain ⟨k, hk⟩ := List.getElem?_of_mem hcall
      obtain ⟨hid, hidx⟩ := getElem?_places.mp hk
      have hlt := (List.getElem?_eq_some_iff.mp hid).1
      have hsegment := List.getElem?_eq_getElem (hlength ▸ hlt)
      obtain ⟨state, hstate, hsegmentPlain⟩ := hplain k _ _ hid hsegment
      obtain ⟨state', hstate', hrecovers⟩ := (forall₂_iff_getElem?.mp hall).2 k _ _ hid hsegment
      cases hstate.symm.trans hstate'
      exact hsegmentPlain.exists_encryptState (h.readsAddresses haddresses) hstate
        (stands_of_getElem? hsegment hidx) hnew hrecovers
    obtain ⟨encrypteds, hmap⟩ := hreturns
    refine ⟨encrypteds.flatten, (h.encryptStates_eq_ok hnew).mpr
      ⟨addresses, encrypteds, haddresses, hmap, rfl⟩, ?_⟩
    exact ((hsealed haddresses hmap).decryptStates_iff (h.length_encrypted_lt hlt hmap)).mpr hall

end

/-! ### A mapping that is treated as a scalar -/

/-- The cursor goes from the state at one position to that at another. -/
def StateFollows (states : List (Params J)) (v : List ByteString) (encrypted : Bool)
    (i j : BitVec 64) : Prop :=
  i.toNat < v.length ∧ advance states v encrypted i = .ok j

/-- A traversal that returns has called its visitor at every position the cursor reaches. -/
theorem exists_call_of_visitFrom {v : List ByteString} {encrypted : Bool}
    {f : Nat → Nat → EStateM StateFailure σ Unit} {fuel : Nat} {i j : BitVec 64} {s s' : σ}
    (h : visitFrom states v encrypted f fuel i s = .ok () s')
    (hreaches : Relation.ReflTransGen (StateFollows states v encrypted) i j)
    (hj : j.toNat < v.length) :
    ∃ text s₁ s₂, v[j.toNat]? = some text ∧ f (toUint64 text).toNat j.toNat s₁ = .ok () s₂ := by
  induction fuel generalizing i s with
  | zero =>
    have hi : i.toNat < v.length := by
      rcases Relation.ReflTransGen.cases_head hreaches with rfl | ⟨k, hik, -⟩
      · exact hj
      · exact hik.1
    rw [visitFrom, if_pos hi] at h
    cases h
  | succ fuel ih =>
    have hi : i.toNat < v.length := by
      rcases Relation.ReflTransGen.cases_head hreaches with rfl | ⟨k, hik, -⟩
      · exact hj
      · exact hik.1
    have htext := List.getElem?_eq_getElem hi
    simp only [visitFrom, htext] at h
    obtain ⟨_, s₁, hcall, hbehind⟩ := bind_eq_ok.mp h
    obtain ⟨next, s₂, hnext, hrest⟩ := bind_eq_ok.mp hbehind
    rcases Relation.ReflTransGen.cases_head hreaches with rfl | ⟨k, hik, hkj⟩
    · exact ⟨_, s, s₁, htext, hcall⟩
    · obtain ⟨hadvance, rfl⟩ := liftExcept_eq_ok.mp hnext
      cases hik.2.symm.trans hadvance
      exact ih hrest hkj

/-- The cursor goes from segment to segment, whatever stands behind them. -/
theorem reaches_of_segments {states : List (Params J)} {function : Function J} {encrypted : Bool}
    {order : List Nat} {segments : List (List ByteString)}
    (h : AreSegments states function encrypted order segments)
    {start rest : List ByteString} (hlt : (start ++ segments.flatten ++ rest).length < 2 ^ 64) :
    Relation.ReflTransGen (StateFollows states (start ++ segments.flatten ++ rest) encrypted)
      (BitVec.ofNat 64 start.length)
      (BitVec.ofNat 64 (start.length + segments.flatten.length)) := by
  induction h generalizing start with
  | nil => exact .refl
  | @cons id segment order segments hhead htail ih =>
    obtain ⟨state, hstate, hsegment⟩ := hhead
    have hwhole : start ++ (segment :: segments).flatten ++ rest =
        start ++ segment ++ (segments.flatten ++ rest) := by simp
    have htail := @ih (start ++ segment) (by rw [append_assoc, append_assoc start,
      ← append_assoc segment, ← flatten_cons, ← append_assoc]; exact hlt)
    have hbehind : start ++ segment ++ segments.flatten ++ rest =
        start ++ segment ++ (segments.flatten ++ rest) := by simp
    rw [hwhole] at hlt ⊢
    rw [hbehind, length_append] at htail
    have hadvance := hsegment.advance_eq hlt
    have hpos := hsegment.length_pos
    obtain ⟨place, texts, rfl, hplace⟩ := hsegment.exists_place
    have hstart : start.length < 2 ^ 64 := by
      rw [length_append, length_append] at hlt
      omega
    have hget : (start ++ (place :: texts) ++ (segments.flatten ++ rest))[
        (BitVec.ofNat 64 start.length).toNat]? = some place := by
      rw [toNat_ofNat_of_lt hstart, append_assoc, List.getElem?_append_right (Nat.le_refl _)]
      simp
    have hround := advance_of_state hget (hplace ▸ hstate) |>.trans hadvance
    rw [flatten_cons, length_append, ← Nat.add_assoc]
    apply Relation.ReflTransGen.head ⟨?_, hround⟩ htail
    exact (List.getElem?_eq_some_iff.mp hget).1

private theorem masked_self (mask : ByteString) :
    masked mask mask = List.replicate mask.length 0 := by
  apply ext_getElem
  · simp [masked]
  · intro i hi hi'
    rw [length_replicate] at hi'
    simp [masked, hi']

/-- A cipher that hides one plaintext as zeros, with a tag of ones. -/
def maskingCipher (mask : ByteString) : StateCipher where
  encrypt _ _ plain := (masked mask plain, List.replicate 16 255)
  decrypt _ _ data := some (masked mask (data.take (data.length - 16)))
  splitTagAndIv data := (data.take 16, data.drop 16)

private theorem lawful_maskingCipher (mask : ByteString) : (maskingCipher mask).Lawful where
  length_cipher _ _ plain := by simp [maskingCipher, masked]
  length_tag _ _ _ := by simp [maskingCipher]
  decrypt_encrypt _ _ plain _ := by simp [maskingCipher, masked_masked]
  splitTagAndIv_append tag iv htag _ := by simp [maskingCipher, ← htag]

/-- Initialisation vectors of zeros. -/
def zeroEntropy : Entropy := ⟨fun _ _ => List.replicate 12 0, fun _ _ => length_replicate⟩

private theorem toUint64_zeros (n : Nat) : toUint64 (toHexString (List.replicate n 0)) = 0 := by
  have hvalue : hexValue (hexOfBytes (List.replicate n 0)) = 0 := by
    rw [hexValue_hexOfBytes, fromBigEndian_replicate_zero]
  rw [toHexString, toUint64_hexPrefix (isHex_hexOfBytes _) (by rw [hvalue]; decide), hvalue]
  rfl

private theorem toUint64_onesTag :
    toUint64 (toHexString (List.replicate 16 255 ++ List.replicate 12 0)) = BitVec.allOnes 64 := by
  decide +kernel

section

variable [StateTexts J] {tx : CloakPolicyTransaction J} {tee : PublicKey} {order : List Nat}
  {segments encrypteds : List (List ByteString)} {k : Nat}

/-- The state with this number is a mapping that is treated as a scalar. -/
def TreatedAt (tx : CloakPolicyTransaction J) (order : List Nat) (k : Nat) : Prop :=
  ∃ id state, order[k]? = some id ∧ tx.states[id]? = some state ∧ TreatedAsScalar state

variable {c : StateCipher} {entropy : Entropy} {rest : List ByteString}
  {place cipher tag sender : ByteString}

private theorem IsPlain.exists_treated (h : IsPlain tx id state segment)
    (htreated : TreatedAsScalar state)
    (hstate : tx.states[id]? = some state) (hstands : Stands segment newStates idx)
    (hnew : newStates.length < 2 ^ 64)
    (hencrypt : tx.encryptState tee c entropy addresses newStates id idx = .ok encrypted) :
    ∃ place count der sender, segment[1]? = some count ∧ (toUint64 place).toNat = id ∧
      encrypted = place :: c.sealValue der (entropy.iv idx 0) count sender := by
  obtain ⟨depth, owner, hkind, howner, hall, hkeys⟩ := htreated
  cases h with
  | scalar hkind' hscalar =>
    exact absurd (Option.some.inj (hkind'.symm.trans hkind)) (hscalar depth)
  | mapping hkind' hdepth howner' hplace =>
    obtain ⟨texts, htexts, rfl⟩ :=
      (encryptState_eq_ok hstate hstands.getElem?_place howner).mp hencrypt
    obtain ⟨der, sender, rfl⟩ :=
      encryptAs_owned (hstands.element_eq hnew (k := 1) rfl) hall hkeys htexts
    exact ⟨_, _, der, sender, rfl, hplace, rfl⟩

omit [StateTexts J] in
/-- The cursor leaves a mapping whose number of keys is hidden as zeros behind its second text. -/
theorem follows_of_treated {start : List ByteString} (htreated : TreatedAsScalar state)
    (hstate : states[(toUint64 place).toNat]? = some state) (hcipher : toUint64 cipher = 0)
    (hlt : (start ++ place :: cipher :: tag :: sender :: rest).length < 2 ^ 64) :
    StateFollows states (start ++ place :: cipher :: tag :: sender :: rest) true
      (BitVec.ofNat 64 start.length) (BitVec.ofNat 64 (start.length + 2)) := by
  obtain ⟨depth, owner, hkind, howner, -⟩ := htreated
  rw [length_append] at hlt
  simp only [length_cons] at hlt
  have hstart := toNat_ofNat_of_lt (show start.length < 2 ^ 64 by omega)
  have hplace : (start ++ place :: cipher :: tag :: sender :: rest)[
      (BitVec.ofNat 64 start.length).toNat]? = some place := by
    rw [hstart, List.getElem?_append_right (Nat.le_refl _)]
    simp
  have hnext := toNat_ofNat_add_one (show start.length + 1 < 2 ^ 64 by omega)
  have hcount : (start ++ place :: cipher :: tag :: sender :: rest)[
      (BitVec.ofNat 64 start.length + 1).toNat]? = some cipher := by
    rw [hnext, List.getElem?_append_right (Nat.le_succ _)]
    simp
  refine ⟨(List.getElem?_eq_some_iff.mp hplace).1, ?_⟩
  rw [advance_of_state hplace hstate,
    Params.advance_mapping (Params.factor_of_owner howner) hkind hcount, hcipher, BitVec.ofNat_add]
  simp

private theorem ArePlain.isSegment_take (h : ArePlain tx order segments) (hc : c.Lawful)
    (hnew : segments.flatten.length < 2 ^ 64)
    (haddresses : ReadsAddresses tx (places order segments) addresses)
    (hmap : encryptAll tx tee c entropy addresses order segments = .ok encrypteds)
    (hfirst : ∀ m < k, ¬TreatedAt tx order m) :
    AreSegments tx.states tx.function true (order.take k) (encrypteds.take k) := by
  obtain ⟨hlength, hall⟩ := h.forall_encrypted hmap
  have hboth : order.length = encrypteds.length := h.length_eq.trans hlength
  apply forall₂_iff_getElem?.mpr ⟨by rw [length_take, length_take, hboth], ?_⟩
  intro m id encrypted hid hencrypted
  have hm : m < k := by
    have hlt := (List.getElem?_eq_some_iff.mp hid).1
    rw [length_take] at hlt
    omega
  rw [List.getElem?_take_of_lt hm] at hid hencrypted
  have hsegment := List.getElem?_eq_getElem
    (hlength.symm ▸ (List.getElem?_eq_some_iff.mp hencrypted).1)
  obtain ⟨id', idx, state, hid', hstate, hplain, hstands, hencrypt⟩ :=
    hall m _ encrypted hsegment hencrypted
  cases hid.symm.trans hid'
  have hshape : ¬TreatedAsScalar state :=
    fun htreated => hfirst m hm ⟨id, state, hid, hstate, htreated⟩
  exact ⟨state, hstate, (hplain.sealed hc hshape haddresses hstate hstands hnew hencrypt).isSegment⟩

/-- Where the number of keys is hidden as zeros and the tag is no place of a state, the traversal
of `decrypt_states` fails. -/
theorem not_decryptStates_of_treated {starts : List (List ByteString)}
    (htreated : TreatedAsScalar state) (hstate : tx.states[(toUint64 place).toNat]? = some state)
    (hstates : tx.states.length < 2 ^ 64) (hcipher : toUint64 cipher = 0)
    (htag : toUint64 tag = BitVec.allOnes 64)
    (hstarts : AreSegments tx.states tx.function true order starts)
    (hlt : (starts.flatten ++ place :: cipher :: tag :: sender :: rest).length < 2 ^ 64) :
    decryptStates
      { tx with oldStates := starts.flatten ++ place :: cipher :: tag :: sender :: rest } tee c ≠
      .ok decrypted := by
  intro h
  have hreaches := @reaches_of_segments J _ _ _ _ _ _ hstarts []
    (place :: cipher :: tag :: sender :: rest) hlt
  have hfollows := follows_of_treated htreated hstate hcipher hlt
  rw [length_nil, Nat.zero_add] at hreaches
  rw [length_append] at hlt
  simp only [length_cons] at hlt
  have hnext : (BitVec.ofNat 64 (starts.flatten.length + 2)).toNat = starts.flatten.length + 2 :=
    toNat_ofNat_of_lt (by omega)
  obtain ⟨text, s₁, s₂, htext, hcall⟩ := exists_call_of_visitFrom (collected_eq_ok.mp h)
    (hreaches.tail hfollows) (by rw [hnext, length_append]; simp)
  rw [hnext, List.getElem?_append_right (Nat.le_add_right _ _), Nat.add_sub_cancel_left] at htext
  cases htext
  obtain ⟨texts, s₃, hlift, -⟩ := bind_eq_ok.mp hcall
  obtain ⟨_, -, hvisit⟩ := except_bind_eq_ok.mp (liftExcept_eq_ok.mp hlift).1
  obtain ⟨found, hfound, -⟩ := except_bind_eq_ok.mp hvisit
  have hplace := (List.getElem?_eq_some_iff.mp (described_eq_ok.mp hfound)).1
  rw [htag, BitVec.toNat_allOnes] at hplace
  change _ < tx.states.length at hplace
  omega

/-- With a mapping that is treated as a scalar there is a cipher under which the states do not
come back: the cursor of `decrypt_states` reads the tag as the place of a state. -/
theorem ArePlain.exists_not_roundTrips (h : ArePlain tx order segments)
    (hlt : segments.flatten.length < 2 ^ 63) (hstates : tx.states.length < 2 ^ 64)
    (hk : TreatedAt tx order k) (hfirst : ∀ m < k, ¬TreatedAt tx order m) :
    ∃ mask, ¬tx.RoundTrips tee (maskingCipher mask) zeroEntropy segments.flatten := by
  have hnew : segments.flatten.length < 2 ^ 64 := by omega
  obtain ⟨id, state, hid, hstate, htreated⟩ := hk
  have hsegment := List.getElem?_eq_getElem (h.length_eq ▸ (List.getElem?_eq_some_iff.mp hid).1)
  refine ⟨evmToBytes ((segments[k]?.bind (·[1]?)).getD []), ?_⟩
  rintro ⟨encrypted, hencrypt, hdecrypt⟩
  obtain ⟨addresses, encrypteds, haddresses, hmap, rfl⟩ := (h.encryptStates_eq_ok hnew).mp hencrypt
  have hlength := h.length_encrypted_lt hlt hmap
  obtain ⟨hcount, hall⟩ := h.forall_encrypted hmap
  have hget := List.getElem?_eq_getElem (hcount ▸ (List.getElem?_eq_some_iff.mp hsegment).1)
  obtain ⟨id', idx, state', hid', hstate', hplain, hstands, henc⟩ := hall k _ _ hsegment hget
  cases hid.symm.trans hid'
  cases hstate.symm.trans hstate'
  obtain ⟨place, count, der, sender, hcountText, hplace, heq⟩ :=
    hplain.exists_treated htreated hstate hstands hnew henc
  have hmask : evmToBytes ((segments[k]?.bind (·[1]?)).getD []) = evmToBytes count := by
    rw [hsegment, Option.bind_some, hcountText, Option.getD_some]
  rw [hmask] at hmap hdecrypt heq
  have hdrop : (encrypteds.drop k).flatten = place ::
      toHexString (List.replicate (evmToBytes count).length 0) ::
      toHexString (List.replicate 16 255 ++ List.replicate 12 0) :: sender ::
      (encrypteds.drop (k + 1)).flatten := by
    rw [drop_eq_getElem_cons (List.getElem?_eq_some_iff.mp hget).1, flatten_cons, heq,
      ← masked_self]
    rfl
  have hwhole :
      encrypteds.flatten = (encrypteds.take k).flatten ++ (encrypteds.drop k).flatten := by
    rw [← flatten_append, take_append_drop]
  rw [hdrop] at hwhole
  exact not_decryptStates_of_treated htreated (hplace ▸ hstate) hstates (toUint64_zeros _)
    toUint64_onesTag (h.isSegment_take (lawful_maskingCipher _) hnew (h.readsAddresses haddresses)
      hmap hfirst) (hwhole ▸ hlength) (hwhole ▸ hdecrypt)

private theorem Recovers.not_treatedAsScalar (h : Recovers tx tee calls state segment) :
    ¬TreatedAsScalar state := by
  rintro ⟨depth, owner, hkind, howner, hall, hkeys⟩
  have hwhen := (recovers_mapping_iff hkind howner).mp h
  cases owner with
  | all => exact hall rfl
  | mapping var varPos => exact hkeys var varPos rfl
  | tee | identifier _ => exact hwhen

/-- The states of a policy come back under every lawful cipher exactly when the old states have an
address wherever a state names an owner, and each state comes back: a scalar of an owner with a
known key, whose address is not zero or whose value is; a mapping owned by its keys where for each
key the word with its number is the address of a public key, and its value is what stands where
a key of one word has it; and no mapping of the TEE or of an identifier. -/
theorem encryption_roundTrips_iff (tx : CloakPolicyTransaction J) (tee : PublicKey)
    (order : List Nat) (segments : List (List ByteString)) (hplain : ArePlain tx order segments)
    (hlt : segments.flatten.length < 2 ^ 63) (hstates : tx.states.length < 2 ^ 64) :
    (∀ c : StateCipher, c.Lawful → ∀ entropy, tx.RoundTrips tee c entropy segments.flatten) ↔
      ReadsOwners tx (places order segments) ∧ AllRecover tx tee order segments := by
  constructor
  · intro h
    have hnone : ∀ k, ¬TreatedAt tx order k := by
      intro k
      induction k using Nat.strong_induction_on with
      | _ k ih =>
        intro hk
        obtain ⟨mask, hnot⟩ := hplain.exists_not_roundTrips hlt hstates hk ih
        exact hnot (h _ (lawful_maskingCipher mask) zeroEntropy)
    have hshape : ∀ id ∈ order, ∀ state, tx.states[id]? = some state → ¬TreatedAsScalar state := by
      intro id hid state hstate htreated
      obtain ⟨k, hk⟩ := List.getElem?_of_mem hid
      exact hnone k ⟨id, state, hk, hstate, htreated⟩
    exact (hplain.roundTrips_iff (lawful_maskingCipher []) hlt hshape).mp
      (h _ (lawful_maskingCipher []) zeroEntropy)
  · rintro ⟨howners, hall⟩ c hc entropy
    have hshape : ∀ id ∈ order, ∀ state, tx.states[id]? = some state → ¬TreatedAsScalar state := by
      intro id hid state hstate
      obtain ⟨k, hk⟩ := List.getElem?_of_mem hid
      have hsegment := List.getElem?_eq_getElem
        (hplain.length_eq ▸ (List.getElem?_eq_some_iff.mp hk).1)
      obtain ⟨state', hstate', hrecovers⟩ := (forall₂_iff_getElem?.mp hall).2 k id _ hk hsegment
      cases hstate.symm.trans hstate'
      exact hrecovers.not_treatedAsScalar
    exact (hplain.roundTrips_iff hc hlt hshape).mpr ⟨howners, hall⟩

end

/-! ### Mappings whose keys are the sender -/

private theorem toBytes_toChecksumAddress {a : Address} (h : (hexDigits a).length ≤ 40) :
    toBytes (toChecksumAddress a) 12 = .ok (List.replicate 12 0 ++ toBigEndian 20 a.toNat) := by
  have hdrop : (addressToHexString a).drop 2 =
      List.replicate (40 - (hexDigits a).length) 48 ++ hexDigits a := rfl
  have hhex := (isHex_replicate_zero (40 - (hexDigits a).length)).append (isHex_hexDigits a)
  have hvalue : hexValue (List.replicate (40 - (hexDigits a).length) 48 ++ hexDigits a) =
      a.toNat := by
    rw [hexValue_replicate_zero, hexValue_hexDigits]
  have hlength : (List.replicate (40 - (hexDigits a).length) 48 ++ hexDigits a).length = 40 := by
    rw [length_append, length_replicate]
    omega
  simp only [toChecksumAddress, hdrop]
  generalize List.replicate (40 - (hexDigits a).length) 48 ++ hexDigits a = s at hhex hvalue hlength
  have hmap := map_hexDigit?_mapIdx (Tee.keccak256 s) s
  have hpairs := hexPairs_of_isHex (n := 20) (isHex_congr hmap.symm hhex)
    (by rw [length_mapIdx, hlength])
  rw [hexValue_congr hmap, hvalue] at hpairs
  rw [toBytes, strip_hexPrefix]
  simp only [length_mapIdx, hlength, hpairs, length_toBigEndian]
  simp

instance : StateTexts Description where
  splitString text separator := text.splitOn separator
  repeatHexString text n := hexPrefix ++ (List.replicate n (text.drop 2)).flatten
  coderType _ := none
  coderValue _ := none
  text _ := none

/-- A transaction of the sender 1 that writes one key of a mapping owned by its key. -/
def keyedTransaction (depth : BitVec 64) (key : ByteString) : CloakPolicyTransaction Description :=
  { from_ := 1, to_ := 0, verifierAddr := 0, codeHash := []
    function := ⟨[], [], [], [], [], [⟨[1], [key]⟩], [], []⟩
    states := [describe [1] (.mapping depth) (.mapping [] 0)]
    oldStates := [], requestedAddresses := []
    publicKeys := (∅ : ExtTreeMap ByteString ByteString).insert (toChecksumAddress 1)
      (toHexString [4])
    status := .synced, partys := ∅ }

/-- The sender's address as a word. -/
def senderWord : ByteString := toHexString (wordBytes 1)

/-- One key of the mapping whose words are the sender, with the value 7. -/
def keyedSegment (depth : Nat) : List ByteString :=
  mappingTexts (toHexString [0]) (toHexString [1])
    [(List.replicate depth senderWord, toHexString (wordBytes 7))]

private theorem keyWords_msgSender (function : Function Description) :
    function.keyWords (toChecksumAddress 1) true msgSenderName = .ok [senderWord] := by
  rw [Function.keyWords, if_pos rfl, if_pos rfl, toBytes_toChecksumAddress (by decide)]
  rfl

private theorem mappingKeys_keyedTransaction {depth : BitVec 64} {key : ByteString} {n : Nat}
    (h : key.splitOn 58 = List.replicate n msgSenderName) :
    (keyedTransaction depth key).mappingKeys [1] = .ok (List.replicate n senderWord) := by
  have hwords := mapM_replicate_of_ok (keyWords_msgSender (keyedTransaction depth key).function) n
  have hnested : (keyedTransaction depth key).mappingKeys [1] = ([key.splitOn 58].flatten.mapM
        ((keyedTransaction depth key).function.keyWords (toChecksumAddress 1) true) >>=
          fun words => .ok words.flatten) := rfl
  rw [hnested, h, flatten_singleton, hwords, ok_bind]
  simp

private theorem arePlain_keyedSegment {depth : BitVec 64} {key : ByteString}
    (hdepth : 0 < depth.toNat)
    (h : key.splitOn 58 = List.replicate depth.toNat msgSenderName) :
    ArePlain (keyedTransaction depth key) [0] [keyedSegment depth.toNat] := by
  have hwords := @mappingKeys_keyedTransaction depth key _ h
  refine .cons ⟨_, rfl, @IsPlain.mapping _ _ _ (keyedTransaction depth key) 0 _ depth
    (.mapping [] 0) (toHexString [0]) (toHexString [1]) 1
    [(List.replicate depth.toNat senderWord, toHexString (wordBytes 7))] rfl hdepth rfl rfl rfl
    (by decide) rfl rfl ?_ ?_ ?_⟩ .nil
  · simp
  · intro _
    rw [flatMap_singleton]
    exact hwords
  · intro entry hentry
    cases mem_singleton.mp hentry
    exact ⟨_, rfl⟩

private theorem mem_publicKeys_keyedTransaction (depth : BitVec 64) (key : ByteString) :
    toChecksumAddress 1 ∈ (keyedTransaction depth key).publicKeys :=
  ExtTreeMap.mem_insert_self

/-- A cipher that combines the plaintext with key and initialisation vector, and checks a tag of
key and plaintext. -/
def streamCipher : StateCipher where
  encrypt der iv plain := (masked (der ++ iv) plain, toBigEndian 16 (fromBigEndian (der ++ plain)))
  decrypt der iv data :=
    let plain := masked (der ++ iv) (data.take (data.length - 16))
    if data.drop (data.length - 16) = toBigEndian 16 (fromBigEndian (der ++ plain)) then some plain
    else none
  splitTagAndIv data := (data.take 16, data.drop 16)

private theorem lawful_streamCipher : streamCipher.Lawful where
  length_cipher _ _ plain := by simp [streamCipher, masked]
  length_tag _ _ _ := length_toBigEndian _ _
  decrypt_encrypt _ _ plain _ := by simp [streamCipher, masked_masked]
  splitTagAndIv_append tag iv htag _ := by simp [streamCipher, ← htag]

/-- A key of one word comes back with its value. -/
theorem encryption_roundTrips_oneWordKey :
    (keyedTransaction 1 msgSenderName).RoundTrips ⟨[]⟩ streamCipher zeroEntropy
      [keyedSegment 1].flatten := by
  have hplain : ArePlain (keyedTransaction 1 msgSenderName) [0] [keyedSegment 1] :=
    arePlain_keyedSegment (by decide) (by decide)
  apply (encryption_roundTrips_iff _ ⟨[]⟩ _ _ hplain (by decide) (by decide)).mpr _ _
    lawful_streamCipher
  constructor
  · intro call hcall name hname
    cases mem_singleton.mp hcall
    obtain ⟨state, hstate, -, hkind, -⟩ := hname
    cases hstate
    cases hkind
  · refine .cons ⟨_, rfl, .mapping 1, .mapping [] 0, rfl, rfl, [senderWord], ?_, ?_⟩ .nil
    · exact mappingKeys_keyedTransaction (n := 1) (by decide)
    · intro j hj
      obtain rfl : j = 0 := Nat.lt_one_iff.mp hj
      refine ⟨senderWord, 1, toHexString (wordBytes 7), rfl, ?_,
        mem_publicKeys_keyedTransaction _ _, rfl, ?_⟩
      · decide +kernel
      · rw [if_neg (by decide)]
        rfl

/-- The sender twice, as a key of two words. -/
def twoWordKey : ByteString := msgSenderName ++ 58 :: msgSenderName

/-- A key of two words does not come back with its value: its second word is encrypted instead. -/
theorem not_roundTrips_twoWordKey : ArePlain (keyedTransaction 2 twoWordKey) [0] [keyedSegment 2] ∧
      streamCipher.Lawful ∧ toChecksumAddress 1 ∈ (keyedTransaction 2 twoWordKey).publicKeys ∧
      ¬(keyedTransaction 2 twoWordKey).RoundTrips ⟨[]⟩ streamCipher zeroEntropy
        [keyedSegment 2].flatten := by
  have hplain : ArePlain (keyedTransaction 2 twoWordKey) [0] [keyedSegment 2] :=
    arePlain_keyedSegment (by decide) (by decide)
  refine ⟨hplain, lawful_streamCipher, mem_publicKeys_keyedTransaction _ _, ?_⟩
  have hshape : ∀ id ∈ [0], ∀ state, (keyedTransaction 2 twoWordKey).states[id]? = some state →
      ¬TreatedAsScalar state := by
    intro id hid state hstate
    cases mem_singleton.mp hid
    cases hstate
    rintro ⟨depth, owner, -, howner, -, hkeys⟩
    exact hkeys [] 0 (Option.some.inj howner).symm
  rw [hplain.roundTrips_iff lawful_streamCipher (by decide) hshape]
  rintro ⟨-, hall⟩
  obtain ⟨state, hstate, hrecovers⟩ := (List.forall₂_cons.mp hall).1
  cases hstate
  obtain ⟨keys, -, hrounds⟩ := (recovers_mapping_iff rfl rfl).mp hrecovers
  obtain ⟨key, sender, value, -, -, -, hvalue, hif⟩ := hrounds 0 (by decide)
  cases hvalue
  split at hif
  · revert hif
    decide +kernel
  · revert hif
    decide +kernel

end CloakBridge.Mpt
