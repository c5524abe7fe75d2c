import CloakBridge.Core.KeccakRows
import CloakBridge.Models.Service.StateStorage
import CloakBridge.Models.Tee.UpdateAddressing

/-!
# The digest of the old states

The enclave and the chain both hash the old values of the updated slots. The chain
concatenates them in the order of the listed keys. The enclave copies every recorded value
to the start of the buffer, so only the last one remains there, followed by zeros; and a
buffer of 64 KiB or more is hashed in part only.
-/

namespace CloakBridge.Tee

open Kv TransactionSync StorageKey List

/-- The recorded old value of a slot, zero if there is none. -/
def oldValue (c : Contents) (x : StorageKey) : Word :=
  ((c .pendingStorage x).map wordOfBytes).getD 0

variable {x : StorageKey}

namespace StorageKey

private theorem lt_irrefl (x : StorageKey) : ¬ lt x x := by
  rintro (h | ⟨-, h⟩)
  · exact BitVec.lt_irrefl _ h
  · exact BitVec.lt_irrefl _ h

private theorem lt_trans {y z : StorageKey} (hxy : lt x y) (hyz : lt y z) : lt x z := by
  unfold lt at *
  bv_omega

private theorem lt_or_eq_or_lt (x y : StorageKey) : lt x y ∨ x = y ∨ lt y x := by
  unfold lt
  rw [Prod.ext_iff]
  bv_omega

end StorageKey

namespace TransactionSync

variable {keys : List StorageKey}

private theorem pairwise_orderedInsert (hkeys : keys.Pairwise lt) (hx : x ∉ keys) :
    (keys.orderedInsert lt x).Pairwise lt := by
  induction keys with
  | nil => exact pairwise_singleton _ _
  | cons y keys ih =>
    obtain ⟨hy, hkeys'⟩ := pairwise_cons.mp hkeys
    obtain ⟨hxy, hx⟩ := not_or.mp (mt mem_cons.mpr hx)
    rw [orderedInsert_cons]
    split
    next hlt =>
      refine pairwise_cons.mpr ⟨fun z hz => ?_, hkeys⟩
      rcases mem_cons.mp hz with rfl | hz
      · exact hlt
      · exact lt_trans hlt (hy z hz)
    next hnot =>
      refine pairwise_cons.mpr ⟨fun z hz => ?_, ih hkeys' hx⟩
      rcases (mem_orderedInsert _).mp hz with rfl | hz
      · exact ((lt_or_eq_or_lt z y).resolve_left hnot).resolve_left hxy
      · exact hy z hz

private theorem pairwise_updateKeys (visited : List StorageKey) :
    (updateKeys visited).Pairwise lt := by
  have hgen : ∀ keys : List StorageKey, keys.Pairwise lt →
      (visited.foldl emplaceKey keys).Pairwise lt := by
    induction visited with
    | nil => exact fun keys hkeys => hkeys
    | cons x visited ih =>
      intro keys hkeys
      refine ih _ ?_
      unfold emplaceKey
      split
      next => exact hkeys
      next hx => exact pairwise_orderedInsert hkeys hx
  exact hgen [] List.Pairwise.nil

private theorem length_updateKeys {visited : List StorageKey} (hnodup : visited.Nodup) :
    (updateKeys visited).length = visited.length :=
  ((perm_ext_iff_of_nodup (nodup_updateKeys visited) hnodup).mpr fun _ => mem_updateKeys).length_eq

/-- The first word of the buffer after the given keys: the last recorded value. -/
def lastOld (c : Contents) (keys : List StorageKey) : ByteString :=
  keys.foldl (fun block x => (c .pendingStorage x).getD block) (wordBytes 0)

variable {c : Contents}

/-- Copying recorded words to the start of the buffer leaves its rest alone. -/
private theorem foldl_copyOld
    (hwords : ∀ x ∈ keys, ∀ v, c .pendingStorage x = some v → v.length = 32) {block : ByteString}
    (hblock : block.length = 32) (rest : ByteString) :
    keys.foldl (fun buffer x => copyOld (c .pendingStorage x) buffer) (block ++ rest) =
      keys.foldl (fun block x => (c .pendingStorage x).getD block) block ++ rest := by
  induction keys generalizing block with
  | nil => rfl
  | cons x keys ih =>
    have hkeys := fun y hy => hwords y (mem_cons_of_mem x hy)
    rw [foldl_cons, foldl_cons]
    cases hold : c .pendingStorage x with
    | none => exact ih hkeys hblock
    | some v =>
      have hv := hwords x mem_cons_self v hold
      rw [copyOld, take_of_length_le hv.le, drop_left' hblock, Option.getD_some]
      exact ih hkeys hv

private theorem wordBytes_zero : wordBytes 0 = List.replicate 32 0 := by decide

/-- The hashed buffer: the last recorded value, then zeros. -/
theorem oldStates_eq (hne : keys ≠ [])
    (hwords : ∀ x ∈ keys, ∀ v, c .pendingStorage x = some v → v.length = 32) :
    oldStates c keys = lastOld c keys ++ List.replicate ((keys.length - 1) * 32) 0 := by
  have hlength : keys.length * 32 = 32 + (keys.length - 1) * 32 := by
    have := length_pos_iff.mpr hne
    omega
  rw [oldStates, hlength, replicate_add, ← wordBytes_zero]
  exact foldl_copyOld hwords (length_wordBytes 0) _

/-- In increasing keys, the value that remains is that of the largest recorded key. -/
theorem lastOld_spec (hsorted : keys.Pairwise lt) :
    (∀ x ∈ keys, c .pendingStorage x = none) ∧ lastOld c keys = wordBytes 0 ∨
      ∃ x ∈ keys, c .pendingStorage x = some (lastOld c keys) ∧
        ∀ y ∈ keys, lt x y → c .pendingStorage y = none := by
  induction keys using List.reverseRecOn with
  | nil => exact Or.inl ⟨fun x hx => (nomatch hx), rfl⟩
  | append_singleton keys z ih =>
    obtain ⟨hkeys, -, hz⟩ := pairwise_append.mp hsorted
    have hz : ∀ x ∈ keys, lt x z := fun x hx => hz x hx z mem_cons_self
    have hlast : lastOld c (keys ++ [z]) = (c .pendingStorage z).getD (lastOld c keys) := by
      rw [lastOld, foldl_append]
      rfl
    cases hold : c .pendingStorage z with
    | some v =>
      refine Or.inr ⟨z, mem_append_right _ mem_cons_self, ?_, fun y hy hlt => ?_⟩
      · rw [hlast, hold, Option.getD_some]
      · exfalso
        rcases mem_append.mp hy with hy | hy
        · exact lt_irrefl z (lt_trans hlt (hz y hy))
        · rw [mem_singleton.mp hy] at hlt
          exact lt_irrefl z hlt
    | none =>
      rw [hlast, hold, Option.getD_none]
      rcases ih hkeys with ⟨hnone, hzero⟩ | ⟨x, hx, hold', hlarger⟩
      · refine Or.inl ⟨fun y hy => ?_, hzero⟩
        rcases mem_append.mp hy with hy | hy
        · exact hnone y hy
        · rw [mem_singleton.mp hy, hold]
      · refine Or.inr ⟨x, mem_append_left _ hx, hold', fun y hy hlt => ?_⟩
        rcases mem_append.mp hy with hy | hy
        · exact hlarger y hy hlt
        · rw [mem_singleton.mp hy, hold]

private theorem wordBytes_oldValue {v : ByteString} (hold : c .pendingStorage x = some v)
    (hv : v.length = 32) : wordBytes (oldValue c x) = v := by
  rw [oldValue, hold, Option.map_some, Option.getD_some, wordBytes_wordOfBytes hv]

private theorem oldValue_of_none (hold : c .pendingStorage x = none) : oldValue c x = 0 := by
  rw [oldValue, hold]
  rfl

private theorem replicate_zero_eq_iff (slots : List StorageKey) :
    List.replicate (slots.length * 32) 0 = slots.flatMap (fun x => wordBytes (oldValue c x)) ↔
      ∀ x ∈ slots, oldValue c x = 0 := by
  induction slots with
  | nil => simp
  | cons x slots ih =>
    rw [length_cons, Nat.add_one_mul, Nat.add_comm, replicate_add, ← wordBytes_zero,
      flatMap_cons, forall_mem_cons, ← ih]
    constructor
    · intro h
      obtain ⟨hx, hrest⟩ := append_inj h (by rw [length_wordBytes, length_wordBytes])
      exact ⟨(wordBytes_injective hx).symm, hrest⟩
    · rintro ⟨hx, hrest⟩
      rw [hx, hrest]

/-- The remaining value is that of the first listed key, provided the other values are zero, exactly
if that value is zero or no larger key has a recorded value. -/
theorem lastOld_eq_iff (hsorted : keys.Pairwise lt)
    (hwords : ∀ x ∈ keys, ∀ v, c .pendingStorage x = some v → v.length = 32) (hx : x ∈ keys)
    (hothers : ∀ y ∈ keys, y ≠ x → oldValue c y = 0) : lastOld c keys = wordBytes (oldValue c x) ↔
      oldValue c x = 0 ∨ ∀ y ∈ keys, lt x y → c .pendingStorage y = none := by
  rcases lastOld_spec (c := c) hsorted with ⟨hnone, hzero⟩ | ⟨z, hz, hold, hlarger⟩
  · rw [hzero, oldValue_of_none (hnone x hx)]
    simp
  · have hlast := wordBytes_oldValue hold (hwords z hz _ hold)
    rw [← hlast]
    by_cases hzx : z = x
    · subst hzx
      exact ⟨fun _ => Or.inr hlarger, fun _ => rfl⟩
    · rw [hothers z hz hzx]
      constructor
      · exact fun h => Or.inl (wordBytes_injective h).symm
      · rintro (h | h)
        · rw [h]
        · rcases lt_or_eq_or_lt x z with hlt | rfl | hlt
          · cases (h z hz hlt).symm.trans hold
          · exact absurd rfl hzx
          · rw [oldValue_of_none (hlarger x hx hlt)]

end TransactionSync

/-- When the enclave hashes what the chain hashes, for the slots of one contract listed in the given
order. -/
def SameOldStates (c : Contents) : List StorageKey → Prop
  | [] => False
  | first :: rest => (first :: rest).length < 2048 ∧ (∀ x ∈ rest, oldValue c x = 0) ∧
      (oldValue c first = 0 ∨ ∀ y ∈ first :: rest, first.2 < y.2 → c .pendingStorage y = none)

/-- The bytes that the enclave's Keccak is applied to. -/
def hashedStates (c : Contents) (visited : List StorageKey) : ByteString :=
  let buffer := oldStates c (updateKeys visited)
  buffer.take (buffer.length % 2 ^ 16)

/-- The bytes that the chain hashes if its slots hold the recorded values. -/
def chainStates (c : Contents) (visited : List StorageKey) : ByteString :=
  visited.flatMap fun x => wordBytes (oldValue c x)

private theorem length_chainStates (c : Contents) (visited : List StorageKey) :
    (chainStates c visited).length = visited.length * 32 := by
  induction visited with
  | nil => rfl
  | cons x visited ih =>
    rw [chainStates, flatMap_cons, length_append, length_wordBytes, length_cons,
      Nat.add_one_mul, Nat.add_comm]
    exact congrArg (· + 32) ih

section OneContract

variable {c : Contents} {visited : List StorageKey} (hne : visited ≠ []) (hnodup : visited.Nodup)
  (hone : SingleContract visited)
  (hwords : ∀ x ∈ visited, ∀ v, c .pendingStorage x = some v → v.length = 32)

include hwords in
private theorem length_lastOld_updateKeys : (lastOld c (updateKeys visited)).length = 32 := by
  rcases lastOld_spec (c := c) (pairwise_updateKeys visited) with ⟨-, hzero⟩ | ⟨x, hx, hold, -⟩
  · rw [hzero, length_wordBytes]
  · exact hwords x (mem_updateKeys.mp hx) _ hold

include hne hnodup hwords in
private theorem oldStates_updateKeys : oldStates c (updateKeys visited) =
      lastOld c (updateKeys visited) ++ List.replicate ((visited.length - 1) * 32) 0 := by
  rw [oldStates_eq (fun h => hne (updateKeys_eq_nil.mp h))
    (fun x hx => hwords x (mem_updateKeys.mp hx)), length_updateKeys hnodup]

include hne hnodup hwords in
private theorem length_oldStates_updateKeys :
    (oldStates c (updateKeys visited)).length = visited.length * 32 := by
  have hpos := length_pos_iff.mpr hne
  rw [oldStates_updateKeys hne hnodup hwords, length_append,
    length_lastOld_updateKeys hwords, length_replicate]
  omega

include hne hnodup hone hwords in
/-- The enclave and the chain hash the same bytes exactly under the stated condition. -/
theorem hashedStates_eq_iff :
    hashedStates c visited = chainStates c visited ↔ SameOldStates c visited := by
  have hlength := length_oldStates_updateKeys hne hnodup hwords
  by_cases hsmall : visited.length < 2048
  · have hwhole : hashedStates c visited = oldStates c (updateKeys visited) := by
      rw [hashedStates, hlength, Nat.mod_eq_of_lt (by omega)]
      exact take_of_length_le hlength.le
    rw [hwhole, oldStates_updateKeys hne hnodup hwords]
    cases visited with
    | nil => exact absurd rfl hne
    | cons first rest =>
      have hothers : (∀ x ∈ rest, oldValue c x = 0) →
          ∀ y ∈ updateKeys (first :: rest), y ≠ first → oldValue c y = 0 := fun hrest y hy hyx =>
        hrest y ((mem_cons.mp (mem_updateKeys.mp hy)).resolve_left hyx)
      have hlarger : (∀ y ∈ updateKeys (first :: rest), lt first y → c .pendingStorage y = none) ↔
          ∀ y ∈ first :: rest, first.2 < y.2 → c .pendingStorage y = none := by
        refine forall_congr' fun y => ?_
        rw [mem_updateKeys]
        refine forall_congr' fun hy => ?_
        have hcontract : first.1 = y.1 := hone first mem_cons_self y hy
        rw [lt, hcontract]
        simp
      rw [chainStates, flatMap_cons, length_cons, Nat.add_sub_cancel]
      have hfirst := lastOld_eq_iff (c := c) (pairwise_updateKeys (first :: rest))
        (fun x hx => hwords x (mem_updateKeys.mp hx)) (mem_updateKeys.mpr mem_cons_self)
      constructor
      · intro h
        obtain ⟨hblock, hrest⟩ := append_inj h
          (by rw [length_lastOld_updateKeys hwords, length_wordBytes])
        have hrest := (replicate_zero_eq_iff rest).mp hrest
        exact ⟨hsmall, hrest, ((hfirst (hothers hrest)).mp hblock).imp_right hlarger.mp⟩
      · rintro ⟨-, hrest, hcond⟩
        rw [(hfirst (hothers hrest)).mpr (hcond.imp_right hlarger.mpr),
          (replicate_zero_eq_iff rest).mpr hrest]
  · have hlong : ¬ SameOldStates c visited := by
      cases visited with
      | nil => exact fun h => h
      | cons first rest => exact fun h => hsmall h.1
    refine ⟨fun h => ?_, fun h => absurd h hlong⟩
    have hcut := congrArg List.length h
    rw [hashedStates, length_take, hlength, length_chainStates] at hcut
    omega

end OneContract

/-- `sync_states` over the slots of one contract returns the digest that `generateStateHash`
computes for the listed keys, on a chain whose slots hold the recorded old values, exactly if the
two hash the same bytes or Keccak-256 collides on what they hash. -/
theorem syncStates_digest_iff (w : World) (contract : Address) (visited : List StorageKey)
    (hne : visited ≠ []) (hnodup : visited.Nodup) (hone : ∀ x ∈ visited, x.1 = contract)
    (hwords : ∀ x ∈ visited, ∀ v, w.tx.view .pendingStorage x = some v → v.length = 32) :
    ∃ states digest w', syncStates visited w = .ok (states, digest) w' ∧
      (some digest = Service.generateStateHash (fun key => oldValue w.tx.view (contract, key))
          states.keys ↔ SameOldStates w.tx.view visited ∨
          Keccak.Collides (hashedStates w.tx.view visited) (chainStates w.tx.view visited)) := by
  refine ⟨_, _, _, syncStates_run hne w, ?_⟩
  have hsingle : SingleContract visited := fun x hx y hy => (hone x hx).trans (hone y hy).symm
  have hkeys : (statesOf w.tx.view visited).keys = visited.map Prod.snd := by
    rw [statesOf_of_contract _ hone, States.keys, map_map]
    rfl
  have hchain : Service.copyStates (fun key => oldValue w.tx.view (contract, key))
      (visited.map Prod.snd) = chainStates w.tx.view visited := by
    rw [Service.copyStates_eq_flatMap, flatMap_map, chainStates]
    refine flatMap_congr fun x hx => ?_
    rw [← hone x hx]
  have hpos : 0 < (visited.map Prod.snd).length := by
    rw [length_map]
    exact length_pos_iff.mpr hne
  rw [hkeys, Service.generateStateHash, if_pos hpos, hchain, Option.some.injEq,
    ← hashedStates_eq_iff hne hnodup hsingle hwords]
  exact Keccak.keccak256_eq_iff _ _

/-- A store with the given old values. -/
def oldStore (rows : List (StorageKey × Word)) : Store :=
  Function.update (escrowedStore []) .pendingStorage
    (.ofRows 1 (rows.map fun r => (r.1, wordBytes r.2)))

/-- With one recorded value the digests agree. -/
theorem syncStates_digest_one_value :
    ∃ states digest w', syncStates [(7, 1), (7, 2)] (World.start (oldStore [((7, 1), 5)])) =
        .ok (states, digest) w' ∧ some digest = Service.generateStateHash
        (fun key => oldValue (oldStore [((7, 1), 5)]).content (7, key)) states.keys := by
  have hsecond : oldValue (oldStore [((7, 1), 5)]).content (7, 2) = 0 := by decide +kernel
  have hwords : ∀ x ∈ [((7, 1) : StorageKey), (7, 2)], ∀ v,
      (oldStore [((7, 1), 5)]).content .pendingStorage x = some v → v.length = 32 := by
    have hfirst : (oldStore [((7, 1), 5)]).content .pendingStorage (7, 1) = some (wordBytes 5) := by
      decide +kernel
    have hother : (oldStore [((7, 1), 5)]).content .pendingStorage (7, 2) = none := by
      decide +kernel
    simp only [forall_mem_cons, hfirst, hother, Option.some.injEq, forall_eq', length_wordBytes]
    simp
  obtain ⟨states, digest, w', hrun, hiff⟩ := syncStates_digest_iff
    (World.start (oldStore [((7, 1), 5)])) 7 [(7, 1), (7, 2)] (by simp) (by simp) (by simp)
    hwords
  refine ⟨states, digest, w', hrun, hiff.mpr (Or.inl ⟨by decide, ?_, Or.inr ?_⟩)⟩
  · intro x hx
    rw [mem_singleton.mp hx]
    exact hsecond
  · intro y hy hlt
    rcases mem_cons.mp hy with rfl | hy
    · exact absurd hlt (by decide)
    rw [mem_singleton.mp hy]
    decide +kernel

set_option maxRecDepth 100000 in
/-- Two recorded values: only the larger key's is hashed. -/
theorem syncStates_digest_ne_two_values : ∃ states digest w',
      syncStates [(7, 1), (7, 2)] (World.start (oldStore [((7, 1), 5), ((7, 2), 6)])) =
        .ok (states, digest) w' ∧ some digest ≠ Service.generateStateHash
        (fun key => oldValue (oldStore [((7, 1), 5), ((7, 2), 6)]).content (7, key))
        states.keys := by
  have hne : [((7, 1) : StorageKey), (7, 2)] ≠ [] := by decide
  refine ⟨_, _, _, syncStates_run hne _, ?_⟩
  simp only [Service.generateStateHash, Tee.keccak256, Keccak.keccak256_eq_digest]
  decide +kernel

end CloakBridge.Tee
