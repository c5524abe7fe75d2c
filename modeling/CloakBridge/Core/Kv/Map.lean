import Mathlib.Data.List.AList

/-!
# Change sets over one versioned map

One map of a transactional key-value store and the change set that a transaction keeps for
it. A transaction works on the content of the moment it began, records which rows it
depends on, and collects its writes. At commit the dependencies are compared by version
with the current map, unless there are no writes.
-/


namespace CloakBridge.Kv

open List

variable {K V : Type} [DecidableEq K]

/-- What a map holds for a reader. -/
abbrev Content (K V : Type) := K → Option V

/-- A row: the version of its last write, and its value unless that write removed it. -/
structure Entry (V : Type) where
  version : Nat
  value : Option V

/-- The committed state of one map: the version of the last commit that changed it, and an entry
for every row that was ever written. -/
structure VersionedMap (K V : Type) where
  version : Nat
  entries : AList fun _ : K => Entry V

variable {k : K} {n : Nat}

namespace VersionedMap

/-- The entry of a row. -/
def rows (m : VersionedMap K V) (k : K) : Option (Entry V) := m.entries.lookup k

/-- The values a reader finds. -/
def content (m : VersionedMap K V) : Content K V := fun k => (m.rows k).bind Entry.value

/-- The keys a reader finds, in the order of the representation. -/
def live (m : VersionedMap K V) : List K :=
  (m.entries.entries.filter fun e => e.2.value.isSome).map Sigma.fst

/-- What a read of a row depends on: its version, and whether it held a value. -/
def dependency (m : VersionedMap K V) (k : K) : Option (Nat × Bool) :=
  (m.rows k).map fun e => (e.version, e.value.isSome)

/-- The map that the given rows were written to by one commit. -/
def ofRows (version : Nat) (rows : List (K × V)) : VersionedMap K V :=
  ⟨version, rows.foldr (fun r m => m.insert r.1 ⟨version, some r.2⟩) ∅⟩

variable {m : VersionedMap K V}

/-- The live keys are those with a value. -/
theorem mem_live : k ∈ m.live ↔ ∃ v, m.content k = some v := by
  simp only [live, mem_map, mem_filter, content, rows]
  constructor
  · rintro ⟨e, ⟨hmem, hvalue⟩, rfl⟩
    obtain ⟨v, hv⟩ := Option.isSome_iff_exists.mp hvalue
    exact ⟨v, by rw [AList.mem_lookup_iff.mpr hmem, Option.bind_some, hv]⟩
  · rintro ⟨v, hv⟩
    obtain ⟨e, hlookup, he⟩ := Option.bind_eq_some_iff.mp hv
    exact ⟨⟨k, e⟩, ⟨AList.mem_lookup_iff.mp hlookup, by rw [he, Option.isSome_some]⟩, rfl⟩

omit [DecidableEq K] in
/-- A live key is listed once. -/
theorem nodup_live (m : VersionedMap K V) : m.live.Nodup :=
  m.entries.keys_nodup.sublist (filter_sublist.map Sigma.fst)

/-- All versions of the map are at most `n`. -/
structure Bounded (m : VersionedMap K V) (n : Nat) : Prop where
  version_le : m.version ≤ n
  row_le : ∀ k e, m.rows k = some e → e.version ≤ n

theorem Bounded.mono {n' : Nat} (h : m.Bounded n) (hn : n ≤ n') : m.Bounded n' :=
  ⟨Nat.le_trans h.version_le hn, fun k e he => Nat.le_trans (h.row_le k e he) hn⟩

/-- A map of rows has the version it is given. -/
theorem bounded_ofRows (version : Nat) (rows : List (K × V)) :
    (ofRows version rows).Bounded version := by
  refine ⟨le_rfl, fun k e he => ?_⟩
  simp only [VersionedMap.rows, ofRows] at he
  induction rows with
  | nil => cases he
  | cons r rows ih =>
    rw [foldr_cons] at he
    by_cases hk : k = r.1
    · subst hk
      rw [AList.lookup_insert, Option.some.injEq] at he
      subst he
      exact le_rfl
    · rw [AList.lookup_insert_ne hk] at he
      exact ih he

end VersionedMap

/-- A row is unchanged, or was written later. -/
def Succeeds (old new : Option (Entry V)) : Prop :=
  new = old ∨ ∃ e', new = some e' ∧ ∀ e, old = some e → e.version < e'.version

private theorem Succeeds.trans {a b c : Option (Entry V)} (hab : Succeeds a b)
    (hbc : Succeeds b c) :
    Succeeds a c := by
  rcases hbc with rfl | ⟨e, rfl, hb⟩
  · exact hab
  · rcases hab with rfl | ⟨e', rfl, ha⟩
    · exact Or.inr ⟨e, rfl, hb⟩
    · exact Or.inr ⟨e, rfl, fun e₀ he₀ => Nat.lt_trans (ha e₀ he₀) (hb e' rfl)⟩

/-- `new` is a later state of the map `old`: what changed carries a later version. -/
structure Extends (old new : VersionedMap K V) : Prop where
  /-- The map is the same or has a later version. -/
  map : new = old ∨ old.version < new.version
  /-- Every row is the same or has a later version. -/
  row : ∀ k, Succeeds (old.rows k) (new.rows k)

namespace Extends

variable {old new : VersionedMap K V}

theorem refl (m : VersionedMap K V) : Extends m m := ⟨Or.inl rfl, fun _ => Or.inl rfl⟩

theorem trans {a b c : VersionedMap K V} (hab : Extends a b) (hbc : Extends b c) : Extends a c := by
  refine ⟨?_, fun k => (hab.row k).trans (hbc.row k)⟩
  rcases hbc.map with rfl | hbc
  · exact hab.map
  · rcases hab.map with rfl | hab
    · exact Or.inr hbc
    · exact Or.inr (Nat.lt_trans hab hbc)

private theorem eq_of_version (h : Extends old new) (hv : old.version = new.version) :
    new = old := by
  rcases h.map with rfl | hlt
  · rfl
  · omega

/-- A map that was restored in the end was the same in between. -/
theorem eq_of_eq {mid : VersionedMap K V} (h : Extends old mid) (h' : Extends mid new)
    (heq : new = old) : mid = old := by
  subst heq
  rcases h.map with hmid | hlt
  · exact hmid
  · rcases h'.map with rfl | hlt'
    · rfl
    · omega

private theorem row_eq_of_dependency (h : Extends old new)
    (hd : new.dependency k = old.dependency k) :
    new.rows k = old.rows k := by
  rcases h.row k with heq | ⟨e', he', hlt⟩
  · exact heq
  · rw [VersionedMap.dependency, VersionedMap.dependency, he'] at hd
    obtain ⟨e, he, hpair⟩ := Option.map_eq_some_iff.mp hd.symm
    have hversion := congrArg Prod.fst hpair
    have := hlt e he
    simp only at hversion
    omega

end Extends

/-- The dependencies and writes of one transaction on one map. -/
structure ChangeSet (K V : Type) where
  /-- The map when the transaction began. -/
  state : VersionedMap K V
  /-- Whether the whole map was iterated over. -/
  iterated : Bool
  /-- The rows read from `state`; a dependency is what `state` had for the row. -/
  reads : List K
  /-- The rows written; `none` removes a row. -/
  writes : AList fun _ : K => Option V

namespace ChangeSet

/-- The change set of a transaction that just began. -/
def start (m : VersionedMap K V) : ChangeSet K V := ⟨m, false, [], ∅⟩

/-- What the transaction sees: its own writes over the map it began with. -/
def view (cs : ChangeSet K V) : Content K V := fun k =>
  match cs.writes.lookup k with
  | some w => w
  | none => cs.state.content k

/-- Record the dependency of a read, unless the transaction wrote the row itself. -/
def noteRead (cs : ChangeSet K V) (k : K) : ChangeSet K V :=
  if k ∈ cs.writes then cs else { cs with reads := cs.reads.insert k }

/-- Record a dependency on the whole map. -/
def noteIteration (cs : ChangeSet K V) : ChangeSet K V := { cs with iterated := true }

/-- Write a row. -/
def put (cs : ChangeSet K V) (k : K) (v : V) : ChangeSet K V :=
  { cs with writes := cs.writes.insert k (some v) }

/-- Remove a row. A row that only this transaction wrote is forgotten; a row the map has no
entry for is left alone. -/
def remove (cs : ChangeSet K V) (k : K) : ChangeSet K V :=
  match cs.state.rows k with
  | some _ => { cs with writes := cs.writes.insert k none }
  | none => { cs with writes := cs.writes.erase k }

variable {cs : ChangeSet K V} {version : Nat} {current : VersionedMap K V}

/-- A row is seen as it was written, or else as committed. -/
theorem view_eq_getD (cs : ChangeSet K V) (k : K) :
    cs.view k = (cs.writes.lookup k).getD (cs.state.content k) := by
  rw [view]
  cases cs.writes.lookup k <;> rfl

@[simp] theorem view_start (m : VersionedMap K V) : (start m).view = m.content := rfl

/-- A read changes nothing that is seen. -/
@[simp] theorem view_noteRead (cs : ChangeSet K V) (k : K) : (cs.noteRead k).view = cs.view := by
  unfold noteRead
  split <;> rfl

@[simp] theorem view_noteIteration (cs : ChangeSet K V) : cs.noteIteration.view = cs.view := rfl

theorem state_noteRead (cs : ChangeSet K V) (k : K) : (cs.noteRead k).state = cs.state := by
  unfold noteRead
  split <;> rfl

theorem writes_noteRead (cs : ChangeSet K V) (k : K) : (cs.noteRead k).writes = cs.writes := by
  unfold noteRead
  split <;> rfl

theorem mem_reads_noteRead (h : k ∈ cs.reads) (k' : K) : k ∈ (cs.noteRead k').reads := by
  unfold noteRead
  split
  next => exact h
  next => exact mem_insert_of_mem h

/-- Reading a row that was not written is recorded. -/
theorem mem_reads_noteRead_self (h : cs.writes.lookup k = none) : k ∈ (cs.noteRead k).reads := by
  rw [noteRead, if_neg (AList.lookup_eq_none.mp h)]
  exact mem_insert_self

theorem reads_remove (cs : ChangeSet K V) (k : K) : (cs.remove k).reads = cs.reads := by
  unfold remove
  split <;> rfl

theorem state_remove (cs : ChangeSet K V) (k : K) : (cs.remove k).state = cs.state := by
  unfold remove
  split <;> rfl

private theorem iterated_remove (cs : ChangeSet K V) (k : K) :
    (cs.remove k).iterated = cs.iterated := by
  unfold remove
  split <;> rfl

/-- A written row is seen by the transaction that wrote it. -/
@[simp] theorem view_put (cs : ChangeSet K V) (k : K) (v : V) :
    (cs.put k v).view = Function.update cs.view k (some v) := by
  funext k'
  by_cases h : k' = k
  · subst h
    simp [view, put]
  · rw [Function.update_of_ne h]
    simp only [view, put, AList.lookup_insert_ne h]

/-- A removed row is gone for the transaction that removed it. -/
@[simp] theorem view_remove (cs : ChangeSet K V) (k : K) :
    (cs.remove k).view = Function.update cs.view k none := by
  funext k'
  cases hrow : cs.state.rows k with
  | some e =>
    by_cases h : k' = k
    · subst h
      simp [view, remove, hrow]
    · rw [Function.update_of_ne h]
      simp only [view, remove, hrow, AList.lookup_insert_ne h]
  | none =>
    by_cases h : k' = k
    · subst h
      simp [view, remove, hrow, VersionedMap.content]
    · rw [Function.update_of_ne h]
      simp only [view, remove, hrow, AList.lookup_erase_ne h]

/-- What is put is written under its key. -/
theorem lookup_put (cs : ChangeSet K V) (k k' : K) (v : V) :
    (cs.put k v).writes.lookup k' = if k' = k then some (some v) else cs.writes.lookup k' := by
  by_cases h : k' = k
  · subst h
    rw [if_pos rfl, put, AList.lookup_insert]
  · rw [if_neg h, put, AList.lookup_insert_ne h]

/-- A removal is written if the committed map has a row. -/
theorem lookup_remove (cs : ChangeSet K V) (k k' : K) : (cs.remove k).writes.lookup k' =
      if k' = k then (cs.state.rows k).map fun _ => none else cs.writes.lookup k' := by
  by_cases h : k' = k
  · subst h
    cases hrow : cs.state.rows k' <;> simp [remove, hrow]
  · cases hrow : cs.state.rows k <;>
      simp [remove, hrow, h, AList.lookup_insert_ne h, AList.lookup_erase_ne h]

/-- Writing one value to several rows. -/
theorem lookup_foldl_put (ks : List K) (v : V) (cs : ChangeSet K V) (k : K) :
    (ks.foldl (fun cs k' => cs.put k' v) cs).writes.lookup k =
      if k ∈ ks then some (some v) else cs.writes.lookup k := by
  induction ks generalizing cs with
  | nil => simp
  | cons k' ks ih =>
    rw [foldl_cons, ih, lookup_put]
    by_cases hmem : k ∈ ks
    · simp [hmem]
    · by_cases heq : k = k' <;> simp [hmem, heq]

/-- Written rows are there for the transaction that wrote them. -/
theorem view_foldl_put (ks : List K) (v : V) (cs : ChangeSet K V) (k : K) :
    (ks.foldl (fun cs k' => cs.put k' v) cs).view k = if k ∈ ks then some v else cs.view k := by
  induction ks generalizing cs with
  | nil => simp
  | cons k' ks ih =>
    rw [foldl_cons, ih, view_put]
    by_cases hmem : k ∈ ks
    · simp [hmem]
    · by_cases heq : k = k' <;> simp [hmem, heq]

/-- Removing several rows writes a removal for those the map has an entry for. -/
theorem lookup_foldl_remove (ks : List K) (cs : ChangeSet K V) (k : K) :
    (ks.foldl remove cs).writes.lookup k =
      if k ∈ ks then (cs.state.rows k).map fun _ => none else cs.writes.lookup k := by
  induction ks generalizing cs with
  | nil => simp
  | cons k' ks ih =>
    rw [foldl_cons, ih, lookup_remove, state_remove]
    by_cases hmem : k ∈ ks
    · simp [hmem]
    · by_cases heq : k = k' <;> simp [hmem, heq]

theorem iterated_foldl_remove (ks : List K) (cs : ChangeSet K V) :
    (ks.foldl remove cs).iterated = cs.iterated := by
  induction ks generalizing cs with
  | nil => rfl
  | cons k ks ih => rw [foldl_cons, ih, iterated_remove]

/-- Removed rows are gone for the transaction that removed them. -/
theorem view_foldl_remove (ks : List K) (cs : ChangeSet K V) (k : K) :
    (ks.foldl remove cs).view k = if k ∈ ks then none else cs.view k := by
  induction ks generalizing cs with
  | nil => simp
  | cons k' ks ih =>
    rw [foldl_cons, ih, view_remove]
    by_cases hmem : k ∈ ks
    · simp [hmem]
    · by_cases heq : k = k' <;> simp [hmem, heq]

/-- The dependencies of the change set still hold of the current map. -/
def Valid (cs : ChangeSet K V) (current : VersionedMap K V) : Prop :=
  cs.writes.entries = [] ∨
    (cs.iterated = true → cs.state.version = current.version) ∧
      ∀ k ∈ cs.reads, current.dependency k = cs.state.dependency k

instance (cs : ChangeSet K V) (current : VersionedMap K V) : Decidable (cs.Valid current) :=
  have : Decidable (cs.writes.entries = []) := decidable_of_iff _ isEmpty_iff
  inferInstanceAs (Decidable (_ ∨ _))

/-- Applying the writes to the current map changes it. -/
def changes (cs : ChangeSet K V) (current : VersionedMap K V) : Bool :=
  cs.writes.entries.any fun w => w.2.isSome || (current.rows w.1).isSome

/-- Apply one write; a row is only marked removed if the map has an entry for it. -/
def applyWrite (version : Nat) (m : AList fun _ : K => Entry V) (w : Sigma fun _ : K => Option V) :
    AList fun _ : K => Entry V :=
  match w.2 with
  | some v => m.insert w.1 ⟨version, some v⟩
  | none => if (m.lookup w.1).isSome then m.insert w.1 ⟨version, none⟩ else m

/-- The current map with the writes applied at a version. -/
def commit (cs : ChangeSet K V) (version : Nat) (current : VersionedMap K V) :
    VersionedMap K V :=
  if cs.changes current then
    ⟨version, cs.writes.entries.foldl (applyWrite version) current.entries⟩
  else current

/-- The entry that a write leaves. -/
def writtenEntry (version : Nat) (w : Option V) (old : Option (Entry V)) : Option (Entry V) :=
  match w with
  | some v => some ⟨version, some v⟩
  | none => old.map fun _ => ⟨version, none⟩

private theorem lookup_applyWrite (version : Nat) (m : AList fun _ : K => Entry V)
    (w : Sigma fun _ : K => Option V) (k : K) : (applyWrite version m w).lookup k =
      if k = w.1 then writtenEntry version w.2 (m.lookup k) else m.lookup k := by
  obtain ⟨k', w⟩ := w
  by_cases h : k = k'
  · subst h
    cases w with
    | some v => simp [applyWrite, writtenEntry]
    | none => cases hm : m.lookup k <;> simp [applyWrite, writtenEntry, hm]
  · cases w with
    | some v => simp [applyWrite, h, AList.lookup_insert_ne h]
    | none =>
      cases hm : m.lookup k' <;> simp [applyWrite, h, hm, AList.lookup_insert_ne h]

private theorem lookup_foldl_applyWrite (version : Nat) {ws : List (Sigma fun _ : K => Option V)}
    (hws : ws.NodupKeys) (m : AList fun _ : K => Entry V) (k : K) :
    (ws.foldl (applyWrite version) m).lookup k = match ws.dlookup k with
      | some w => writtenEntry version w (m.lookup k) | none => m.lookup k := by
  induction ws generalizing m with
  | nil => rfl
  | cons w ws ih =>
    obtain ⟨hw, hws⟩ := nodupKeys_cons.mp hws
    rw [foldl_cons, ih hws, lookup_applyWrite]
    by_cases h : k = w.1
    · subst h
      rw [dlookup_eq_none.mpr hw, if_pos rfl, dlookup_cons_eq]
    · rw [if_neg h, dlookup_cons_ne _ _ h]

/-- The rows after a commit. -/
theorem rows_commit (cs : ChangeSet K V) (version : Nat) (current : VersionedMap K V) (k : K) :
    (cs.commit version current).rows k = match cs.writes.lookup k with
      | some w => writtenEntry version w (current.rows k) | none => current.rows k := by
  cases hchanges : cs.changes current with
  | true =>
    rw [commit, if_pos hchanges]
    exact lookup_foldl_applyWrite version cs.writes.nodupKeys current.entries k
  | false =>
    rw [commit, if_neg (by simp [hchanges])]
    cases hw : cs.writes.lookup k with
    | none => rfl
    | some w =>
      have hmem := AList.mem_lookup_iff.mp hw
      have hnone := any_eq_false.mp hchanges _ hmem
      simp only [Bool.or_eq_true, not_or, Bool.not_eq_true, Option.isSome_eq_false_iff,
        Option.isNone_iff_eq_none] at hnone
      simp only [hnone.1, hnone.2, writtenEntry, Option.map_none]

/-- After a commit a reader finds the writes, and the current values elsewhere. -/
theorem content_commit (cs : ChangeSet K V) (version : Nat) (current : VersionedMap K V) (k : K) :
    (cs.commit version current).content k = (cs.writes.lookup k).getD (current.content k) := by
  simp only [VersionedMap.content, rows_commit]
  rcases cs.writes.lookup k with _ | _ | v
  · rfl
  · cases current.rows k <;> rfl
  · rfl

/-- Committed to the map it began with, a transaction leaves exactly what it saw. -/
@[simp] theorem content_commit_state (cs : ChangeSet K V) (version : Nat) :
    (cs.commit version cs.state).content = cs.view := by
  funext k
  rw [content_commit, view_eq_getD]

/-- A row that is not written keeps its entry. -/
theorem rows_commit_of_lookup_eq_none (h : cs.writes.lookup k = none) :
    (cs.commit version current).rows k = current.rows k := by
  rw [rows_commit, h]

/-- A transaction without writes leaves the map alone. -/
theorem commit_of_writes_eq_empty (h : cs.writes = ∅) (version : Nat) (current : VersionedMap K V) :
    cs.commit version current = current := by
  rw [commit, if_neg]
  rw [changes, h]
  exact Bool.false_ne_true

/-- A commit at a fresh version gives a later state of the map. -/
theorem extends_commit (cs : ChangeSet K V) (hb : current.Bounded n) (hn : n < version) :
    Extends current (cs.commit version current) := by
  refine ⟨?_, fun k => ?_⟩
  · rw [commit]
    split
    · exact Or.inr (Nat.lt_of_le_of_lt hb.version_le hn)
    · exact Or.inl rfl
  · have hlater : ∀ e, current.rows k = some e → e.version < version :=
      fun e he => Nat.lt_of_le_of_lt (hb.row_le k e he) hn
    rw [rows_commit]
    rcases cs.writes.lookup k with _ | _ | v
    · exact Or.inl rfl
    · cases hrow : current.rows k with
      | none => exact Or.inl rfl
      | some e =>
        refine Or.inr ⟨⟨version, none⟩, rfl, ?_⟩
        rintro e' ⟨⟩
        exact hlater e hrow
    · exact Or.inr ⟨⟨version, some v⟩, rfl, hlater⟩

/-- The versions of a committed map are bounded by the version of the commit. -/
theorem bounded_commit (cs : ChangeSet K V) (hb : current.Bounded n) (hn : n ≤ version) :
    (cs.commit version current).Bounded version := by
  have hb := hb.mono hn
  refine ⟨?_, fun k e he => ?_⟩
  · rw [commit]
    split
    · exact le_rfl
    · exact hb.version_le
  · rw [rows_commit] at he
    rcases hw : cs.writes.lookup k with _ | _ | v
    · rw [hw] at he
      exact hb.row_le k e he
    · rw [hw] at he
      obtain ⟨_, -, rfl⟩ := Option.map_eq_some_iff.mp he
      exact le_rfl
    · rw [hw] at he
      cases he
      exact le_rfl

/-- Nothing conflicts with the map that the transaction began with. -/
theorem valid_state (cs : ChangeSet K V) : cs.Valid cs.state :=
  Or.inr ⟨fun _ => rfl, fun _ _ => rfl⟩

/-- A transaction that iterated over a map and still validates saw the current map. -/
theorem Valid.eq_state_of_iterated (h : cs.Valid current) (hext : Extends cs.state current)
    (hiter : cs.iterated = true) (hwrites : cs.writes.entries ≠ []) : current = cs.state := by
  rcases h with h | ⟨hversion, -⟩
  · exact absurd h hwrites
  · exact hext.eq_of_version (hversion hiter)

/-- A transaction that read a row and still validates saw the current row. -/
theorem Valid.rows_eq_of_mem_reads (h : cs.Valid current) (hext : Extends cs.state current)
    (hk : k ∈ cs.reads) (hwrites : cs.writes.entries ≠ []) : current.rows k = cs.state.rows k := by
  rcases h with h | ⟨-, hreads⟩
  · exact absurd h hwrites
  · exact hext.row_eq_of_dependency (hreads k hk)

end ChangeSet

end CloakBridge.Kv
