import CloakBridge.Core.Kv.Map
import Mathlib.Data.Fintype.Defs

/-!
# Transactions over a store of several maps

A store has one versioned map for every table name, and a transaction one change set for
each. A transaction is validated table by table and then applied to all tables at one new
version.
-/


namespace CloakBridge.Kv

open Function

/-- One map for every table name, with its own types of keys and values. -/
abbrev Tables {ι : Type} (M : Type → Type → Type) (Key Val : ι → Type) :=
  (t : ι) → M (Key t) (Val t)

namespace Tables

variable {ι : Type} {Key Val : ι → Type} [DecidableEq ι] [∀ t, DecidableEq (Key t)]

/-- The contents of a committed store. -/
def content (s : Tables VersionedMap Key Val) : Tables Content Key Val := fun t => (s t).content

/-- The transaction that just began on a store. -/
def start (s : Tables VersionedMap Key Val) : Tables ChangeSet Key Val :=
  fun t => ChangeSet.start (s t)

/-- The store a transaction began with. -/
def origin (tx : Tables ChangeSet Key Val) : Tables VersionedMap Key Val := fun t => (tx t).state

/-- The contents a transaction sees. -/
def view (tx : Tables ChangeSet Key Val) : Tables Content Key Val := fun t => (tx t).view

/-- Replace one row of plain contents. -/
def setRow (c : Tables Content Key Val) (t : ι) (k : Key t) (v : Option (Val t)) :
    Tables Content Key Val :=
  update c t (update (c t) k v)

/-- Record a read of one row. -/
def noteRead (tx : Tables ChangeSet Key Val) (t : ι) (k : Key t) : Tables ChangeSet Key Val :=
  update tx t ((tx t).noteRead k)

/-- Record an iteration over one table. -/
def noteIteration (tx : Tables ChangeSet Key Val) (t : ι) : Tables ChangeSet Key Val :=
  update tx t (tx t).noteIteration

/-- Write one row. -/
def put (tx : Tables ChangeSet Key Val) (t : ι) (k : Key t) (v : Val t) :
    Tables ChangeSet Key Val :=
  update tx t ((tx t).put k v)

/-- Remove one row. -/
def remove (tx : Tables ChangeSet Key Val) (t : ι) (k : Key t) : Tables ChangeSet Key Val :=
  update tx t ((tx t).remove k)

/-- All dependencies of a transaction still hold. -/
def Valid (tx : Tables ChangeSet Key Val) (s : Tables VersionedMap Key Val) : Prop :=
  ∀ t, (tx t).Valid (s t)

instance [Fintype ι] (tx : Tables ChangeSet Key Val) (s : Tables VersionedMap Key Val) :
    Decidable (tx.Valid s) :=
  inferInstanceAs (Decidable (∀ t, (tx t).Valid (s t)))

/-- Apply the writes of a transaction to a store. -/
def commit (tx : Tables ChangeSet Key Val) (version : Nat) (s : Tables VersionedMap Key Val) :
    Tables VersionedMap Key Val :=
  fun t => (tx t).commit version (s t)

/-- All versions of the store are at most `n`. -/
def Bounded (s : Tables VersionedMap Key Val) (n : Nat) : Prop := ∀ t, (s t).Bounded n

/-- Every table of `new` is a later state of the table in `old`. -/
def Extends (old new : Tables VersionedMap Key Val) : Prop := ∀ t, Kv.Extends (old t) (new t)

variable {t : ι}

@[simp] theorem setRow_self (c : Tables Content Key Val) (t : ι) (k : Key t) (v : Option (Val t)) :
    setRow c t k v t = update (c t) k v :=
  update_self _ _ _

theorem setRow_of_ne (c : Tables Content Key Val) {t' : ι} (h : t' ≠ t) (k : Key t)
    (v : Option (Val t)) : setRow c t k v t' = c t' :=
  update_of_ne h _ _

theorem setRow_apply_of_ne (c : Tables Content Key Val) (t : ι) {k k' : Key t} (h : k' ≠ k)
    (v : Option (Val t)) : setRow c t k v t k' = c t k' := by
  rw [setRow_self, update_of_ne h]

omit [DecidableEq ι] in
@[simp] theorem view_start (s : Tables VersionedMap Key Val) : (start s).view = s.content := rfl

omit [DecidableEq ι] [(t : ι) → DecidableEq (Key t)] in
@[simp] theorem origin_start (s : Tables VersionedMap Key Val) : (start s).origin = s := rfl

/-- Replacing the change set of one table replaces its view. -/
private theorem view_update (tx : Tables ChangeSet Key Val) (t : ι)
    (cs : ChangeSet (Key t) (Val t)) : view (update tx t cs) = update tx.view t cs.view := by
  funext t'
  by_cases h : t' = t
  · subst h
    simp only [view, update_self]
  · simp only [view, update_of_ne h]

/-- A read changes nothing that is seen. -/
@[simp] theorem view_noteRead (tx : Tables ChangeSet Key Val) (t : ι) (k : Key t) :
    (tx.noteRead t k).view = tx.view := by
  rw [noteRead, view_update, ChangeSet.view_noteRead]
  exact update_eq_self t tx.view

@[simp] theorem view_noteIteration (tx : Tables ChangeSet Key Val) (t : ι) :
    (tx.noteIteration t).view = tx.view := by
  rw [noteIteration, view_update, ChangeSet.view_noteIteration]
  exact update_eq_self t tx.view

/-- What is put is seen. -/
@[simp] theorem view_put (tx : Tables ChangeSet Key Val) (t : ι) (k : Key t) (v : Val t) :
    (tx.put t k v).view = setRow tx.view t k (some v) := by
  rw [put, view_update, ChangeSet.view_put]
  rfl

/-- A removal is seen. -/
@[simp] theorem view_remove (tx : Tables ChangeSet Key Val) (t : ι) (k : Key t) :
    (tx.remove t k).view = setRow tx.view t k none := by
  rw [remove, view_update, ChangeSet.view_remove]
  rfl

omit [(t : ι) → DecidableEq (Key t)] in
/-- Replacing a change set by one over the same map keeps the origin. -/
private theorem origin_update {tx : Tables ChangeSet Key Val} {cs : ChangeSet (Key t) (Val t)}
    (h : cs.state = (tx t).state) : origin (update tx t cs) = tx.origin := by
  funext t'
  by_cases ht : t' = t
  · subst ht
    simp only [origin, update_self, h]
  · simp only [origin, update_of_ne ht]

@[simp] theorem origin_noteRead (tx : Tables ChangeSet Key Val) (t : ι) (k : Key t) :
    (tx.noteRead t k).origin = tx.origin :=
  origin_update (ChangeSet.state_noteRead _ _)

omit [(t : ι) → DecidableEq (Key t)] in
@[simp] theorem origin_noteIteration (tx : Tables ChangeSet Key Val) (t : ι) :
    (tx.noteIteration t).origin = tx.origin :=
  origin_update rfl

@[simp] theorem origin_put (tx : Tables ChangeSet Key Val) (t : ι) (k : Key t) (v : Val t) :
    (tx.put t k v).origin = tx.origin :=
  origin_update rfl

@[simp] theorem origin_remove (tx : Tables ChangeSet Key Val) (t : ι) (k : Key t) :
    (tx.remove t k).origin = tx.origin :=
  origin_update (ChangeSet.state_remove _ _)

section

omit [DecidableEq ι]

variable {version n : Nat}

/-- Committed to the store it began with, a transaction leaves exactly what it saw. -/
@[simp] theorem content_commit_origin (tx : Tables ChangeSet Key Val) (version : Nat) :
    (tx.commit version tx.origin).content = tx.view :=
  funext fun t => ChangeSet.content_commit_state (tx t) version

/-- A transaction is valid where it began. -/
theorem valid_origin (tx : Tables ChangeSet Key Val) : tx.Valid tx.origin :=
  fun t => (tx t).valid_state

/-- A commit at a fresh version leads to a later state of the store. -/
theorem extends_commit (tx : Tables ChangeSet Key Val) {s : Tables VersionedMap Key Val}
    (hb : s.Bounded n) (hn : n < version) : Extends s (tx.commit version s) :=
  fun t => (tx t).extends_commit (hb t) hn

/-- A commit has the latest version. -/
theorem bounded_commit (tx : Tables ChangeSet Key Val) {s : Tables VersionedMap Key Val}
    (hb : s.Bounded n) (hn : n ≤ version) : (tx.commit version s).Bounded version :=
  fun t => (tx t).bounded_commit (hb t) hn

theorem Extends.refl (s : Tables VersionedMap Key Val) : Extends s s :=
  fun t => Kv.Extends.refl (s t)

theorem Extends.trans {a b c : Tables VersionedMap Key Val} (hab : Extends a b)
    (hbc : Extends b c) : Extends a c :=
  fun t => (hab t).trans (hbc t)

end

end Tables

end CloakBridge.Kv
