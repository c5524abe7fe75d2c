import Mathlib.Data.Finset.Dedup
import Mathlib.Data.Finset.Insert
import Mathlib.Data.List.Nodup
import Mathlib.Logic.Function.Basic

/-!
# Slots that several submissions fill

A form has slots, and a submission carries entries for some of them. A submission is taken
up entry by entry until no slot is empty. An entry that belongs to no slot rejects it, and
a null entry fills its slot only until the submission is stored. A submission that leaves
no slot empty is announced, with all submissions accepted before it.
-/

namespace CloakBridge

open Function List

variable {ι V S : Type}

/-- The slots, and what each submission has for them. -/
structure Form (ι V S : Type) where
  slots : Set ι
  null : V → Prop
  entries : S → List (Option ι × V)
  mem_slots : ∀ s i v, (some i, v) ∈ entries s → i ∈ slots
  /-- A submission has at most one entry for a slot. -/
  distinct : ∀ s, ((entries s).filterMap Prod.fst).Nodup

namespace Form

/-- How far the slots are filled, who has been accepted, and what has been announced. -/
@[ext]
structure Progress (ι V S : Type) where
  values : ι → Option V
  accepted : Finset S
  announced : List (Finset S)

/-- No slot is empty. -/
def Full (F : Form ι V S) (f : ι → Option V) : Prop := ∀ j ∈ F.slots, f j ≠ none

/-- Some entry is for this slot. -/
def Mentions (es : List (Option ι × V)) (i : ι) : Prop := ∃ v, (some i, v) ∈ es

/-- A slot that is empty has no entry either. -/
def Open (F : Form ι V S) (f : ι → Option V) (es : List (Option ι × V)) : Prop :=
  ∃ j ∈ F.slots, f j = none ∧ ¬ Mentions es j

/-- The entry comes when there is still an empty slot. -/
def Takes (F : Form ι V S) (f : ι → Option V) (es : List (Option ι × V)) (e : Option ι × V) :
    Prop :=
  ∃ pre post, es = pre ++ e :: post ∧ F.Open f pre

/-- The submission has a value for the slot. -/
def Supplies (F : Form ι V S) (s : S) (i : ι) (v : V) : Prop :=
  (some i, v) ∈ F.entries s ∧ ¬ F.null v

/-- No value is lost or replaced. -/
def Keeps (f g : ι → Option V) : Prop := ∀ i v, f i = some v → g i = some v

section Fill

variable [DecidableEq ι] (F : Form ι V S)

open Classical in
/-- Enter one entry after the other, as long as a slot is empty. -/
noncomputable def fill : (ι → Option V) → List (Option ι × V) → Option (ι → Option V)
  | f, [] => some f
  | f, (k, v) :: es =>
    if F.Full f then some f
    else
      match k with
      | none => none
      | some i => fill (update f i (some v)) es

open Classical in
/-- Nulls are not stored. -/
noncomputable def stored (f : ι → Option V) (i : ι) : Option V :=
  (f i).filter fun v => ¬ F.null v

variable [DecidableEq S]

open Classical in
/-- One submission arrives. -/
noncomputable def submit (p : Progress ι V S) (s : S) : Progress ι V S :=
  match F.fill p.values (F.entries s) with
  | none => p
  | some f =>
    { values := F.stored f
      accepted := insert s p.accepted
      announced := if F.Full f then p.announced ++ [insert s p.accepted] else p.announced }

/-- The submissions arrive in this order. -/
noncomputable def run (p : Progress ι V S) (L : List S) : Progress ι V S := L.foldl F.submit p

/-- Nobody has submitted anything yet. -/
def start (f : ι → Option V) : Progress ι V S := ⟨f, ∅, []⟩

/-- Every order of the submissions has the same outcome, and values stay. -/
structure OrderIndependent (f : ι → Option V) (L : List S) : Prop where
  same : ∀ M, M.Perm L → F.run (start f) M = F.run (start f) L
  keeps : ∀ A s B, (A ++ s :: B).Perm L →
    Keeps (F.run (start f) A).values (F.run (start f) (A ++ [s])).values

/-- The entry comes when there is still an empty slot, and none of `T` supplies that slot. -/
def Reached (f : ι → Option V) (T : List S) (s : S) (e : Option ι × V) : Prop :=
  ∃ pre post, F.entries s = pre ++ e :: post ∧
    ∃ j ∈ F.slots, f j = none ∧ (∀ t ∈ T, ∀ v, ¬ F.Supplies t j v) ∧ ¬ Mentions pre j

/-- When the order of the submissions does not matter. -/
structure Compatible (f : ι → Option V) (L : List S) : Prop where
  /-- Entries that are read belong to slots. -/
  known : ∀ s ∈ L, ∀ v, ¬ F.Reached f [] s (none, v)
  /-- Entries that are read repeat the values that were there before. -/
  repeats : ∀ s ∈ L, ∀ i v w, F.Reached f [] s (some i, v) → f i = some w → v = w
  /-- Nulls that are read do not meet a value of another. -/
  spares : ∀ s ∈ L, ∀ t ∈ L, s ≠ t → ∀ i v w,
    F.Reached f [t] s (some i, v) → F.Supplies t i w → ¬ F.null v
  /-- Values for the same slot are the same. -/
  agree : ∀ s ∈ L, ∀ t ∈ L, ∀ i v w, F.Supplies s i v → F.Supplies t i w → v = w
  /-- Everyone but `t` together, the last of them `s`, leaves a slot empty. -/
  waits : ∀ s ∈ L, ∀ t ∈ L, s ≠ t → ∃ j ∈ F.slots, f j = none ∧
    (∀ u ∈ L, u ≠ t → ∀ v, ¬ F.Supplies u j v) ∧ ¬ Mentions (F.entries s) j

end Fill

section Filling

variable {F : Form ι V S} {f g : ι → Option V} {es pre post : List (Option ι × V)}
  {e : Option ι × V} {i : ι} {v w : V}

private theorem not_full_iff : ¬ F.Full f ↔ F.Open f [] := by
  simp [Full, Open, Mentions]

private theorem Open.of_append (h : F.Open f (pre ++ post)) : F.Open f pre := by
  obtain ⟨j, hj, hempty, hfree⟩ := h
  refine ⟨j, hj, hempty, ?_⟩
  rintro ⟨v, hv⟩
  exact hfree ⟨v, mem_append_left _ hv⟩

private theorem Takes.not_full (h : F.Takes f es e) : ¬ F.Full f := by
  obtain ⟨pre, post, -, hopen⟩ := h
  exact not_full_iff.mpr (Open.of_append hopen)

private theorem Takes.mem (h : F.Takes f es e) : e ∈ es := by
  obtain ⟨pre, post, rfl, -⟩ := h
  simp

/-- While a slot is empty to the end, every entry is taken. -/
theorem Open.takes (h : F.Open f es) (he : e ∈ es) : F.Takes f es e := by
  obtain ⟨pre, post, rfl⟩ := append_of_mem he
  exact ⟨pre, post, rfl, h.of_append⟩

private theorem eq_of_distinct (hdistinct : (es.filterMap Prod.fst).Nodup) (hv : (some i, v) ∈ es)
    (hw : (some i, w) ∈ es) : v = w := by
  induction es with
  | nil => cases hv
  | cons e es ih =>
    have hno : ∀ {u}, e.1 = some i → (some i, u) ∉ es := by
      intro u he hu
      rw [filterMap_cons_some he, nodup_cons] at hdistinct
      exact hdistinct.1 (mem_filterMap.mpr ⟨_, hu, rfl⟩)
    rcases mem_cons.mp hv with rfl | hv' <;> rcases mem_cons.mp hw with hhead | hw'
    · cases hhead
      rfl
    · exact absurd hw' (hno rfl)
    · subst hhead
      exact absurd hv' (hno rfl)
    · refine ih ?_ hv' hw'
      exact hdistinct.sublist ((sublist_cons_self _ _).filterMap _)

private theorem ne_none_of_not_takes (hdistinct : (es.filterMap Prod.fst).Nodup) (hi : i ∈ F.slots)
    (hmem : (some i, v) ∈ es) (h : ¬ F.Takes f es (some i, v)) : f i ≠ none := by
  intro hempty
  obtain ⟨pre, post, rfl⟩ := append_of_mem hmem
  refine h ⟨pre, post, rfl, i, hi, hempty, ?_⟩
  rintro ⟨w, hw⟩
  rw [filterMap_append, nodup_append] at hdistinct
  exact hdistinct.2.2 i (mem_filterMap.mpr ⟨_, hw, rfl⟩) i
    (mem_filterMap.mpr ⟨_, mem_cons_self, rfl⟩) rfl

/-- What is stored is what was filled in, unless it is null. -/
theorem stored_eq_some : F.stored f i = some v ↔ f i = some v ∧ ¬ F.null v := by
  simp [stored, Option.filter_eq_some_iff]

variable [DecidableEq ι]

/-- Full slots take nothing. -/
theorem fill_of_full (h : F.Full f) : F.fill f es = some f := by
  cases es with
  | nil => rfl
  | cons e es => exact if_pos h

/-- An entry without a slot is rejected. -/
theorem fill_none (h : ¬ F.Full f) : F.fill f ((none, v) :: es) = none := if_neg h

/-- An entry fills its slot. -/
theorem fill_some (h : ¬ F.Full f) :
    F.fill f ((some i, v) :: es) = F.fill (update f i (some v)) es :=
  if_neg h

private theorem open_update : F.Open (update f i (some v)) es ↔ F.Open f ((some i, v) :: es) := by
  constructor
  · rintro ⟨j, hj, hempty, hfree⟩
    have hij : j ≠ i := by
      rintro rfl
      simp at hempty
    rw [update_of_ne hij] at hempty
    refine ⟨j, hj, hempty, ?_⟩
    rintro ⟨w, hw⟩
    rcases mem_cons.mp hw with hhead | hrest
    · cases hhead
      exact hij rfl
    · exact hfree ⟨w, hrest⟩
  · rintro ⟨j, hj, hempty, hfree⟩
    have hij : j ≠ i := by
      rintro rfl
      exact hfree ⟨v, mem_cons_self⟩
    refine ⟨j, hj, by rwa [update_of_ne hij], ?_⟩
    rintro ⟨w, hw⟩
    exact hfree ⟨w, mem_cons_of_mem _ hw⟩

private theorem takes_cons : F.Takes f ((some i, v) :: es) e ↔
    ¬ F.Full f ∧ (e = (some i, v) ∨ F.Takes (update f i (some v)) es e) := by
  constructor
  · intro h
    refine ⟨h.not_full, ?_⟩
    obtain ⟨pre, post, hes, hopen⟩ := h
    cases pre with
    | nil => exact .inl (List.cons.inj hes).1.symm
    | cons a pre =>
      obtain ⟨rfl, rfl⟩ := List.cons.inj hes
      exact .inr ⟨pre, post, rfl, open_update.mpr hopen⟩
  · rintro ⟨hfull, rfl | ⟨pre, post, rfl, hopen⟩⟩
    · exact ⟨[], es, rfl, not_full_iff.mp hfull⟩
    · exact ⟨(some i, v) :: pre, post, rfl, open_update.mp hopen⟩

/-- A submission is accepted if every entry that is taken belongs to a slot. -/
theorem exists_fill (h : ∀ v, ¬ F.Takes f es (none, v)) : ∃ g, F.fill f es = some g := by
  induction es generalizing f with
  | nil => exact ⟨f, rfl⟩
  | cons e es ih =>
    obtain ⟨k, v⟩ := e
    by_cases hfull : F.Full f
    · exact ⟨f, fill_of_full hfull⟩
    · cases k with
      | none => exact absurd ⟨[], es, rfl, not_full_iff.mp hfull⟩ (h v)
      | some i =>
        obtain ⟨g, hg⟩ := ih fun w hw => h w (takes_cons.mpr ⟨hfull, .inr hw⟩)
        exact ⟨g, (fill_some hfull).trans hg⟩

private theorem not_takes_none (h : F.fill f es = some g) : ¬ F.Takes f es (none, v) := by
  induction es generalizing f with
  | nil => exact fun htakes => absurd htakes.mem not_mem_nil
  | cons e es ih =>
    intro htakes
    obtain ⟨k, w⟩ := e
    cases k with
    | none =>
      rw [fill_none htakes.not_full] at h
      cases h
    | some i =>
      rw [fill_some htakes.not_full] at h
      rcases (takes_cons.mp htakes).2 with hhead | hrest
      · cases hhead
      · exact ih h hrest

private theorem fill_of_not_takes (h : F.fill f es = some g)
    (hi : ∀ v, ¬ F.Takes f es (some i, v)) :
    g i = f i := by
  induction es generalizing f with
  | nil =>
    cases h
    rfl
  | cons e es ih =>
    obtain ⟨k, w⟩ := e
    by_cases hfull : F.Full f
    · rw [fill_of_full hfull] at h
      cases h
      rfl
    · cases k with
      | none =>
        rw [fill_none hfull] at h
        cases h
      | some j =>
        rw [fill_some hfull] at h
        have hij : i ≠ j := by
          rintro rfl
          exact hi w (takes_cons.mpr ⟨hfull, .inl rfl⟩)
        rw [ih h fun v hv => hi v (takes_cons.mpr ⟨hfull, .inr hv⟩), update_of_ne hij]

private theorem fill_of_takes (hdistinct : (es.filterMap Prod.fst).Nodup) (h : F.fill f es = some g)
    (hi : F.Takes f es (some i, v)) : g i = some v := by
  induction es generalizing f with
  | nil => exact absurd hi.mem not_mem_nil
  | cons e es ih =>
    obtain ⟨k, w⟩ := e
    cases k with
    | none =>
      rw [fill_none hi.not_full] at h
      cases h
    | some j =>
      rw [fill_some hi.not_full] at h
      rw [filterMap_cons, nodup_cons] at hdistinct
      rcases (takes_cons.mp hi).2 with hhead | hrest
      · cases hhead
        rw [fill_of_not_takes h, update_self]
        intro u hu
        exact hdistinct.1 (mem_filterMap.mpr ⟨_, hu.mem, rfl⟩)
      · exact ih hdistinct.2 h hrest

private theorem full_fill (hdistinct : (es.filterMap Prod.fst).Nodup) (h : F.fill f es = some g) :
    F.Full g ↔ ¬ F.Open f es := by
  constructor
  · rintro hfull ⟨j, hj, hempty, hfree⟩
    refine hfull j hj ?_
    rw [fill_of_not_takes h fun v hv => hfree ⟨v, hv.mem⟩, hempty]
  · intro hopen j hj hempty
    by_cases htakes : ∃ v, F.Takes f es (some j, v)
    · obtain ⟨v, hv⟩ := htakes
      simp [fill_of_takes hdistinct h hv] at hempty
    · have hnot := fun v hv => htakes ⟨v, hv⟩
      rw [fill_of_not_takes h hnot] at hempty
      refine hopen ⟨j, hj, hempty, ?_⟩
      rintro ⟨v, hv⟩
      exact ne_none_of_not_takes hdistinct hj hv (hnot v) hempty

end Filling

section Runs

variable [DecidableEq ι] [DecidableEq S] {F : Form ι V S} {f : ι → Option V}
  {p : Progress ι V S} {s t : S} {A B L : List S} {X : Finset S} {i : ι} {v w : V}

@[simp]
theorem run_nil : F.run p [] = p := rfl

@[simp]
theorem run_cons : F.run p (s :: L) = F.run (F.submit p s) L := rfl

private theorem run_append : F.run p (A ++ B) = F.run (F.run p A) B := foldl_append

/-- The last submission meets what the others leave. -/
theorem run_concat : F.run p (A ++ [s]) = F.submit (F.run p A) s := run_append

/-- A submission is rejected without effect, or accepted. -/
theorem submit_cases (F : Form ι V S) (p : Progress ι V S) (s : S) :
    (F.fill p.values (F.entries s) = none ∧ F.submit p s = p) ∨
      ∃ g, F.fill p.values (F.entries s) = some g ∧ (F.submit p s).values = F.stored g ∧
        (F.submit p s).accepted = insert s p.accepted ∧
          ((F.Full g ∧ (F.submit p s).announced = p.announced ++ [insert s p.accepted]) ∨
            (¬ F.Full g ∧ (F.submit p s).announced = p.announced)) := by
  rw [submit]
  cases hfill : F.fill p.values (F.entries s) with
  | none => exact .inl ⟨rfl, rfl⟩
  | some g =>
    refine .inr ⟨g, rfl, rfl, rfl, ?_⟩
    by_cases hfull : F.Full g
    · exact .inl ⟨hfull, if_pos hfull⟩
    · exact .inr ⟨hfull, if_neg hfull⟩

private theorem mem_accepted_submit (h : t ∈ (F.submit p s).accepted) : t = s ∨ t ∈ p.accepted := by
  rcases submit_cases F p s with ⟨-, hp⟩ | ⟨g, -, -, hp, -⟩ <;> rw [hp] at h
  · exact .inr h
  · exact Finset.mem_insert.mp h

private theorem accepted_subset_submit : p.accepted ⊆ (F.submit p s).accepted := by
  rcases submit_cases F p s with ⟨-, hp⟩ | ⟨g, -, -, hp, -⟩ <;> rw [hp]
  exact Finset.subset_insert s p.accepted

private theorem mem_accepted_run (h : t ∈ (F.run p L).accepted) : t ∈ L ∨ t ∈ p.accepted := by
  induction L generalizing p with
  | nil => exact .inr h
  | cons s L ih =>
    rcases ih h with hL | hs
    · exact .inl (mem_cons_of_mem s hL)
    · rcases mem_accepted_submit hs with rfl | hp
      · exact .inl mem_cons_self
      · exact .inr hp

private theorem announced_submit_prefix : p.announced <+: (F.submit p s).announced := by
  rcases submit_cases F p s with ⟨-, h⟩ | ⟨g, -, -, -, ⟨-, h⟩ | ⟨-, h⟩⟩
  · rw [h]
  · exact ⟨_, h.symm⟩
  · rw [h]

private theorem announced_run_prefix : p.announced <+: (F.run p L).announced := by
  induction L generalizing p with
  | nil => exact prefix_rfl
  | cons s L ih => exact announced_submit_prefix.trans ih

/-- An announcement names those who had been accepted, and no one who has not submitted. -/
theorem announced_submit (h : X ∈ (F.submit p s).announced) :
    X ∈ p.announced ∨ X = insert s p.accepted := by
  rcases submit_cases F p s with ⟨-, hp⟩ | ⟨g, -, -, -, ⟨-, hp⟩ | ⟨-, hp⟩⟩ <;> rw [hp] at h
  · exact .inl h
  · simpa using h
  · exact .inl h

private theorem announced_run (h : X ∈ (F.run p L).announced) :
    X ∈ p.announced ∨ (p.accepted ⊆ X ∧ ∀ t ∈ X, t ∈ L ∨ t ∈ p.accepted) := by
  induction L generalizing p with
  | nil => exact .inl h
  | cons s L ih =>
    rcases ih h with hX | ⟨hsub, hsup⟩
    · rcases announced_submit hX with hX | rfl
      · exact .inl hX
      · refine .inr ⟨Finset.subset_insert s _, fun t ht => ?_⟩
        rcases Finset.mem_insert.mp ht with rfl | hp
        · exact .inl mem_cons_self
        · exact .inr hp
    · refine .inr ⟨accepted_subset_submit.trans hsub, fun t ht => ?_⟩
      rcases hsup t ht with hL | hs
      · exact .inl (mem_cons_of_mem s hL)
      · rcases mem_accepted_submit hs with rfl | hp
        · exact .inl mem_cons_self
        · exact .inr hp

private theorem mem_accepted_of_full (h : F.Full p.values) : s ∈ (F.submit p s).accepted := by
  rcases submit_cases F p s with ⟨hnone, -⟩ | ⟨g, -, -, hp, -⟩
  · rw [fill_of_full h] at hnone
    cases hnone
  · rw [hp]
    exact Finset.mem_insert_self s p.accepted

private theorem values_submit_eq_none (hempty : p.values i = none) (h : ∀ v, ¬ F.Supplies s i v) :
    (F.submit p s).values i = none := by
  rcases submit_cases F p s with ⟨-, hp⟩ | ⟨g, hg, hp, -⟩ <;> rw [hp]
  · exact hempty
  · rw [Option.eq_none_iff_forall_ne_some]
    intro v hv
    obtain ⟨hgi, hnull⟩ := stored_eq_some.mp hv
    by_cases htakes : ∃ w, F.Takes p.values (F.entries s) (some i, w)
    · obtain ⟨w, hw⟩ := htakes
      rw [fill_of_takes (F.distinct s) hg hw] at hgi
      cases hgi
      exact h v ⟨hw.mem, hnull⟩
    · rw [fill_of_not_takes hg fun w hw => htakes ⟨w, hw⟩, hempty] at hgi
      cases hgi

private theorem values_run_eq_none (hempty : p.values i = none)
    (h : ∀ s ∈ L, ∀ v, ¬ F.Supplies s i v) :
    (F.run p L).values i = none := by
  induction L generalizing p with
  | nil => exact hempty
  | cons s L ih =>
    exact ih (values_submit_eq_none hempty (h s mem_cons_self))
      fun t ht => h t (mem_cons_of_mem s ht)

end Runs

variable {e : Option ι × V} {M : List S}

section Sufficient

variable {F : Form ι V S} {f q : ι → Option V} {s t : S} {A B L : List S} {i : ι} {v w : V}
  {q' : ι → Option V}

private theorem Reached.anti (h : F.Reached f A s e) (hBA : B ⊆ A) : F.Reached f B s e := by
  obtain ⟨pre, post, hes, j, hj, hempty, hnone, hfree⟩ := h
  exact ⟨pre, post, hes, j, hj, hempty, fun t ht => hnone t (hBA ht), hfree⟩

/-- What a slot holds after `A`: the first value, or what someone supplies. -/
def Merged (F : Form ι V S) (f : ι → Option V) (A : List S) (i : ι) (v : V) : Prop :=
  f i = some v ∨ (f i = none ∧ ∃ s ∈ A, F.Supplies s i v)

/-- The slots hold what `A` make of `f`. -/
def Merges (F : Form ι V S) (f : ι → Option V) (A : List S) (q : ι → Option V) : Prop :=
  ∀ i v, q i = some v ↔ F.Merged f A i v

private theorem Merged.mono (h : F.Merged f A i v) (hAB : A ⊆ B) : F.Merged f B i v := by
  rcases h with h | ⟨hempty, s, hs, hv⟩
  · exact .inl h
  · exact .inr ⟨hempty, s, hAB hs, hv⟩

private theorem Merges.eq_none_iff (h : F.Merges f A q) :
    q i = none ↔ f i = none ∧ ∀ t ∈ A, ∀ v, ¬ F.Supplies t i v := by
  rw [Option.eq_none_iff_forall_ne_some]
  constructor
  · intro hne
    have hempty : f i = none := Option.eq_none_iff_forall_ne_some.mpr fun v hv =>
      hne v ((h i v).mpr (.inl hv))
    exact ⟨hempty, fun t ht v hv => hne v ((h i v).mpr (.inr ⟨hempty, t, ht, hv⟩))⟩
  · rintro ⟨hempty, hnone⟩ v hv
    rcases (h i v).mp hv with hf | ⟨-, t, ht, hv⟩
    · simp [hempty] at hf
    · exact hnone t ht v hv

private theorem Merges.keeps (h : F.Merges f A q) (h' : F.Merges f B q') (hAB : A ⊆ B) :
    Keeps q q' := by
  intro i v hv
  exact (h' i v).mpr (((h i v).mp hv).mono hAB)

private theorem Merges.unique (h : F.Merges f A q) (h' : F.Merges f B q') (hAB : A.Perm B) :
    q = q' := by
  funext i
  ext v
  constructor
  · exact fun hv => h.keeps h' hAB.subset i v hv
  · exact fun hv => h'.keeps h hAB.symm.subset i v hv

private theorem Merges.takes_iff (h : F.Merges f A q) :
    F.Takes q (F.entries s) e ↔ F.Reached f A s e := by
  simp only [Takes, Open, Reached, h.eq_none_iff, and_assoc]

private theorem Keeps.trans {g h : ι → Option V} (hfg : Keeps f g) (hgh : Keeps g h) : Keeps f h :=
  fun i v hv => hgh i v (hfg i v hv)

variable [DecidableEq ι] (h : F.Compatible f L) (hf : ∀ i v, f i = some v → ¬ F.null v)

include h hf

/-- A submission that arrives after `A` is accepted and merged. -/
theorem Compatible.fill (hA : A ⊆ L) (hs : s ∈ L) (hsA : s ∉ A) (hq : F.Merges f A q) :
    ∃ g, F.fill q (F.entries s) = some g ∧ F.Merges f (A ++ [s]) (F.stored g) := by
  obtain ⟨g, hg⟩ : ∃ g, F.fill q (F.entries s) = some g :=
    exists_fill fun v hv => h.known s hs v ((hq.takes_iff.mp hv).anti (nil_subset A))
  refine ⟨g, hg, fun i v => ?_⟩
  rw [stored_eq_some]
  by_cases htakes : ∃ u, F.Takes q (F.entries s) (some i, u)
  · obtain ⟨u, hu⟩ := htakes
    have hreached := hq.takes_iff.mp hu
    have hrepeats := fun w => h.repeats s hs i u w (hreached.anti (nil_subset A))
    rw [fill_of_takes (F.distinct s) hg hu]
    constructor
    · rintro ⟨hv, hnull⟩
      cases hv
      cases hfi : f i with
      | none => exact .inr ⟨hfi, s, by simp, hu.mem, hnull⟩
      | some w =>
        rw [hrepeats w hfi]
        exact .inl hfi
    · rintro (hfi | ⟨hempty, t, ht, hv⟩)
      · rw [hrepeats v hfi]
        exact ⟨rfl, hf i v hfi⟩
      · rcases mem_append.mp ht with htA | hts
        · have hst : s ≠ t := by
            rintro rfl
            exact hsA htA
          have hnull := h.spares s hs t (hA htA) hst i u v (hreached.anti (by simpa using htA)) hv
          rw [h.agree s hs t (hA htA) i u v ⟨hu.mem, hnull⟩ hv]
          exact ⟨rfl, hv.2⟩
        · cases mem_singleton.mp hts
          rw [eq_of_distinct (F.distinct s) hu.mem hv.1]
          exact ⟨rfl, hv.2⟩
  · have hnot : ∀ u, ¬ F.Takes q (F.entries s) (some i, u) := fun u hu => htakes ⟨u, hu⟩
    rw [fill_of_not_takes hg hnot, hq i v]
    constructor
    · rintro ⟨hv, -⟩
      exact hv.mono (subset_append_left A [s])
    · rintro (hfi | ⟨hempty, t, ht, hv⟩)
      · exact ⟨.inl hfi, hf i v hfi⟩
      · rcases mem_append.mp ht with htA | hts
        · exact ⟨.inr ⟨hempty, t, htA, hv⟩, hv.2⟩
        · cases mem_singleton.mp hts
          -- the entry was passed over, so somebody else had filled its slot
          have hqi := ne_none_of_not_takes (F.distinct s) (F.mem_slots s i v hv.1) hv.1 (hnot v)
          obtain ⟨w, hw⟩ := Option.ne_none_iff_exists'.mp hqi
          rcases (hq i w).mp hw with hfi | ⟨-, t, htA, hsupply⟩
          · simp [hempty] at hfi
          · rw [h.agree s hs t (hA htA) i v w hv hsupply]
            exact ⟨.inr ⟨hempty, t, htA, hsupply⟩, hsupply.2⟩

variable [DecidableEq S]

omit h hf in
private theorem insert_toFinset (s : S) (A : List S) :
    insert s A.toFinset = (A ++ [s]).toFinset := by
  ext u
  rw [Finset.mem_insert, mem_toFinset, mem_toFinset, mem_append, mem_singleton]
  exact or_comm

/-- As long as somebody is missing, everyone is accepted and nothing is announced. -/
theorem Compatible.run (hM : M ⊆ L) (hnodup : M.Nodup) :
    F.Merges f M (F.run (start f) M).values ∧ (F.run (start f) M).accepted = M.toFinset ∧
      ∀ t ∈ L, t ∉ M → (F.run (start f) M).announced = [] := by
  induction M using List.reverseRecOn with
  | nil => exact ⟨fun i v => by simp [Merged, start], rfl, fun _ _ _ => rfl⟩
  | append_singleton A s ih =>
    have hA : A ⊆ L := List.Subset.trans (subset_append_left A [s]) hM
    have hs : s ∈ L := hM (by simp)
    have hsA : s ∉ A := by
      intro hmem
      exact (nodup_append.mp hnodup).2.2 s hmem s (by simp) rfl
    obtain ⟨hmerges, haccepted, hannounced⟩ := ih hA (nodup_append.mp hnodup).1
    obtain ⟨g, hg, hstored⟩ := h.fill hf hA hs hsA hmerges
    rw [run_concat]
    rcases submit_cases F (F.run (start f) A) s with ⟨hnone, -⟩ | ⟨g', hg', hvalues, hacc, hann⟩
    · rw [hg] at hnone
      cases hnone
    · rw [hg] at hg'
      cases hg'
      refine ⟨by rwa [hvalues], ?_, ?_⟩
      · rw [hacc, haccepted, insert_toFinset]
      · intro t ht htM
        have htA : t ∉ A := fun hmem => htM (by simp [hmem])
        have hst : s ≠ t := by
          rintro rfl
          simp at htM
        obtain ⟨j, hj, hempty, hnone, hfree⟩ := h.waits s hs t ht hst
        have hqj : (F.run (start f) A).values j = none := by
          refine hmerges.eq_none_iff.mpr ⟨hempty, fun u hu => hnone u (hA hu) ?_⟩
          rintro rfl
          exact htA hu
        rcases hann with ⟨hfull, -⟩ | ⟨-, hsame⟩
        · exact absurd ⟨j, hj, hqj, hfree⟩ ((full_fill (F.distinct s) hg).mp hfull)
        · rw [hsame, hannounced t ht htA]

/-- The last to arrive completes the slots and is announced with all others. -/
theorem Compatible.announced_run (hM : M.Perm L) (hnodup : L.Nodup)
    (hfull : F.Full (F.run (start f) M).values) :
    (F.run (start f) M).announced = if L = [] then [] else [L.toFinset] := by
  rcases eq_nil_or_concat' M with rfl | ⟨A, s, rfl⟩
  · rw [nil_perm.mp hM, if_pos rfl]
    rfl
  · have hMnodup := hM.nodup_iff.mpr hnodup
    have hA : A ⊆ L := fun u hu => hM.subset (by simp [hu])
    have hs : s ∈ L := hM.subset (by simp)
    have hsA : s ∉ A := by
      intro hmem
      exact (nodup_append.mp hMnodup).2.2 s hmem s (by simp) rfl
    obtain ⟨-, haccepted, hannounced⟩ := h.run hf hA (nodup_append.mp hMnodup).1
    have hne : L ≠ [] := ne_nil_of_mem hs
    have hset : insert s A.toFinset = L.toFinset := by
      rw [← toFinset_eq_of_perm _ _ hM, insert_toFinset]
    rw [run_concat] at hfull ⊢
    rcases submit_cases F (F.run (start f) A) s with ⟨hnone, -⟩ | ⟨g, -, hvalues, -, hann⟩
    · obtain ⟨hmerges, -, -⟩ := h.run hf hA (nodup_append.mp hMnodup).1
      obtain ⟨g, hg, -⟩ := h.fill hf hA hs hsA hmerges
      rw [hg] at hnone
      cases hnone
    · have hgfull : F.Full g := by
        intro j hj hgj
        refine hfull j hj ?_
        rw [hvalues, stored, hgj]
        rfl
      rcases hann with ⟨-, hlast⟩ | ⟨hnot, -⟩
      · rw [hlast, hannounced s hs hsA, haccepted, hset, if_neg hne]
        rfl
      · exact absurd hgfull hnot

private theorem Compatible.orderIndependent (hnodup : L.Nodup)
    (hfull : F.Full (F.run (start f) L).values) : F.OrderIndependent f L := by
  constructor
  · intro M hM
    obtain ⟨hmerges, haccepted, -⟩ := h.run hf hM.subset (hM.nodup_iff.mpr hnodup)
    obtain ⟨hmergesL, hacceptedL, -⟩ := h.run hf (List.Subset.refl L) hnodup
    have hvalues := hmerges.unique hmergesL hM
    ext1
    · exact hvalues
    · rw [haccepted, hacceptedL, toFinset_eq_of_perm _ _ hM]
    · rw [h.announced_run hf hM hnodup (by rwa [hvalues]),
        h.announced_run hf (List.Perm.refl L) hnodup hfull]
  · intro A s B hM
    have hMnodup := hM.nodup_iff.mpr hnodup
    have hAs : A ++ [s] ++ B = A ++ s :: B := by simp
    rw [← hAs] at hM hMnodup
    have hsub : A ++ [s] ⊆ L := List.Subset.trans (subset_append_left _ B) hM.subset
    have hnodupAs := (nodup_append.mp hMnodup).1
    obtain ⟨hmerges, -, -⟩ := h.run hf (List.Subset.trans (subset_append_left A [s]) hsub)
      (nodup_append.mp hnodupAs).1
    obtain ⟨hmerges', -, -⟩ := h.run hf hsub hnodupAs
    exact hmerges.keeps hmerges' (subset_append_left A [s])

end Sufficient

section Necessary

variable [DecidableEq ι] [DecidableEq S] {F : Form ι V S} {f : ι → Option V} {s t : S}
  {A B L : List S} {i : ι} {v w : V}

/-- Values stay over any part of a run. -/
theorem OrderIndependent.keeps_run (h : F.OrderIndependent f L) {C : List S}
    (hM : (A ++ B ++ C).Perm L) :
    Keeps (F.run (start f) A).values (F.run (start f) (A ++ B)).values := by
  induction B using List.reverseRecOn generalizing C with
  | nil =>
    rw [append_nil]
    exact fun _ _ hv => hv
  | append_singleton B s ih =>
    rw [← append_assoc] at hM ⊢
    rw [append_assoc _ [s] C] at hM
    exact (ih hM).trans (h.keeps (A ++ B) s C hM)

private theorem OrderIndependent.full (h : F.OrderIndependent f L)
    (hfull : F.Full (F.run (start f) L).values) (hM : M.Perm L) :
    F.Full (F.run (start f) M).values := by
  rwa [h.same M hM]

private theorem not_mem_accepted (hM : (A ++ s :: B).Perm L) (hnodup : L.Nodup) :
    s ∉ (F.run (start f) (A ++ B)).accepted := by
  intro hmem
  rcases mem_accepted_run hmem with hs | hs
  · have hcons := (perm_middle.symm.trans hM).nodup_iff.mpr hnodup
    exact (nodup_cons.mp hcons).1 hs
  · simp [start] at hs

private theorem exists_perm_append (hnodup : L.Nodup) (hA : A.Nodup) (hAL : A ⊆ L) :
    ∃ B, (A ++ B).Perm L := by
  refine ⟨L.diff A, subperm_append_diff_self_of_count_le fun u hu => ?_⟩
  rw [count_eq_one_of_mem hA hu, count_eq_one_of_mem hnodup (hAL hu)]

private theorem Reached.takes (h : F.Reached f A s e) :
    F.Takes (F.run (start f) A).values (F.entries s) e := by
  obtain ⟨pre, post, hes, j, hj, hempty, hnone, hfree⟩ := h
  exact ⟨pre, post, hes, j, hj, values_run_eq_none hempty hnone, hfree⟩

variable (h : F.OrderIndependent f L) (hnodup : L.Nodup)
  (hfull : F.Full (F.run (start f) L).values)

include h hnodup hfull

/-- Everyone is accepted, since whoever was rejected would be accepted at the end. -/
theorem OrderIndependent.exists_fill (hM : (A ++ s :: B).Perm L) :
    ∃ g, F.fill (F.run (start f) A).values (F.entries s) = some g ∧
      (F.run (start f) (A ++ [s])).values = F.stored g := by
  rw [run_concat]
  rcases submit_cases F (F.run (start f) A) s with ⟨-, hreject⟩ | ⟨g, hg, hvalues, -⟩
  · have hskip : F.run (start f) (A ++ s :: B) = F.run (start f) (A ++ B) := by
      rw [run_append, run_cons, hreject, run_append]
    have hlast : (A ++ B ++ [s]).Perm L := (perm_append_singleton s (A ++ B)).trans
      (perm_middle.symm.trans hM)
    have hsame : F.submit (F.run (start f) (A ++ B)) s = F.run (start f) (A ++ B) := by
      rw [← run_concat, h.same _ hlast, ← h.same _ hM, hskip]
    have hfullAB : F.Full (F.run (start f) (A ++ B)).values := by
      rw [← hskip]
      exact h.full hfull hM
    have haccepted := mem_accepted_of_full (s := s) hfullAB
    rw [hsame] at haccepted
    exact absurd haccepted (not_mem_accepted hM hnodup)
  · exact ⟨g, hg, hvalues⟩

/-- Nothing is announced before the last has arrived: arriving first, the last would be named in
every announcement. -/
theorem OrderIndependent.announced_eq_nil (hM : (A ++ t :: B).Perm L) :
    (F.run (start f) A).announced = [] := by
  have hfirst : (t :: (A ++ B)).Perm L := perm_middle.symm.trans hM
  have hlast : (A ++ B ++ [t]).Perm L := (perm_append_singleton t (A ++ B)).trans hfirst
  suffices hAB : (F.run (start f) (A ++ B)).announced = [] by
    have hprefix := announced_run_prefix (F := F) (p := F.run (start f) A) (L := B)
    rw [← run_append, hAB] at hprefix
    exact prefix_nil.mp hprefix
  rw [eq_nil_iff_forall_not_mem]
  intro X hX
  have htX : t ∉ X := by
    intro ht
    rcases announced_run hX with hX | ⟨-, hsup⟩
    · simp [start] at hX
    · rcases hsup t ht with hmem | hmem
      · exact (nodup_cons.mp (hfirst.nodup_iff.mpr hnodup)).1 hmem
      · simp [start] at hmem
  have hXfirst : X ∈ (F.run (F.submit (start f) t) (A ++ B)).announced := by
    rw [← run_cons, h.same _ hfirst, ← h.same _ hlast, run_concat]
    exact announced_submit_prefix.subset hX
  obtain ⟨g, hg, -⟩ := h.exists_fill hnodup hfull (A := []) hfirst
  have haccepted : t ∈ (F.submit (start f) t).accepted := by
    rcases submit_cases F (start f) t with ⟨hnone, -⟩ | ⟨_, -, -, hacc, -⟩
    · have hsome : F.fill (start f : Progress ι V S).values (F.entries t) = some g := hg
      rw [hsome] at hnone
      cases hnone
    · rw [hacc]
      exact Finset.mem_insert_self t _
  rcases announced_run hXfirst with hX | ⟨hsub, -⟩
  · rcases announced_submit hX with hX | rfl
    · simp [start] at hX
    · exact htX (Finset.mem_insert_self t _)
  · exact htX (hsub haccepted)

/-- Whoever is not the last leaves a slot empty. -/
theorem OrderIndependent.open_of_not_last (hM : (A ++ s :: t :: B).Perm L) :
    F.Open (F.run (start f) A).values (F.entries s) := by
  have hnext : (A ++ [s] ++ t :: B).Perm L := by simpa using hM
  have hnone := h.announced_eq_nil hnodup hfull hnext
  rw [run_concat] at hnone
  obtain ⟨g, hg, -⟩ := h.exists_fill hnodup hfull hM
  rcases submit_cases F (F.run (start f) A) s with ⟨hreject, -⟩ | ⟨g', hg', -, -, hann⟩
  · rw [hg] at hreject
    cases hreject
  · rcases hann with ⟨-, hann⟩ | ⟨hnot, -⟩
    · simp [hann] at hnone
    · by_contra hopen
      exact hnot ((full_fill (F.distinct s) hg').mpr hopen)

/-- Whoever is not the last has its values stored. -/
theorem OrderIndependent.values_of_supplies (hM : (A ++ s :: t :: B).Perm L)
    (hv : F.Supplies s i v) : (F.run (start f) (A ++ [s])).values i = some v := by
  obtain ⟨g, hg, hvalues⟩ := h.exists_fill hnodup hfull hM
  have htakes := (h.open_of_not_last hnodup hfull hM).takes hv.1
  rw [hvalues, stored_eq_some]
  exact ⟨fill_of_takes (F.distinct s) hg htakes, hv.2⟩

/-- An entry that is reached repeats the value that its slot has. -/
theorem OrderIndependent.eq_of_reached (hM : (A ++ s :: B).Perm L)
    (hreached : F.Reached f A s (some i, v)) (hw : (F.run (start f) A).values i = some w) :
    v = w := by
  obtain ⟨g, hg, hvalues⟩ := h.exists_fill hnodup hfull hM
  have hkept := h.keeps A s B hM i w hw
  rw [hvalues, stored_eq_some, fill_of_takes (F.distinct s) hg hreached.takes] at hkept
  exact Option.some.inj hkept.1

private theorem OrderIndependent.values_eq (hs : s ∈ L) (ht : t ∈ L) (hst : s ≠ t)
    (hv : F.Supplies s i v) : (F.run (start f) L).values i = some v := by
  obtain ⟨B, hB⟩ := exists_perm_append (A := [s, t]) hnodup (by simp [hst]) (by simp [hs, ht])
  have hfirst := h.values_of_supplies hnodup hfull (A := []) hB hv
  have hkept := h.keeps_run (A := [s]) (B := t :: B) (C := []) (by simpa using hB)
  rw [← h.same _ hB]
  exact hkept i v hfirst

private theorem OrderIndependent.waits (hs : s ∈ L) (ht : t ∈ L) (hst : s ≠ t) :
    ∃ j ∈ F.slots, f j = none ∧ (∀ u ∈ L, u ≠ t → ∀ v, ¬ F.Supplies u j v) ∧
      ¬ Mentions (F.entries s) j := by
  obtain ⟨A, hA⟩ := exists_perm_append (A := [s, t]) hnodup (by simp [hst]) (by simp [hs, ht])
  have hM : (A ++ [s, t]).Perm L := perm_append_comm.trans hA
  obtain ⟨j, hj, hempty, hfree⟩ := h.open_of_not_last hnodup hfull (B := []) hM
  refine ⟨j, hj, ?_, fun u hu hut v hv => ?_, hfree⟩
  · rw [Option.eq_none_iff_forall_ne_some]
    intro v hv
    have hkept := h.keeps_run (A := []) (B := A) (C := [s, t]) hM j v hv
    rw [nil_append, hempty] at hkept
    cases hkept
  · have huM := hM.symm.subset hu
    rcases mem_append.mp huM with huA | hmem
    · obtain ⟨A₁, A₂, rfl⟩ := append_of_mem huA
      -- `u` is followed by somebody, so its value was stored, and it stayed
      obtain ⟨x, C, hC⟩ : ∃ x C, A₂ ++ [s, t] = x :: C := exists_cons_of_ne_nil (by simp)
      have huC : (A₁ ++ u :: x :: C).Perm L := by
        rw [← hC]
        simpa using hM
      have hstored := h.values_of_supplies hnodup hfull huC hv
      have hkept := h.keeps_run (A := A₁ ++ [u]) (B := A₂) (C := [s, t]) (by simpa using hM)
      have hsome := hkept j v hstored
      rw [append_assoc, singleton_append, hempty] at hsome
      cases hsome
    · rcases mem_pair.mp hmem with rfl | rfl
      · exact hfree ⟨v, hv.1⟩
      · exact hut rfl

private theorem OrderIndependent.compatible : F.Compatible f L where
  known s hs v hreached := by
    obtain ⟨B, hB⟩ := exists_perm_append (A := [s]) hnodup (by simp) (by simp [hs])
    obtain ⟨g, hg, -⟩ := h.exists_fill hnodup hfull (A := []) hB
    exact not_takes_none hg hreached.takes
  repeats s hs i v w hreached hw := by
    obtain ⟨B, hB⟩ := exists_perm_append (A := [s]) hnodup (by simp) (by simp [hs])
    exact h.eq_of_reached hnodup hfull (A := []) hB hreached hw
  spares s hs t ht hst i v w hreached hw := by
    obtain ⟨B, hB⟩ := exists_perm_append (A := [t, s]) hnodup (by simp [hst.symm])
      (by simp [hs, ht])
    have hvalue := h.values_of_supplies hnodup hfull (A := []) hB hw
    rw [h.eq_of_reached hnodup hfull (A := [t]) hB hreached hvalue]
    exact hw.2
  agree s hs t ht i v w hv hw := by
    by_cases hst : s = t
    · subst hst
      exact eq_of_distinct (F.distinct s) hv.1 hw.1
    · have hs' := h.values_eq hnodup hfull hs ht hst hv
      rw [h.values_eq hnodup hfull ht hs (Ne.symm hst) hw] at hs'
      exact (Option.some.inj hs').symm
  waits s hs t ht hst := h.waits hnodup hfull hs ht hst

omit h hnodup hfull in
/-- Submissions that complete the slots do so in every order alike if they are compatible, and only
then. -/
theorem orderIndependent_iff (hf : ∀ i v, f i = some v → ¬ F.null v) (hnodup : L.Nodup)
    (hfull : F.Full (F.run (start f) L).values) : F.OrderIndependent f L ↔ F.Compatible f L :=
  ⟨fun h => h.compatible hnodup hfull, fun h => h.orderIndependent hf hnodup hfull⟩

end Necessary

end Form

end CloakBridge
