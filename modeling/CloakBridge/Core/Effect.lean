import Mathlib.Data.List.Forall2

/-!
# Frame rules for stateful computations that may throw

A computation keeps its state changes when it throws. A frame is a reflexive and
transitive relation between the states before and after; a computation keeps it if every
run is related that way. A frame fact about a large program is assembled from one fact per
primitive.
-/

namespace CloakBridge

open List

variable {ε σ α β : Type}

/-- The state a computation leaves, by a result or by an exception. -/
def stateAfter (x : EStateM ε σ α) (s : σ) : σ :=
  match x s with
  | .ok _ s' => s'
  | .error _ s' => s'

/-- The value a computation returns, `none` if it throws. -/
def returned (x : EStateM ε σ α) (s : σ) : Option α :=
  match x s with
  | .ok a _ => some a
  | .error _ _ => none

variable {x y : EStateM ε σ α} {s s₁ s' : σ} {handle : ε → EStateM ε σ α} {a : α} {e : ε} {p : Prop}
  {b : β} {n : Nat} {as : List α} {bs : List β}

theorem stateAfter_congr (h : x s = y s) : stateAfter x s = stateAfter y s := by
  rw [stateAfter, h, stateAfter]

/-- What was not thrown is not handled. -/
theorem tryCatch_of_ok (h : x s = .ok a s₁) : (tryCatch x handle) s = .ok a s₁ := by
  change EStateM.tryCatch x handle s = _
  delta EStateM.tryCatch
  rw [h]

/-- What was thrown is handled from the state in which it was thrown. -/
theorem tryCatch_of_error (h : x s = .error e s₁) : (tryCatch x handle) s = handle e s₁ := by
  change EStateM.tryCatch x handle s = _
  delta EStateM.tryCatch
  rw [h]
  rfl

/-- What is returned is returned in some state. -/
theorem exists_of_returned (h : returned x s = some a) : ∃ s', x s = .ok a s' := by
  unfold returned at h
  split at h
  next b s' hrun =>
    cases h
    exact ⟨s', hrun⟩
  next => cases h

/-- A relation between states that steps may be composed along. -/
structure Frame (σ : Type) where
  rel : σ → σ → Prop
  refl : ∀ s, rel s s
  trans : ∀ {a b c}, rel a b → rel b c → rel a c

namespace Frame

/-- The frame that keeps an observation of the state. -/
def observing {τ : Type} (f : σ → τ) : Frame σ where
  rel s s' := f s' = f s
  refl _ := rfl
  trans h h' := h'.trans h

/-- The frame that keeps an invariant. -/
def preserving (I : σ → Prop) : Frame σ where
  rel s s' := I s → I s'
  refl _ h := h
  trans h h' hs := h' (h hs)

variable (F : Frame σ)

/-- Every run of the computation stays in the frame. -/
def Keeps (x : EStateM ε σ α) : Prop := ∀ s, F.rel s (stateAfter x s)

variable {F}

/-- Returning a value stays in every frame. -/
theorem keeps_pure (a : α) : F.Keeps (pure a : EStateM ε σ α) := fun s => F.refl s

/-- Throwing stays in every frame. -/
theorem keeps_throw (e : ε) : F.Keeps (throw e : EStateM ε σ α) := fun s => F.refl s

/-- Reading the state stays in every frame. -/
theorem keeps_get : F.Keeps (get : EStateM ε σ σ) := fun s => F.refl s

/-- An update stays in the frame that relates its states. -/
theorem keeps_modify {f : σ → σ} (h : ∀ s, F.rel s (f s)) :
    F.Keeps (modify f : EStateM ε σ PUnit) := h

/-- A sequence stays in the frame if its first part does and its second part does from where the
first returned. -/
theorem rel_bind {f : α → EStateM ε σ β} (hx : F.rel s (stateAfter x s))
    (hf : ∀ a s₁, x s = .ok a s₁ → F.rel s₁ (stateAfter (f a) s₁)) :
    F.rel s (stateAfter (x >>= f) s) := by
  cases h : x s with
  | error e s₁ =>
    have hafter : stateAfter (x >>= f) s = stateAfter x s := by
      simp only [stateAfter, bind, EStateM.bind, h]
    rw [hafter]
    exact hx
  | ok a s₁ =>
    have hafter : stateAfter (x >>= f) s = stateAfter (f a) s₁ := by
      simp only [stateAfter, bind, EStateM.bind, h]
    have hfirst : stateAfter x s = s₁ := by simp only [stateAfter, h]
    rw [hafter]
    exact F.trans (hfirst ▸ hx) (hf a s₁ h)

/-- A sequence stays in the frame if its parts do. -/
theorem keeps_bind {f : α → EStateM ε σ β} (hx : F.Keeps x) (hf : ∀ a, F.Keeps (f a)) :
    F.Keeps (x >>= f) :=
  fun s => rel_bind (hx s) fun a s₁ _ => hf a s₁

/-- A handler goes on from the state in which its exception was thrown. -/
theorem rel_tryCatch (hx : F.rel s (stateAfter x s))
    (hh : ∀ e s₁, x s = .error e s₁ → F.rel s₁ (stateAfter (handle e) s₁)) :
    F.rel s (stateAfter (tryCatch x handle) s) := by
  cases h : x s with
  | error e s₁ =>
    have hafter : stateAfter (tryCatch x handle) s = stateAfter (handle e) s₁ := by
      rw [stateAfter, tryCatch_of_error h, stateAfter]
    have hfirst : stateAfter x s = s₁ := by simp only [stateAfter, h]
    rw [hafter]
    exact F.trans (hfirst ▸ hx) (hh e s₁ h)
  | ok a s₁ =>
    have hafter : stateAfter (tryCatch x handle) s = stateAfter x s := by
      rw [stateAfter, tryCatch_of_ok h, stateAfter, h]
    rw [hafter]
    exact hx

/-- A choice stays in the frame if its branches do. -/
theorem keeps_ite [Decidable p] (hx : p → F.Keeps x) (hy : ¬p → F.Keeps y) :
    F.Keeps (if p then x else y) := by
  by_cases h : p
  · rw [if_pos h]
    exact hx h
  · rw [if_neg h]
    exact hy h

/-- A loop stays in the frame if its body does. -/
theorem keeps_foldlM {f : α → β → EStateM ε σ α} (h : ∀ a b, F.Keeps (f a b)) (l : List β)
    (a : α) : F.Keeps (l.foldlM f a) := by
  induction l generalizing a with
  | nil => exact keeps_pure a
  | cons b l ih =>
    rw [foldlM_cons]
    exact keeps_bind (h a b) ih

/-- The state a computation returned in is related if the state it leaves is. -/
theorem rel_of_ok (h : F.rel s (stateAfter x s)) (hrun : x s = .ok a s') : F.rel s s' := by
  rwa [stateAfter, hrun] at h

/-- A computation that returned left a related state. -/
theorem Keeps.of_ok (h : F.Keeps x) (hrun : x s = .ok a s') : F.rel s s' :=
  rel_of_ok (h s) hrun

/-- A computation that threw left a related state. -/
theorem Keeps.of_error (h : F.Keeps x) (hrun : x s = .error e s') : F.rel s s' := by
  have := h s
  rwa [stateAfter, hrun] at this

end Frame

/-- What `pure` returns, and the state it leaves. -/
theorem pure_eq_ok {b : α} : (pure a : EStateM ε σ α) s = .ok b s' ↔ b = a ∧ s' = s := by
  change EStateM.Result.ok a s = .ok b s' ↔ _
  rw [EStateM.Result.ok.injEq, eq_comm, @eq_comm _ s]

/-- What `modifyGet` returns, and the state it leaves. -/
theorem modifyGet_eq_ok {f : σ → α × σ} {b : α} :
    (modifyGet f : EStateM ε σ α) s = .ok b s' ↔ b = (f s).1 ∧ s' = (f s).2 := by
  change EStateM.Result.ok (f s).1 (f s).2 = .ok b s' ↔ _
  rw [EStateM.Result.ok.injEq, eq_comm, @eq_comm _ (f s).2]

/-- A sequence continues from where its first part returned. -/
theorem bind_of_ok {f : α → EStateM ε σ β} (h : x s = .ok a s₁) : (x >>= f) s = f a s₁ := by
  simp only [bind, EStateM.bind, h]

/-- The result of a sequence is that of its second part. -/
theorem returned_bind_of_ok {f : α → EStateM ε σ β} (h : x s = .ok a s₁) :
    returned (x >>= f) s = returned (f a) s₁ := by
  rw [returned, bind_of_ok h, returned]

/-- A sequence throws what its first part throws. -/
theorem bind_of_error {f : α → EStateM ε σ β} (h : x s = .error e s₁) :
    (x >>= f) s = .error e s₁ := by
  simp only [bind, EStateM.bind, h]

/-- A sequence ends where its second part does. -/
theorem stateAfter_bind_of_ok {f : α → EStateM ε σ β} (h : x s = .ok a s₁) :
    stateAfter (x >>= f) s = stateAfter (f a) s₁ := by
  rw [stateAfter, bind_of_ok h, stateAfter]

/-- A sequence ends where its first part throws. -/
theorem stateAfter_bind_of_error {f : α → EStateM ε σ β} (h : x s = .error e s₁) :
    stateAfter (x >>= f) s = s₁ := by
  rw [stateAfter, bind_of_error h]

/-- A sequence returns exactly when both parts do, one after the other. -/
theorem bind_eq_ok {f : α → EStateM ε σ β} :
    (x >>= f) s = .ok b s' ↔ ∃ a s₁, x s = .ok a s₁ ∧ f a s₁ = .ok b s' := by
  cases h : x s with
  | error e s₁ => simp [bind_of_error h]
  | ok a s₁ =>
    rw [bind_of_ok h]
    constructor
    · exact fun hf => ⟨a, s₁, rfl, hf⟩
    · rintro ⟨a', s₂, heq, hf⟩
      cases heq
      exact hf

/-- A guarded computation returns exactly when the guard holds and the computation returns. -/
theorem ite_throw_eq_ok [Decidable p] :
    (if p then x else throw e) s = .ok a s' ↔ p ∧ x s = .ok a s' := by
  by_cases hp : p
  · rw [if_pos hp]
    exact ⟨fun h => ⟨hp, h⟩, fun h => h.2⟩
  · rw [if_neg hp]
    constructor
    · intro h
      cases h
    · intro h
      exact absurd h.1 hp

/-- A sequence throws when its first part does, or its second part from where the first returned. -/
theorem bind_eq_error {f : α → EStateM ε σ β} : (x >>= f) s = .error e s' ↔
      x s = .error e s' ∨ ∃ a s₁, x s = .ok a s₁ ∧ f a s₁ = .error e s' := by
  cases h : x s with
  | error e' s₁ => simp [bind_of_error h]
  | ok a s₁ => simp [bind_of_ok h, and_assoc]

/-- A sequence returns if both of its parts do. -/
theorem except_bind_eq_ok {x : Except ε α} {f : α → Except ε β} {b : β} :
    (x >>= f) = .ok b ↔ ∃ a, x = .ok a ∧ f a = .ok b := by
  cases x <;> simp [bind, Except.bind]

/-- A sequence throws if one of its parts does. -/
theorem except_bind_eq_error {x : Except ε α} {f : α → Except ε β} {e : ε} :
    (x >>= f) = .error e ↔ x = .error e ∨ ∃ a, x = .ok a ∧ f a = .error e := by
  cases x <;> simp [bind, Except.bind]

theorem ok_bind (a : α) (f : α → Except ε β) : ((Except.ok a : Except ε α) >>= f) = f a := rfl

/-- The computation does not throw. -/
def Returns (x : Except ε α) : Prop := ∃ a, x = .ok a

@[simp] theorem returns_ok (a : α) : Returns (.ok a : Except ε α) := ⟨a, rfl⟩

@[simp] theorem not_returns_error (e : ε) : ¬ Returns (.error e : Except ε α) := nofun

/-- A sequence returns if both of its parts do. -/
theorem returns_bind {x : Except ε α} {f : α → Except ε β} :
    Returns (x >>= f) ↔ ∃ a, x = .ok a ∧ Returns (f a) := by
  simp only [Returns, except_bind_eq_ok]
  exact ⟨fun ⟨b, a, hx, hf⟩ => ⟨a, hx, b, hf⟩, fun ⟨a, hx, b, hf⟩ => ⟨b, a, hx, hf⟩⟩

/-- A loop over the first `n` numbers returns if every round does. -/
theorem returns_mapM_range {f : Nat → Except ε α} :
    Returns ((List.range n).mapM f) ↔ ∀ i < n, Returns (f i) := by
  induction n with
  | zero => exact ⟨fun _ i hi => absurd hi (Nat.not_lt_zero i), fun _ => returns_ok []⟩
  | succ n ih =>
    rw [range_succ, mapM_append, returns_bind]
    constructor
    · rintro ⟨as, has, hlast⟩ i hi
      obtain ⟨bs, hbs, -⟩ := returns_bind.mp hlast
      rcases Nat.lt_succ_iff_lt_or_eq.mp hi with hi | rfl
      · exact ih.mp ⟨as, has⟩ i hi
      · rw [mapM_cons] at hbs
        obtain ⟨b, hb, -⟩ := except_bind_eq_ok.mp hbs
        exact ⟨b, hb⟩
    · intro h
      obtain ⟨as, has⟩ := ih.mpr fun i hi => h i (Nat.lt_succ_of_lt hi)
      obtain ⟨b, hb⟩ := h n (Nat.lt_succ_self n)
      refine ⟨as, has, ?_⟩
      rw [mapM_cons, hb]
      exact ⟨_, rfl⟩

/-- A loop throws what the first round throws that does not return. -/
theorem mapM_range_eq_error {f : Nat → Except ε α} : (List.range n).mapM f = .error e ↔
      ∃ i < n, (∀ j < i, Returns (f j)) ∧ f i = .error e := by
  induction n with
  | zero => exact ⟨nofun, fun ⟨i, hi, _⟩ => absurd hi (Nat.not_lt_zero i)⟩
  | succ n ih =>
    have hlast : (List.mapM f [n]) = .error e ↔ f n = .error e := by
      rw [mapM_cons]
      cases f n <;> simp [bind, Except.bind, pure, Except.pure]
    rw [range_succ, mapM_append, except_bind_eq_error, ih]
    constructor
    · rintro (⟨i, hi, hbefore, hthrow⟩ | ⟨as, has, hthrow⟩)
      · exact ⟨i, Nat.lt_succ_of_lt hi, hbefore, hthrow⟩
      · refine ⟨n, Nat.lt_succ_self n, returns_mapM_range.mp ⟨as, has⟩, hlast.mp ?_⟩
        rcases except_bind_eq_error.mp hthrow with hthrow | ⟨bs, -, hpure⟩
        · exact hthrow
        · cases hpure
    · rintro ⟨i, hi, hbefore, hthrow⟩
      rcases Nat.lt_succ_iff_lt_or_eq.mp hi with hi | rfl
      · exact Or.inl ⟨i, hi, hbefore, hthrow⟩
      · obtain ⟨as, has⟩ := returns_mapM_range.mpr hbefore
        exact Or.inr ⟨as, has, except_bind_eq_error.mpr (Or.inl (hlast.mpr hthrow))⟩

/-- A loop over a list returns the results of its rounds. -/
theorem mapM_eq_ok {f : α → Except ε β} :
    as.mapM f = .ok bs ↔ List.Forall₂ (fun a b => f a = .ok b) as bs := by
  induction as generalizing bs with
  | nil =>
    constructor
    · intro h
      cases h
      exact .nil
    · intro h
      cases h
      rfl
  | cons a as ih =>
    rw [mapM_cons]
    constructor
    · intro h
      obtain ⟨b, hb, h⟩ := except_bind_eq_ok.mp h
      obtain ⟨bs', hbs, h⟩ := except_bind_eq_ok.mp h
      cases h
      exact .cons hb (ih.mp hbs)
    · intro h
      cases h with
      | cons hb hbs =>
        refine except_bind_eq_ok.mpr ⟨_, hb, ?_⟩
        exact except_bind_eq_ok.mpr ⟨_, ih.mpr hbs, rfl⟩

/-- A loop over the first `n` numbers returns the results of its rounds. -/
theorem mapM_range_eq_ok {f : Nat → Except ε α} : (List.range n).mapM f = .ok as ↔
      as.length = n ∧ ∀ j a, as[j]? = some a → f j = .ok a := by
  rw [mapM_eq_ok, List.forall₂_iff_get]
  simp only [length_range, get_eq_getElem, getElem_range]
  constructor
  · rintro ⟨hn, h⟩
    refine ⟨hn.symm, ?_⟩
    intro j a ha
    obtain ⟨hj, rfl⟩ := List.getElem?_eq_some_iff.mp ha
    exact h j (hn ▸ hj) hj
  · rintro ⟨hn, h⟩
    exact ⟨hn.symm, fun j _ hj => h j _ (List.getElem?_eq_getElem hj)⟩

/-- A loop over a list returns if every round does. -/
theorem exists_mapM_of_forall {f : α → Except ε β} (h : ∀ a ∈ as, ∃ b, f a = .ok b) :
    ∃ bs, as.mapM f = .ok bs := by
  induction as with
  | nil => exact ⟨[], rfl⟩
  | cons a as ih =>
    obtain ⟨b, hb⟩ := h a mem_cons_self
    obtain ⟨bs, hbs⟩ := ih fun a ha => h a (mem_cons_of_mem _ ha)
    refine ⟨b :: bs, ?_⟩
    rw [mapM_cons, hb, hbs]
    rfl

/-- A call that is repeated returns its value as often. -/
theorem mapM_replicate_of_ok {f : α → Except ε β} (h : f a = .ok b) (n : Nat) :
    (List.replicate n a).mapM f = .ok (List.replicate n b) := by
  induction n with
  | zero => rfl
  | succ n ih =>
    rw [replicate_succ, mapM_cons, h, ih]
    rfl

/-- Every result of a loop is that of a round. -/
theorem exists_of_mem_mapM {f : α → Except ε β} (h : as.mapM f = .ok bs) (hb : b ∈ bs) :
    ∃ a ∈ as, f a = .ok b := by
  induction mapM_eq_ok.mp h with
  | nil => cases hb
  | cons hround hrounds ih =>
    rcases mem_cons.mp hb with rfl | hb
    · exact ⟨_, mem_cons_self, hround⟩
    · obtain ⟨a, ha, heq⟩ := ih (mapM_eq_ok.mpr hrounds) hb
      exact ⟨a, mem_cons_of_mem _ ha, heq⟩

/-- A loop over two lists is two loops. -/
theorem mapM_append_eq_ok {f : α → Except ε β} {as' : List α} {cs : List β} :
    (as ++ as').mapM f = .ok cs ↔
      ∃ bs bs', as.mapM f = .ok bs ∧ as'.mapM f = .ok bs' ∧ cs = bs ++ bs' := by
  rw [mapM_append, except_bind_eq_ok]
  constructor
  · rintro ⟨bs, hbs, h⟩
    obtain ⟨bs', hbs', h⟩ := except_bind_eq_ok.mp h
    exact ⟨bs, bs', hbs, hbs', (Except.ok.inj h).symm⟩
  · rintro ⟨bs, bs', hbs, hbs', rfl⟩
    exact ⟨bs, hbs, except_bind_eq_ok.mpr ⟨bs', hbs', rfl⟩⟩

/-- Elements that are each read back are read back in order. -/
theorem mapM_map_of_inverse {write : α → β} {read : β → Except ε α}
    (h : ∀ a, read (write a) = .ok a) (l : List α) : (l.map write).mapM read = .ok l := by
  induction l with
  | nil => rfl
  | cons a l ih =>
    rw [map_cons, mapM_cons, h, ih]
    rfl

/-- Mapping the results of a loop is mapping the results of its rounds. -/
theorem mapM_map {γ : Type} (f : α → Except ε β) (g : β → γ) (as : List α) :
    as.mapM (fun a => f a >>= fun b => .ok (g b)) = as.mapM f >>= fun bs => .ok (bs.map g) := by
  induction as with
  | nil => rfl
  | cons a as ih =>
    rw [mapM_cons, mapM_cons, ih]
    cases f a with
    | error e => rfl
    | ok b =>
      cases as.mapM f <;> rfl

end CloakBridge
