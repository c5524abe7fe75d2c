import Mathlib.Data.List.Flatten
import Mathlib.Data.List.Forall2

/-!
# Concatenations of parts

A list that is put together from parts of equal length is read part by part: the element
`k` of the part `j` of length `n` stands at `n * j + k`, and the whole determines the
parts.
-/

namespace CloakBridge

open List

variable {α β : Type} {n j k : Nat}

/-- The length of parts that are equally long. -/
theorem length_flatMap_of_forall {f : α → List β} {l : List α} (h : ∀ a ∈ l, (f a).length = n) :
    (l.flatMap f).length = n * l.length := by
  rw [length_flatMap, map_congr_left h]
  simp [Nat.mul_comm]

theorem length_flatten_of_forall {parts : List (List β)} (h : ∀ part ∈ parts, part.length = n) :
    parts.flatten.length = n * parts.length := by
  rw [← flatMap_id]
  exact length_flatMap_of_forall h

private theorem drop_flatMap {f : α → List β} {l : List α} (h : ∀ a ∈ l, (f a).length = n)
    (j : Nat) :
    (l.flatMap f).drop (n * j) = (l.drop j).flatMap f := by
  induction l generalizing j with
  | nil => simp
  | cons a l ih =>
    cases j with
    | zero => simp
    | succ j =>
      have ha := h a mem_cons_self
      have hl := ih (fun a ha => h a (mem_cons_of_mem _ ha)) j
      rw [flatMap_cons, drop_succ_cons, ← hl, Nat.mul_succ, Nat.add_comm, ← ha,
        drop_length_add_append]

/-- The part with number `j` starts behind `j` parts. -/
theorem drop_flatMap_of_getElem? {f : α → List β} {l : List α} {a : α}
    (h : ∀ a ∈ l, (f a).length = n) (ha : l[j]? = some a) :
    ∃ rest, (l.flatMap f).drop (n * j) = f a ++ rest := by
  obtain ⟨hj, rfl⟩ := List.getElem?_eq_some_iff.mp ha
  rw [drop_flatMap h, drop_eq_getElem_cons hj]
  exact ⟨_, flatMap_cons⟩

/-- An element is found by the number of its part and its place there. -/
theorem getElem?_flatMap {f : α → List β} {l : List α} {a : α} (h : ∀ a ∈ l, (f a).length = n)
    (ha : l[j]? = some a) (hk : k < n) : (l.flatMap f)[n * j + k]? = (f a)[k]? := by
  obtain ⟨rest, hrest⟩ := drop_flatMap_of_getElem? h ha
  have hlength := h a (mem_of_getElem? ha)
  rw [← List.getElem?_drop, hrest, List.getElem?_append_left (by omega)]

theorem getElem?_flatten {parts : List (List β)} {part : List β}
    (h : ∀ part ∈ parts, part.length = n) (hpart : parts[j]? = some part) (hk : k < n) :
    parts.flatten[n * j + k]? = part[k]? := by
  rw [← flatMap_id]
  exact getElem?_flatMap h hpart hk

/-- Parts of equal lengths come from the same list of parts. -/
theorem flatten_eq_flatMap_iff {f : α → List β} {l : List α} {parts : List (List β)}
    (hlength : parts.length = l.length) (hparts : ∀ part ∈ parts, part.length = n)
    (hf : ∀ a ∈ l, (f a).length = n) : parts.flatten = l.flatMap f ↔
      ∀ (j : Nat) part a, parts[j]? = some part → l[j]? = some a → part = f a := by
  have hlengths : parts.map List.length = (l.map f).map List.length := by
    rw [map_congr_left hparts, map_map, map_congr_left (f := List.length ∘ f) (g := fun _ => n) hf]
    simp [hlength]
  rw [flatMap_def]
  constructor
  · intro h j part a hpart ha
    have heq := eq_iff_flatten_eq.mpr ⟨h, hlengths⟩
    rw [heq, List.getElem?_map, ha] at hpart
    exact (Option.some.inj hpart).symm
  · intro h
    apply congrArg List.flatten
    apply ext_getElem
    · rw [length_map, hlength]
    · intro j hj hj'
      rw [length_map] at hj'
      rw [getElem_map]
      exact h j _ _ (List.getElem?_eq_getElem hj) (List.getElem?_eq_getElem hj')

/-- If no part grows more than `n` times, nor does the whole. -/
theorem length_flatten_le_of_forall₂ {as bs : List (List α)}
    (h : List.Forall₂ (fun a b => a.length ≤ n * b.length) as bs) :
    as.flatten.length ≤ n * bs.flatten.length := by
  induction h with
  | nil => simp
  | cons hhead _ ih =>
    rw [flatten_cons, flatten_cons, length_append, length_append, Nat.mul_add]
    exact Nat.add_le_add hhead ih

/-- Lists are related if they are so at every place. -/
theorem forall₂_iff_getElem? {R : α → β → Prop} {as : List α} {bs : List β} :
    List.Forall₂ R as bs ↔ as.length = bs.length ∧
      ∀ (k : Nat) a b, as[k]? = some a → bs[k]? = some b → R a b := by
  rw [List.forall₂_iff_get]
  apply and_congr_right
  intro hlength
  constructor
  · intro h k a b ha hb
    obtain ⟨hk, rfl⟩ := List.getElem?_eq_some_iff.mp ha
    obtain ⟨hk', rfl⟩ := List.getElem?_eq_some_iff.mp hb
    exact h k hk hk'
  · intro h k hk hk'
    exact h k _ _ (List.getElem?_eq_getElem hk) (List.getElem?_eq_getElem hk')

end CloakBridge
