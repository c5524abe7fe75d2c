import Mathlib.Data.Nat.Count

/-!
# Arrays packed by rank

An array of which only some positions are occupied can be stored as the list of its cells.
The cell of an occupied position is then found at the number of occupied positions before
it, and adding, removing or replacing a cell there leaves all other positions as they are.
-/

namespace CloakBridge.Rank

open Function List

variable {α : Type} {p q : Nat → Prop} [DecidablePred p] [DecidablePred q] {i n : Nat}

/-- Positions from `i` on do not count if they are not occupied. -/
theorem count_eq_of_below (hi : i ≤ n) (hbelow : ∀ j < i, p j ↔ q j)
    (habove : ∀ j, i ≤ j → j < n → ¬ p j) : Nat.count p n = Nat.count q i := by
  obtain ⟨m, rfl⟩ := Nat.exists_eq_add_of_le hi
  have hrest : Nat.count (fun j => p (i + j)) m = 0 :=
    Nat.count_iff_forall_not.mpr fun j hj => habove _ (Nat.le_add_right i j) (by omega)
  rw [Nat.count_add, hrest, Nat.add_zero]
  exact Nat.le_antisymm (Nat.count_mono_left fun j hj => (hbelow j hj).mp)
    (Nat.count_mono_left fun j hj => (hbelow j hj).mpr)

/-- The rank counted with one more position occupied. -/
theorem count_of_occupied (hi : ¬ p i) (hq : ∀ j, q j ↔ j = i ∨ p j) (j : Nat) :
    Nat.count q j = Nat.count p j + if i < j then 1 else 0 := by
  induction j with
  | zero => simp
  | succ j ih =>
    rw [Nat.count_succ, Nat.count_succ, ih]
    by_cases hj : j = i
    · subst hj
      simp [hq, hi]
    · have hqj : q j ↔ p j := by simp [hq, hj]
      have hlt : i < j + 1 ↔ i < j := by omega
      simp only [hqj, hlt]
      omega

/-- The rank of the position itself is not changed. -/
theorem count_self_of_occupied (hi : ¬ p i) (hq : ∀ j, q j ↔ j = i ∨ p j) :
    Nat.count q i = Nat.count p i := by
  rw [count_of_occupied hi hq, if_neg (Nat.lt_irrefl i), Nat.add_zero]

/-- The array of which `xs` has the cells: what stands at a position, if it is occupied. -/
def cell (p : Nat → Prop) [DecidablePred p] (xs : List α) (i : Nat) : Option α :=
  if p i then xs[Nat.count p i]? else none

variable {xs : List α} {i : Nat}

/-- An occupied cell has the element of its rank. -/
theorem cell_of_pos (h : p i) : cell p xs i = xs[Nat.count p i]? := if_pos h

theorem cell_of_neg (h : ¬ p i) : cell p xs i = none := if_neg h

/-- The rank of an occupied position is an index of a list with as many cells as there are
occupied positions. -/
theorem count_lt_length (hlen : xs.length = Nat.count p n) (h : p i) (hi : i < n) :
    Nat.count p i < xs.length := by
  rw [hlen]
  exact Nat.count_strict_mono h hi

/-- The cells of the first positions stand at the front. -/
theorem filterMap_cell (n : Nat) :
    (List.range n).filterMap (cell p xs) = xs.take (Nat.count p n) := by
  induction n with
  | zero => simp
  | succ n ih =>
    rw [range_succ, filterMap_append, ih, Nat.count_succ]
    by_cases hp : p n
    · rw [if_pos hp, take_add_one, ← cell_of_pos hp]
      cases hcell : cell p xs n <;> simp [hcell]
    · rw [if_neg hp, Nat.add_zero, filterMap_cons_none (cell_of_neg hp), filterMap_nil, append_nil]

/-- The cells of the positions from `m` on stand behind those before. -/
theorem filterMap_cell_add {m : Nat} (hlen : xs.length = Nat.count p (m + n)) :
    (List.range n).filterMap (fun i => cell p xs (m + i)) = xs.drop (Nat.count p m) := by
  have hall : (List.range (m + n)).filterMap (cell p xs) = _ := filterMap_cell (m + n)
  rw [← hlen, take_length, range_add, filterMap_append, filterMap_cell, filterMap_map] at hall
  have hsplit := hall.trans (take_append_drop (Nat.count p m) xs).symm
  exact append_cancel_left hsplit

/-- Add a cell. -/
theorem cell_insert (hi : ¬ p i) (hq : ∀ j, q j ↔ j = i ∨ p j) (hle : Nat.count p i ≤ xs.length)
    (x : α) : cell q (xs.insertIdx (Nat.count p i) x) = update (cell p xs) i (some x) := by
  funext j
  by_cases hj : j = i
  · subst hj
    rw [update_self, cell_of_pos ((hq j).mpr (Or.inl rfl)), count_self_of_occupied hi hq,
      List.getElem?_insertIdx_self, if_pos hle]
  · rw [update_of_ne hj]
    by_cases hp : p j
    · rw [cell_of_pos hp, cell_of_pos ((hq j).mpr (Or.inr hp)), count_of_occupied hi hq]
      rcases Nat.lt_or_gt_of_ne hj with hlt | hgt
      · rw [if_neg (by omega), Nat.add_zero]
        exact List.getElem?_insertIdx_of_lt (Nat.count_strict_mono hp hlt)
      · have hcount : Nat.count p i ≤ Nat.count p j := Nat.count_monotone p hgt.le
        rw [if_pos hgt, List.getElem?_insertIdx_of_gt (by omega), Nat.add_sub_cancel]
    · have hqj : ¬ q j := by simp [hq, hj, hp]
      rw [cell_of_neg hp, cell_of_neg hqj]

/-- Remove a cell. -/
theorem cell_erase (hi : ¬ p i) (hq : ∀ j, q j ↔ j = i ∨ p j) :
    cell p (xs.eraseIdx (Nat.count q i)) = update (cell q xs) i none := by
  funext j
  by_cases hj : j = i
  · subst hj
    rw [update_self, cell_of_neg hi]
  · rw [update_of_ne hj, count_self_of_occupied hi hq]
    by_cases hp : p j
    · rw [cell_of_pos hp, cell_of_pos ((hq j).mpr (Or.inr hp)), count_of_occupied hi hq]
      rcases Nat.lt_or_gt_of_ne hj with hlt | hgt
      · rw [if_neg (by omega), Nat.add_zero]
        exact List.getElem?_eraseIdx_of_lt (Nat.count_strict_mono hp hlt)
      · rw [if_pos hgt]
        exact List.getElem?_eraseIdx_of_ge (Nat.count_monotone p hgt.le)
    · have hqj : ¬ q j := by simp [hq, hj, hp]
      rw [cell_of_neg hp, cell_of_neg hqj]

/-- Replace a cell. -/
theorem cell_set (hi : p i) (hlt : Nat.count p i < xs.length) (x : α) :
    cell p (xs.set (Nat.count p i) x) = update (cell p xs) i (some x) := by
  funext j
  by_cases hj : j = i
  · subst hj
    rw [update_self, cell_of_pos hi, List.getElem?_set_self hlt]
  · rw [update_of_ne hj]
    by_cases hp : p j
    · rw [cell_of_pos hp, cell_of_pos hp]
      exact List.getElem?_set_ne fun h => hj (Nat.count_injective hi hp h).symm
    · rw [cell_of_neg hp, cell_of_neg hp]

end CloakBridge.Rank
