import CloakBridge.Core.Bytes
import CloakBridge.Models.Ccf.Champ

/-!
# The hash trie is a finite map

Whatever is put into a `champ::Map` and removed again, and however hashes collide, a
lookup finds the value that was put last, `foreach` visits every entry once, and no access
is undefined. The invariant says of every node that its keys belong into the slot it hangs
in.
-/


namespace CloakBridge.Champ

open SubNodes List

variable {K V : Type} [DecidableEq K] (H : K → Hash)

section Bins

variable {k : K} {v : V} {bin : List (K × V)}

private theorem find?_putBin (k' : K) : ((putBin k v bin).1.find? fun e => k' = e.1) =
    if k' = k then some (k, v) else bin.find? fun e => k' = e.1 := by
  induction bin with
  | nil => by_cases hk' : k' = k <;> simp [putBin, hk']
  | cons e bin ih =>
    by_cases hk : k = e.1
    · by_cases hk' : k' = k <;> simp_all [putBin]
    · by_cases hk' : k' = e.1
      · simp_all [putBin, eq_comm]
      · simp_all [putBin]

private theorem keys_putBin : ((putBin k v bin).1.map Prod.fst) =
    if k ∈ bin.map Prod.fst then bin.map Prod.fst else bin.map Prod.fst ++ [k] := by
  induction bin with
  | nil => rfl
  | cons e bin ih =>
    by_cases hk : k = e.1
    · simp [putBin, hk]
    · simp only [putBin, hk, if_false, map_cons, ih, mem_cons, false_or]
      split <;> rfl

private theorem putBin_snd : (putBin k v bin).2 = (bin.find? fun e => k = e.1).isSome := by
  induction bin with
  | nil => rfl
  | cons e bin ih => by_cases hk : k = e.1 <;> simp_all [putBin]

private theorem putBin_of_absent (h : ∀ e ∈ bin, k ≠ e.1) :
    (putBin k v bin).1 = bin ++ [(k, v)] := by
  induction bin with
  | nil => rfl
  | cons e bin ih =>
    rw [putBin, if_neg (h e mem_cons_self)]
    exact congrArg (e :: ·) (ih fun e he => h e (mem_cons_of_mem _ he))

private theorem removeBin_sublist : (removeBin k bin).1.Sublist bin := by
  induction bin with
  | nil => exact List.Sublist.refl _
  | cons e bin ih =>
    by_cases hk : k = e.1
    · simp [removeBin, hk]
    · simpa [removeBin, hk] using ih

private theorem find?_removeBin (hnodup : (bin.map Prod.fst).Nodup) (k' : K) :
    ((removeBin k bin).1.find? fun e => k' = e.1) =
      if k' = k then none else bin.find? fun e => k' = e.1 := by
  induction bin with
  | nil => simp [removeBin]
  | cons e bin ih =>
    rw [map_cons, nodup_cons] at hnodup
    by_cases hk : k = e.1
    · by_cases hk' : k' = k
      · subst hk hk'
        have habsent : ∀ a b, (a, b) ∈ bin → ¬ e.1 = a := by
          rintro a b hmem rfl
          exact hnodup.1 (mem_map.mpr ⟨_, hmem, rfl⟩)
        simpa [removeBin] using habsent
      · have hne : k' ≠ e.1 := hk ▸ hk'
        simp [removeBin, hk, hne]
    · by_cases hk' : k' = e.1
      · simp_all [removeBin, eq_comm]
      · simp_all [removeBin]

private theorem removeBin_snd : (removeBin k bin).2 = bin.find? fun e => k = e.1 := by
  induction bin with
  | nil => rfl
  | cons e bin ih => by_cases hk : k = e.1 <;> simp_all [removeBin]

end Bins

/-- What a slot has belongs into it, if `child` says so of the nodes below. -/
def Slot.WF (child : (K → Prop) → Node K V → Prop) (depth : Nat) (P : K → Prop) (idx : Nat) :
    Slot K V → Prop
  | .empty => True
  | .entry k _ => P k ∧ mask (H k) depth = idx
  | .child n => child (fun k => P k ∧ mask (H k) depth = idx) n

/-- A node is well formed if all its keys have the property that the slots above it ask for and
stand in the slots and bins of their hashes. -/
def WF : (levels : Nat) → (K → Prop) → Node K V → Prop
  | 0, P, node => ∃ bins : Collisions K V, node = .collisions bins ∧
      ∀ b, ((bins b).map Prod.fst).Nodup ∧ ∀ e ∈ bins b, P e.1 ∧ Collisions.bin (H e.1) = b
  | levels + 1, P, node => ∃ s : SubNodes K V, node = s.toNode ∧ s.Packed ∧ ∀ idx < 32,
      ∃ slot, s.At idx slot ∧ slot.WF H (WF levels) (collisionDepth - (levels + 1)) P idx

/-- What the slots of a node have belongs into them. -/
def SubNodes.Sorted (levels : Nat) (P : K → Prop) (s : SubNodes K V) : Prop :=
  ∀ i < 32, ∃ slot, s.At i slot ∧
    slot.WF H (WF H levels) (collisionDepth - (levels + 1)) P i

/-- A lookup in a slot. -/
def Slot.getp (hash : Hash) (k : K) (levels : Nat) : Slot K V → Option (Option V)
  | .empty => some none
  | .entry k' v => some (if k = k' then some v else none)
  | .child n => Champ.getp hash k levels n

variable {H} {s s' : SubNodes K V} {hash : Hash} {k : K} {v : V} {levels idx : Nat} {P : K → Prop}
  {slot : Slot K V} {c : Collisions K V} {bin : List (K × V)} {x : Option V} {r : Nat}
  {n n' : Node K V}

private theorem getp_of_at (h : s.At (mask hash (collisionDepth - (levels + 1))) slot) :
    getp hash k (levels + 1) s.toNode = slot.getp hash k levels := by
  have hidx := mask_lt hash (collisionDepth - (levels + 1))
  simp only [getp, toNode, Node.asSubNodes, Option.bind_eq_bind, Option.bind_some]
  cases slot with
  | empty =>
    rw [compressedIdx_of_empty hidx h]
    rfl
  | entry k' v =>
    simp only [compressedIdx_of_data hidx h.1, getElem?_of_entry hidx h,
      Option.bind_some, Bitmap.check_eq hidx, h.1, if_true]
    rfl
  | child n =>
    simp only [compressedIdx_of_node hidx h.1 h.2.1, getElem?_of_child h,
      Option.bind_some, Bitmap.check_eq hidx, h.1, Bool.false_eq_true, if_false]
    rfl

omit [DecidableEq K] in
/-- Replacing the content of a slot by one that belongs there keeps the node well formed. -/
theorem WF.of_replaces (hwf : s.Sorted H levels P) (hrep : s.Replaces idx slot s')
    (hslot : slot.WF H (WF H levels) (collisionDepth - (levels + 1)) P idx) :
    WF H (levels + 1) P s'.toNode := by
  refine ⟨s', rfl, hrep.packed, fun j hj => ?_⟩
  by_cases hne : j = idx
  · subst hne
    exact ⟨slot, hrep.new, hslot⟩
  · obtain ⟨t, ht, htwf⟩ := hwf j hj
    exact ⟨t, hrep.old j hj hne t ht, htwf⟩

private theorem getp_of_replaces (hwf : s.Sorted H levels P) (hrep : s.Replaces idx slot s')
    (k' : K) :
    getp (H k') k' (levels + 1) s'.toNode =
      if mask (H k') (collisionDepth - (levels + 1)) = idx then slot.getp (H k') k' levels
      else getp (H k') k' (levels + 1) s.toNode := by
  have hlt := mask_lt (H k') (collisionDepth - (levels + 1))
  split
  · next hmask =>
    exact getp_of_at (hmask ▸ hrep.new)
  · next hmask =>
    obtain ⟨t, ht, -⟩ := hwf _ hlt
    rw [getp_of_at (hrep.old _ hlt hmask t ht), getp_of_at ht]

private theorem getp_update (k' : K) :
    Collisions.getp (H k') k' (Function.update c (Collisions.bin (H k)) bin) =
      if Collisions.bin (H k') = Collisions.bin (H k) then
        (bin.find? fun e => k' = e.1).map Prod.snd else c.getp (H k') k' := by
  unfold Collisions.getp
  split
  · next h => rw [h, Function.update_self]
  · next h => rw [Function.update_of_ne h]

section

omit [DecidableEq K]

/-- Replacing one bin by entries that belong there keeps bins well formed. -/
theorem WF.update_bin {b : Fin collisionBins}
    (h : ∀ b, ((c b).map Prod.fst).Nodup ∧ ∀ e ∈ c b, P e.1 ∧ Collisions.bin (H e.1) = b)
    (hnodup : (bin.map Prod.fst).Nodup) (hbin : ∀ e ∈ bin, P e.1 ∧ Collisions.bin (H e.1) = b) :
    WF H 0 P (.collisions (Function.update c b bin)) := by
  refine ⟨_, rfl, fun b' => ?_⟩
  by_cases hb : b' = b
  · subst hb
    rw [Function.update_self]
    exact ⟨hnodup, hbin⟩
  · rw [Function.update_of_ne hb]
    exact h b'

private theorem packed_nil : (⟨[], 0, 0⟩ : SubNodes K V).Packed := by
  refine (Nat.count_iff_forall_not.mpr fun j _ => ?_).symm
  simp [SubNodes.Occupied]

private theorem at_nil (idx : Nat) : (⟨[], 0, 0⟩ : SubNodes K V).At idx .empty := by
  simp [SubNodes.At]

private theorem wf_nil : WF H (levels + 1) P (.subNodes [] 0 0 : Node K V) :=
  ⟨⟨[], 0, 0⟩, rfl, packed_nil, fun idx _ => ⟨.empty, at_nil idx, trivial⟩⟩

private theorem replaces_nil (hidx : idx < 32) :
    (⟨[], 0, 0⟩ : SubNodes K V).Replaces idx (.entry k v)
      ⟨[.entry k v], 0, Bitmap.set 0 idx⟩ := by
  obtain ⟨s', hs', hrep⟩ := exists_insertNode_entry packed_nil hidx (at_nil idx) k v
  obtain ⟨c, -, hc⟩ := Option.bind_eq_some_iff.mp hs'
  split at hc
  · next hle =>
    obtain rfl : c = 0 := Nat.le_zero.mp hle
    cases hc
    exact hrep
  · cases hc

private theorem wf_subNode (hk : P k) : WF H (levels + 1) P (subNode H (levels + 1) k v) :=
  WF.of_replaces (s := ⟨[], 0, 0⟩) (fun idx _ => ⟨.empty, at_nil idx, trivial⟩)
    (replaces_nil (mask_lt _ _)) ⟨hk, rfl⟩

end

private theorem getp_nil : getp hash k (levels + 1) (.subNodes [] 0 0 : Node K V) = some none :=
  getp_of_at (at_nil _)

private theorem getp_subNode (k' : K) : getp (H k') k' (levels + 1) (subNode H (levels + 1) k v) =
    some (if k' = k then some v else none) := by
  have hrep := replaces_nil (k := k) (v := v) (mask_lt (H k) (collisionDepth - (levels + 1)))
  refine (getp_of_replaces (H := H) (P := fun _ => True)
    (fun idx _ => ⟨.empty, at_nil idx, trivial⟩) hrep k').trans ?_
  split
  · rfl
  · next hmask =>
    rw [if_neg (by rintro rfl; exact hmask rfl)]
    exact getp_nil

/-- The node has another value for one key, or none any more, and `r` tells whether it had one. -/
structure Updates (H : K → Hash) [Sized K] (k : K) (x : Option V) (levels : Nat) (P : K → Prop)
    (n n' : Node K V) (r : Nat) : Prop where
  wf : WF H levels P n'
  getp : ∀ k', getp (H k') k' levels n' =
    if k' = k then some x else Champ.getp (H k') k' levels n
  size : 0 < getSizeWithPadding k → (r = 0 ↔ Champ.getp (H k) k levels n = some none)

variable [Sized K] [Sized V]

omit [Sized V] in
/-- An update of a node is one of the slot that the key belongs into. -/
theorem Updates.of_replaces {slot' : Slot K V} (hslots : s.Sorted H levels P)
    (hat : s.At (mask (H k) (collisionDepth - (levels + 1))) slot)
    (hrep : s.Replaces (mask (H k) (collisionDepth - (levels + 1))) slot' s')
    (hslot : slot'.WF H (WF H levels) (collisionDepth - (levels + 1)) P
      (mask (H k) (collisionDepth - (levels + 1)))) (hgetp : ∀ k', slot'.getp (H k') k' levels =
      if k' = k then some x else slot.getp (H k') k' levels)
    (hsize : 0 < getSizeWithPadding k → (r = 0 ↔ slot.getp (H k) k levels = some none)) :
    Updates H k x (levels + 1) P s.toNode s'.toNode r := by
  refine ⟨WF.of_replaces hslots hrep hslot, fun k' => ?_, ?_⟩
  · rw [getp_of_replaces hslots hrep]
    split
    · next hmask => rw [hgetp, getp_of_at (s := s) (hmask ▸ hat)]
    · next hmask => rw [if_neg (by rintro rfl; exact hmask rfl)]
  · rw [getp_of_at hat]
    exact hsize

omit [DecidableEq K] in
private theorem getSize_pos (h : 0 < getSizeWithPadding k) : 0 < getSize k := by
  rcases Nat.eq_zero_or_pos (getSize k) with hzero | hpos
  · simp [getSizeWithPadding, hzero, getPadding] at h
  · exact hpos

private theorem puts_collisions (hwf : WF H 0 P n) (hk : P k) :
    ∃ n' r, putMut H k v 0 n = some (n', r) ∧ Updates H k (some v) 0 P n n' r := by
  obtain ⟨c, rfl, hc⟩ := hwf
  refine ⟨_, _, rfl, ?_, fun k' => ?_, fun hsize => ?_⟩
  · obtain ⟨hnodup, hbin⟩ := hc (Collisions.bin (H k))
    refine WF.update_bin hc ?_ fun e he => ?_
    · rw [keys_putBin]
      split
      · exact hnodup
      · next hmem => exact nodup_append.mpr ⟨hnodup, nodup_singleton k, by
          rintro a ha b hb rfl
          exact hmem (mem_singleton.mp hb ▸ ha)⟩
    · have hkey : e.1 ∈ (putBin k v (c (Collisions.bin (H k)))).1.map Prod.fst := mem_map_of_mem he
      have hor : e.1 = k ∨ e.1 ∈ (c (Collisions.bin (H k))).map Prod.fst := by
        rw [keys_putBin] at hkey
        split at hkey
        · exact Or.inr hkey
        · rcases mem_append.mp hkey with hold | hnew
          · exact Or.inr hold
          · exact Or.inl (mem_singleton.mp hnew)
      rcases hor with heq | hold
      · rw [heq]
        exact ⟨hk, rfl⟩
      · obtain ⟨e', he', heq⟩ := mem_map.mp hold
        exact heq ▸ hbin e' he'
  · change some (Collisions.getp _ _ (Function.update _ _ _)) = _
    rw [getp_update, find?_putBin]
    by_cases hk' : k' = k
    · subst hk'
      simp
    · rw [if_neg hk', if_neg hk']
      split
      · next hb => exact congrArg some (by rw [Collisions.getp, hb])
      · rfl
  · change (if (putBin k v _).2 = true then _ else 0) = 0 ↔ some (Collisions.getp _ _ c) = _
    rw [putBin_snd, Collisions.getp]
    have hpos := getSize_pos hsize
    cases hfind : (c (Collisions.bin (H k))).find? fun e => k = e.1 with
    | none => simp
    | some e => simp; omega

/-- The node that takes the place of an entry has that entry and the new one. -/
theorem exists_split {k₀ : K} (v₀ : V) (hk₀ : P k₀) (hne : k ≠ k₀)
    (ih : ∀ {n : Node K V}, WF H levels P n →
      ∃ n' r, putMut H k v levels n = some (n', r) ∧ Updates H k (some v) levels P n n' r) :
    ∃ sub, (match levels with
        | 0 => some (.collisions (twoEntries H k₀ v₀ k v))
        | levels + 1 => do
          let r ← putMut H k v (levels + 1) (subNode H (levels + 1) k₀ v₀)
          some r.1) = some sub ∧ WF H levels P sub ∧ ∀ k', getp (H k') k' levels sub =
        some (if k' = k then some v else if k' = k₀ then some v₀ else none) := by
  cases levels with
  | zero =>
    have hwf : WF H 0 P (.collisions (Function.update (fun _ => []) (Collisions.bin (H k₀))
        [(k₀, v₀)]) : Node K V) := by
      refine WF.update_bin (fun b => ⟨nodup_nil, by simp⟩) (nodup_singleton _) ?_
      simpa using hk₀
    obtain ⟨n', r, hput, hputs⟩ := ih hwf
    have habsent : ∀ e ∈ Function.update (fun _ => ([] : List (K × V))) (Collisions.bin (H k₀))
        [(k₀, v₀)] (Collisions.bin (H k)), k ≠ e.1 := by
      intro e he
      rw [Function.update_apply] at he
      split at he
      · rwa [mem_singleton.mp he]
      · cases he
    have htwo : Node.collisions (twoEntries H k₀ v₀ k v) = n' := by
      have hfst := congrArg (Option.map Prod.fst) hput
      rw [← Option.some_inj, ← Option.map_some (f := Prod.fst) (a := (n', r)), ← hfst]
      change _ = some (Node.collisions (Function.update _ _ _))
      rw [putBin_of_absent habsent]
      rfl
    refine ⟨_, rfl, htwo ▸ hputs.wf, fun k' => ?_⟩
    rw [htwo, hputs.getp k']
    split
    · rfl
    · change some (Collisions.getp _ _ (Function.update _ _ _)) = _
      rw [getp_update]
      by_cases hk' : k' = k₀
      · subst hk'
        simp
      · split <;> simp [hk', Collisions.getp]
  | succ levels =>
    obtain ⟨n', r, hput, hputs⟩ := ih (wf_subNode (v := v₀) hk₀)
    refine ⟨n', ?_, hputs.wf, fun k' => ?_⟩
    · change (putMut H k v (levels + 1) (subNode H (levels + 1) k₀ v₀)).bind _ = _
      rw [hput]
      rfl
    · rw [hputs.getp k', getp_subNode]
      split <;> rfl

/-- `put_mut` is never undefined and puts the value. -/
theorem exists_putMut (hwf : WF H levels P n) (hk : P k) :
    ∃ n' r, putMut H k v levels n = some (n', r) ∧ Updates H k (some v) levels P n n' r := by
  induction levels generalizing P n with
  | zero => exact puts_collisions hwf hk
  | succ levels ih =>
    obtain ⟨s, rfl, hpacked, hslots⟩ := hwf
    have hidx := mask_lt (H k) (collisionDepth - (levels + 1))
    obtain ⟨slot, hat, hslot⟩ := hslots _ hidx
    rw [putMut]
    simp only [toNode, Node.asSubNodes, Option.bind_eq_bind, Option.bind_some]
    cases slot with
    | empty =>
      obtain ⟨s', hs', hrep⟩ := exists_insertNode_entry hpacked hidx hat k v
      rw [compressedIdx_of_empty hidx hat]
      simp only [hs', Option.bind_some]
      refine ⟨_, _, rfl, Updates.of_replaces hslots hat hrep ⟨hk, rfl⟩ (fun k' => ?_)
        fun _ => by simp [Slot.getp]⟩
      simp only [Slot.getp]
      split <;> rfl
    | child n =>
      obtain ⟨n', r, hput, hputs⟩ := ih hslot ⟨hk, rfl⟩
      rw [compressedIdx_of_node hidx hat.1 hat.2.1]
      simp only [getElem?_of_child hat, Bitmap.check_eq hidx, hat.2.1, if_true,
        Option.bind_some, hput]
      exact ⟨_, _, rfl, Updates.of_replaces hslots hat
        (replaces_set_child hpacked hidx hat n') hputs.wf hputs.getp hputs.size⟩
    | entry k₀ v₀ =>
      rw [compressedIdx_of_data hidx hat.1]
      simp only [getElem?_of_entry hidx hat, Bitmap.check_eq hidx, hat.2.1,
        Bool.false_eq_true, if_false, Option.bind_some, Node.asEntry]
      by_cases hkey : k = k₀
      · subst hkey
        rw [if_pos rfl]
        refine ⟨_, _, rfl, Updates.of_replaces hslots hat
          (replaces_set_entry hpacked hidx hat k v) ⟨hk, rfl⟩ (fun k' => ?_) ?_⟩
        · simp only [Slot.getp]
          split <;> rfl
        · intro hsize
          simp only [Slot.getp, if_true, Option.some.injEq, reduceCtorEq, iff_false]
          omega
      · obtain ⟨sub, hsub, hwfsub, hgetsub⟩ := exists_split (v := v) v₀
          (P := fun k' => P k' ∧ mask (H k') (collisionDepth - (levels + 1)) =
            mask (H k) (collisionDepth - (levels + 1))) hslot hkey (fun h => ih h ⟨hk, rfl⟩)
        obtain ⟨s', hs', hrep⟩ := exists_insertNode_child hpacked hidx hat sub
        rw [if_neg hkey]
        refine ⟨s'.toNode, 0, ?_, Updates.of_replaces hslots hat hrep hwfsub (fun k' => ?_)
          fun _ => by simp [Slot.getp, hkey]⟩
        · cases levels with
          | zero =>
            obtain rfl := Option.some.inj hsub
            exact (congrArg (Option.bind · _) hs').trans rfl
          | succ levels =>
            obtain ⟨r, hr, hsub⟩ := Option.bind_eq_some_iff.mp hsub
            obtain rfl := Option.some.inj hsub
            simp only [hr, Option.bind_some]
            exact (congrArg (Option.bind · _) hs').trans rfl
        · refine (hgetsub k').trans ?_
          simp only [Slot.getp]
          split <;> rfl

private theorem removes_collisions (hwf : WF H 0 P n) (k : K) :
    ∃ n' r, removeMut (H k) k 0 n = some (n', r) ∧ Updates H k none 0 P n n' r := by
  obtain ⟨c, rfl, hc⟩ := hwf
  obtain ⟨hnodup, hbin⟩ := hc (Collisions.bin (H k))
  refine ⟨_, _, rfl, ?_, fun k' => ?_, fun hsize => ?_⟩
  · refine WF.update_bin hc ?_ fun e he => hbin e (removeBin_sublist.subset he)
    exact hnodup.sublist (removeBin_sublist.map _)
  · change some (Collisions.getp _ _ (Function.update _ _ _)) = _
    rw [getp_update, find?_removeBin hnodup]
    by_cases hk' : k' = k
    · subst hk'
      simp
    · rw [if_neg hk', if_neg hk']
      split
      · next hb => exact congrArg some (by rw [Collisions.getp, hb])
      · rfl
  · change (Collisions.removeMut (H k) k c).2 = 0 ↔ some (Collisions.getp _ _ c) = _
    simp only [Collisions.removeMut, removeBin_snd, Collisions.getp]
    cases hfind : (c (Collisions.bin (H k))).find? fun e => k = e.1 with
    | none => simp
    | some e =>
      obtain rfl : k = e.1 := by simpa using List.find?_some hfind
      have hpos := getSize_pos hsize
      simp
      omega

/-- `remove_mut` is never undefined and removes the key. -/
theorem exists_removeMut (hwf : WF H levels P n) (k : K) :
    ∃ n' r, removeMut (H k) k levels n = some (n', r) ∧ Updates H k none levels P n n' r := by
  induction levels generalizing P n with
  | zero => exact removes_collisions hwf k
  | succ levels ih =>
    obtain ⟨s, rfl, hpacked, hslots⟩ := hwf
    have hidx := mask_lt (H k) (collisionDepth - (levels + 1))
    obtain ⟨slot, hat, hslot⟩ := hslots _ hidx
    have hself : s.Replaces (mask (H k) (collisionDepth - (levels + 1))) slot s :=
      ⟨hpacked, hat, fun _ _ _ _ h => h⟩
    rw [removeMut]
    simp only [toNode, Node.asSubNodes, Option.bind_eq_bind, Option.bind_some]
    cases slot with
    | empty =>
      rw [compressedIdx_of_empty hidx hat]
      refine ⟨_, _, rfl, Updates.of_replaces hslots hat hself trivial (fun k' => ?_)
        fun _ => by simp [Slot.getp]⟩
      simp only [Slot.getp]
      split <;> rfl
    | child n =>
      obtain ⟨n', r, hremove, hupdates⟩ := ih hslot
      rw [compressedIdx_of_node hidx hat.1 hat.2.1]
      simp only [getElem?_of_child hat, Bitmap.check_eq hidx, hat.1, Bool.false_eq_true,
        if_false, Option.bind_some, hremove]
      exact ⟨_, _, rfl, Updates.of_replaces hslots hat
        (replaces_set_child hpacked hidx hat n') hupdates.wf hupdates.getp hupdates.size⟩
    | entry k₀ v₀ =>
      rw [compressedIdx_of_data hidx hat.1]
      simp only [getElem?_of_entry hidx hat, Bitmap.check_eq hidx, hat.1, if_true,
        Option.bind_some, Node.asEntry]
      by_cases hkey : k₀ = k
      · subst hkey
        rw [if_neg (not_not_intro rfl)]
        refine ⟨_, _, rfl, Updates.of_replaces hslots hat
          (replaces_erase_entry hpacked hidx hat) trivial (fun k' => ?_) ?_⟩
        · simp only [Slot.getp]
          split <;> rfl
        · intro hsize
          simp only [Slot.getp, if_true, Option.some.injEq, reduceCtorEq, iff_false]
          omega
      · rw [if_pos hkey]
        refine ⟨_, _, rfl, Updates.of_replaces hslots hat hself hslot (fun k' => ?_)
          fun _ => by simp [Slot.getp, Ne.symm hkey]⟩
        by_cases hk' : k' = k
        · subst hk'
          simp [Slot.getp, Ne.symm hkey]
        · rw [if_neg hk']

omit [DecidableEq K] [Sized K] [Sized V] in
private theorem mapM_eq_filterMap {α β : Type} {f : α → Option β} {l : List α}
    (h : ∀ a ∈ l, ∃ b, f a = some b) : l.mapM f = some (l.filterMap f) := by
  induction l with
  | nil => rfl
  | cons a l ih =>
    obtain ⟨b, hb⟩ := h a mem_cons_self
    simp [hb, ih fun a ha => h a (mem_cons_of_mem _ ha)]

/-- What `foreach` visits below a node. -/
structure Visits (H : K → Hash) (levels : Nat) (P : K → Prop) (n : Node K V)
    (es : List (K × V)) : Prop where
  entries : entries levels n = some es
  nodup : (es.map Prod.fst).Nodup
  keys : ∀ e ∈ es, P e.1
  mem : ∀ k v, (k, v) ∈ es ↔ getp (H k) k levels n = some (some v)

omit [Sized K] [Sized V] in
private theorem visits_collisions (hwf : WF H 0 P n) : ∃ es, Visits H 0 P n es := by
  obtain ⟨c, rfl, hc⟩ := hwf
  refine ⟨_, rfl, ?_, fun e he => ?_, fun k v => ?_⟩
  · rw [map_flatMap, nodup_flatMap]
    refine ⟨fun b _ => (hc b).1, (nodup_finRange _).imp fun {b b'} hne => ?_⟩
    intro k hk hk'
    obtain ⟨e, he, rfl⟩ := mem_map.mp hk
    obtain ⟨e', he', heq⟩ := mem_map.mp hk'
    exact hne (((hc b).2 e he).2.symm.trans (heq ▸ ((hc b').2 e' he').2))
  · obtain ⟨b, -, hb⟩ := mem_flatMap.mp he
    exact ((hc b).2 e hb).1
  · rw [mem_flatMap]
    change _ ↔ some (Collisions.getp _ _ c) = _
    rw [Collisions.getp, Option.some_inj, Option.map_eq_some_iff]
    constructor
    · rintro ⟨b, -, hb⟩
      obtain rfl := ((hc b).2 _ hb).2
      refine ⟨(k, v), ?_, rfl⟩
      cases hfind : (c (Collisions.bin (H k))).find? fun e => k = e.1 with
      | none => simpa using List.find?_eq_none.mp hfind _ hb
      | some e =>
        have hkey : k = e.1 := by simpa using List.find?_some hfind
        rw [inj_on_of_nodup_map (hc _).1 (mem_of_find?_eq_some hfind) hb hkey.symm]
    · rintro ⟨e, hfind, rfl⟩
      obtain rfl : k = e.1 := by simpa using List.find?_some hfind
      exact ⟨_, mem_finRange _, mem_of_find?_eq_some hfind⟩

/-- The entries of a node by their slots. -/
def SubNodes.data (s : SubNodes K V) (i : Nat) : Option (K × V) := (s.cells i).bind Node.asEntry

/-- The entries below a node by their slots. -/
def SubNodes.below (levels : Nat) (s : SubNodes K V) (i : Nat) : Option (List (K × V)) :=
  (s.cells (32 + i)).bind (entries levels)

section

omit [DecidableEq K] [Sized K] [Sized V]

variable {depth : Nat}

/-- The loops of `foreach` visit the slots in order. -/
theorem entries_succ (hpacked : s.Packed)
    (hdata : ∀ i < 32, ∀ x, s.cells i = some x → ∃ e, x.asEntry = some e)
    (hbelow : ∀ i < 32, ∀ x, s.cells (32 + i) = some x → ∃ es, entries levels x = some es) :
    entries (levels + 1) s.toNode = some ((List.range 32).filterMap s.data ++
      ((List.range 32).filterMap (s.below levels)).flatten) := by
  have hle : s.dataMap.pop ≤ s.nodes.length := by
    rw [hpacked, pop_dataMap]
    exact Nat.count_monotone _ (by omega)
  rw [entries]
  simp only [toNode, Node.asSubNodes, Option.bind_eq_bind, Option.bind_some, guard,
    if_pos hle, Option.pure_def]
  rw [take_nodes, drop_nodes hpacked, mapM_eq_filterMap, mapM_eq_filterMap,
    filterMap_filterMap, filterMap_filterMap]
  · rfl
  · intro x hx
    obtain ⟨i, hi, hcell⟩ := mem_filterMap.mp hx
    exact hbelow i (mem_range.mp hi) x hcell
  · intro x hx
    obtain ⟨i, hi, hcell⟩ := mem_filterMap.mp hx
    exact hdata i (mem_range.mp hi) x hcell

/-- If all entries stand in the slots of their hashes, no key is visited twice. -/
theorem nodup_slots {data : Nat → Option (K × V)} {below : Nat → Option (List (K × V))}
    (hdata : ∀ i < 32, ∀ e, data i = some e → mask (H e.1) depth = i ∧ below i = none)
    (hbelow : ∀ i < 32, ∀ es, below i = some es →
      (es.map Prod.fst).Nodup ∧ ∀ e ∈ es, mask (H e.1) depth = i) :
    (((List.range 32).filterMap data ++ ((List.range 32).filterMap below).flatten).map
      Prod.fst).Nodup := by
  have hpairs : (List.range 32).Pairwise fun i j => i < 32 ∧ j < 32 ∧ i ≠ j :=
    List.Pairwise.imp_of_mem (fun hi hj hne => ⟨mem_range.mp hi, mem_range.mp hj, hne⟩) nodup_range
  rw [map_append, nodup_append, map_flatten, nodup_flatten]
  refine ⟨?_, ⟨fun ks hks => ?_, ?_⟩, ?_⟩
  · rw [List.Nodup, pairwise_map, pairwise_filterMap]
    refine hpairs.imp fun {i j} hij e he e' he' heq => hij.2.2 ?_
    rw [← (hdata i hij.1 e he).1, ← (hdata j hij.2.1 e' he').1, heq]
  · obtain ⟨es, hes, rfl⟩ := mem_map.mp hks
    obtain ⟨i, hi, hsome⟩ := mem_filterMap.mp hes
    exact (hbelow i (mem_range.mp hi) es hsome).1
  · rw [pairwise_map, pairwise_filterMap]
    refine hpairs.imp fun {i j} hij es hes es' hes' k hk hk' => hij.2.2 ?_
    obtain ⟨e, he, rfl⟩ := mem_map.mp hk
    obtain ⟨e', he', heq⟩ := mem_map.mp hk'
    rw [← (hbelow i hij.1 es hes).2 e he, ← (hbelow j hij.2.1 es' hes').2 e' he', heq]
  · rintro k hk k' hk' rfl
    obtain ⟨e, he, rfl⟩ := mem_map.mp hk
    obtain ⟨i, hi, hsome⟩ := mem_filterMap.mp he
    rw [← map_flatten] at hk'
    obtain ⟨e', he', heq⟩ := mem_map.mp hk'
    obtain ⟨es, hes, hmem⟩ := mem_flatten.mp he'
    obtain ⟨j, hj, hsome'⟩ := mem_filterMap.mp hes
    obtain ⟨hmask, hnone⟩ := hdata i (mem_range.mp hi) e hsome
    rw [← hmask, ← heq, (hbelow j (mem_range.mp hj) es hsome').2 e' hmem, hsome'] at hnone
    cases hnone

/-- If all entries stand in the slots of their hashes, an entry is visited if its slot has it. -/
theorem mem_slots {data : Nat → Option (K × V)} {below : Nat → Option (List (K × V))}
    (hdata : ∀ i < 32, ∀ e, data i = some e → mask (H e.1) depth = i)
    (hbelow : ∀ i < 32, ∀ es, below i = some es → ∀ e ∈ es, mask (H e.1) depth = i) :
    (k, v) ∈ (List.range 32).filterMap data ++ ((List.range 32).filterMap below).flatten ↔
      data (mask (H k) depth) = some (k, v) ∨
        ∃ es, below (mask (H k) depth) = some es ∧ (k, v) ∈ es := by
  have hlt := mem_range.mpr (mask_lt (H k) depth)
  rw [mem_append, mem_filterMap, mem_flatten]
  refine or_congr ⟨?_, fun he => ⟨_, hlt, he⟩⟩ ⟨?_, ?_⟩
  · rintro ⟨i, hi, he⟩
    rwa [hdata i (mem_range.mp hi) _ he]
  · rintro ⟨es, hes, he⟩
    obtain ⟨i, hi, hsome⟩ := mem_filterMap.mp hes
    exact ⟨es, by rwa [hbelow i (mem_range.mp hi) es hsome _ he], he⟩
  · rintro ⟨es, hsome, he⟩
    exact ⟨es, mem_filterMap.mpr ⟨_, hlt, hsome⟩, he⟩

end

omit [Sized K] [Sized V] in
/-- `foreach` is never undefined and visits every entry once. -/
theorem exists_visits (hwf : WF H levels P n) : ∃ es, Visits H levels P n es := by
  induction levels generalizing P n with
  | zero => exact visits_collisions hwf
  | succ levels ih =>
    obtain ⟨s, rfl, hpacked, hslots⟩ := hwf
    generalize hdepth : collisionDepth - (levels + 1) = depth at hslots
    have hdata : ∀ i < 32, ∀ e, s.data i = some e →
        P e.1 ∧ mask (H e.1) depth = i ∧ s.below levels i = none := by
      intro i hi e he
      obtain ⟨slot, hat, hslot⟩ := hslots i hi
      rw [data, cells_eq hi hat] at he
      rw [below, cells_add hat]
      cases slot with
      | entry k v => cases he; exact ⟨hslot.1, hslot.2, rfl⟩
      | _ => cases he
    have hbelow : ∀ i < 32, ∀ es, s.below levels i = some es →
        ∃ n, Visits H levels (fun k => P k ∧ mask (H k) depth = i) n es := by
      intro i hi es hes
      obtain ⟨slot, hat, hslot⟩ := hslots i hi
      rw [below, cells_add hat] at hes
      cases slot with
      | child n =>
        obtain ⟨es', hes'⟩ := ih hslot
        obtain rfl := Option.some.inj (hes'.entries.symm.trans hes)
        exact ⟨n, hes'⟩
      | _ => cases hes
    have hmask : ∀ i < 32, ∀ es, s.below levels i = some es → ∀ e ∈ es, mask (H e.1) depth = i := by
      intro i hi es hes e he
      obtain ⟨n, hn⟩ := hbelow i hi es hes
      exact (hn.keys e he).2
    refine ⟨_, entries_succ hpacked ?_ ?_,
      nodup_slots (fun i hi e he => (hdata i hi e he).2) ?_, fun e he => ?_, fun k v => ?_⟩
    · intro i hi x hx
      obtain ⟨slot, hat, -⟩ := hslots i hi
      rw [cells_eq hi hat] at hx
      cases slot with
      | entry k v => cases hx; exact ⟨(k, v), rfl⟩
      | _ => cases hx
    · intro i hi x hx
      obtain ⟨slot, hat, hslot⟩ := hslots i hi
      rw [cells_add hat] at hx
      cases slot with
      | child n =>
        cases hx
        obtain ⟨es, hes⟩ := ih hslot
        exact ⟨es, hes.entries⟩
      | _ => cases hx
    · intro i hi es hes
      obtain ⟨n, hn⟩ := hbelow i hi es hes
      exact ⟨hn.nodup, hmask i hi es hes⟩
    · rcases mem_append.mp he with he | he
      · obtain ⟨i, hi, hsome⟩ := mem_filterMap.mp he
        exact (hdata i (mem_range.mp hi) e hsome).1
      · obtain ⟨es, hes, he⟩ := mem_flatten.mp he
        obtain ⟨i, hi, hsome⟩ := mem_filterMap.mp hes
        obtain ⟨n, hn⟩ := hbelow i (mem_range.mp hi) es hsome
        exact (hn.keys e he).1
    · have hlt := mask_lt (H k) depth
      obtain ⟨slot, hat, hslot⟩ := hslots (mask (H k) depth) hlt
      rw [mem_slots (fun i hi e he => (hdata i hi e he).2.1) hmask, getp_of_at (hdepth.symm ▸ hat),
        data, below, cells_eq hlt hat, cells_add hat]
      cases slot with
      | empty => simp [Slot.getp]
      | entry k' v' =>
        simp only [Slot.getp, Option.bind_some, Node.asEntry, Option.bind_none, reduceCtorEq,
          false_and, exists_false, or_false, Option.some_inj, Prod.mk.injEq]
        grind
      | child n =>
        obtain ⟨es, hes⟩ := ih hslot
        simp [Slot.getp, hes.entries, ← hes.mem]

omit [Sized K] [Sized V] in
private theorem exists_getp (hwf : WF H levels P n) (k : K) :
    ∃ x, getp (H k) k levels n = some x := by
  induction levels generalizing P n with
  | zero =>
    obtain ⟨c, rfl, -⟩ := hwf
    exact ⟨_, rfl⟩
  | succ levels ih =>
    obtain ⟨s, rfl, -, hslots⟩ := hwf
    obtain ⟨slot, hat, hslot⟩ := hslots _ (mask_lt (H k) (collisionDepth - (levels + 1)))
    rw [getp_of_at hat]
    cases slot with
    | empty => exact ⟨_, rfl⟩
    | entry k' v => exact ⟨_, rfl⟩
    | child n => exact ih hslot

omit [Sized V] in
private theorem length_of_updates {es es' : List (K × V)} (hwf : WF H levels P n)
    (hes : Visits H levels P n es) (hes' : Visits H levels P n' es')
    (h : Updates H k x levels P n n' r) (hsize : 0 < getSizeWithPadding k) :
    es'.length = if r = 0 then es.length + (if x.isSome then 1 else 0)
      else es.length - (if x.isSome then 0 else 1) := by
  have hkeys {n : Node K V} {es : List (K × V)} (hes : Visits H levels P n es) (a : K) :
      a ∈ (es.map Prod.fst).toFinset ↔ ∃ v, getp (H a) a levels n = some (some v) := by
    simp [← hes.mem]
  have hcard {n : Node K V} {es : List (K × V)} (hes : Visits H levels P n es) :
      (es.map Prod.fst).toFinset.card = es.length := by
    rw [toFinset_card_of_nodup hes.nodup, length_map]
  have hmem : k ∈ (es.map Prod.fst).toFinset ↔ r ≠ 0 := by
    rw [hkeys hes, ne_eq, h.size hsize]
    obtain ⟨y, hy⟩ := exists_getp hwf k
    cases y <;> simp [hy]
  rw [← hcard hes, ← hcard hes']
  cases x with
  | none =>
    have hset : (es'.map Prod.fst).toFinset = (es.map Prod.fst).toFinset.erase k := by
      ext a
      rw [Finset.mem_erase, hkeys hes', hkeys hes, h.getp]
      by_cases ha : a = k <;> simp [ha]
    rw [hset]
    by_cases hr : r = 0
    · rw [Finset.erase_eq_of_notMem (mt hmem.mp (not_not_intro hr)), if_pos hr]
      rfl
    · rw [Finset.card_erase_of_mem (hmem.mpr hr), if_neg hr]
      rfl
  | some v =>
    have hset : (es'.map Prod.fst).toFinset = insert k (es.map Prod.fst).toFinset := by
      ext a
      rw [Finset.mem_insert, hkeys hes', hkeys hes, h.getp]
      by_cases ha : a = k <;> simp [ha]
    rw [hset]
    by_cases hr : r = 0
    · rw [Finset.card_insert_of_notMem (mt hmem.mp (not_not_intro hr)), if_pos hr]
      rfl
    · rw [Finset.insert_eq_self.mpr (hmem.mpr hr), if_neg hr]
      rfl

/-- A key or value of a table is its bytes behind their number. -/
instance : Sized ByteString := ⟨fun data => 8 + data.length⟩

/-- A change of a map. -/
inductive Change (K V : Type) where
  | put (k : K) (v : V)
  | remove (k : K)

namespace Change

/-- The key that is put or removed. -/
def key : Change K V → K
  | .put k _ => k
  | .remove k => k

/-- The change made by `Map::put` or `Map::remove`. -/
def apply (H : K → Hash) (m : Map K V) : Change K V → Option (Map K V)
  | .put k v => m.put H k v
  | .remove k => m.remove H k

/-- What the change is to a finite map. -/
def on (f : K → Option V) : Change K V → K → Option V
  | .put k v => Function.update f k (some v)
  | .remove k => Function.update f k none

end Change

namespace Map

/-- The trie has the contents of a finite map: lookups return them, `foreach` visits each entry
once, and the size is the number of entries. -/
structure Implements (H : K → Hash) (f : K → Option V) (m : Map K V) : Prop where
  get : ∀ k, m.get H k = some (f k)
  foreach : ∃ es, m.foreach = some es ∧ (es.map Prod.fst).Nodup ∧
    (∀ k v, (k, v) ∈ es ↔ f k = some v) ∧ m.size = es.length

/-- The invariant of a map with given contents. -/
structure Inv (H : K → Hash) (f : K → Option V) (m : Map K V) : Prop where
  wf : WF H collisionDepth (fun _ => True) m.root
  get : ∀ k, m.get H k = some (f k)
  size : ∀ es, Visits H collisionDepth (fun _ => True) m.root es → m.size = es.length

variable {f : K → Option V} {m : Map K V}

omit [Sized K] [Sized V] in
private theorem Inv.implements (h : m.Inv H f) : m.Implements H f := by
  obtain ⟨es, hes⟩ := exists_visits h.wf
  refine ⟨h.get, es, hes.entries, hes.nodup, fun k v => ?_, h.size es hes⟩
  rw [hes.mem, ← Option.some_inj (a := f k), ← h.get k]
  rfl

omit [Sized K] [Sized V] in
private theorem inv_empty : (empty : Map K V).Inv H fun _ => none := by
  refine ⟨wf_nil, fun k => getp_nil, fun es hes => ?_⟩
  have hnone : es = [] := eq_nil_iff_forall_not_mem.mpr fun e he => by
    have := ((hes.mem e.1 e.2).mp he).symm.trans getp_nil
    simp at this
  rw [hnone]
  rfl

omit [Sized V] in
/-- The new node of a change and its size make up the new map. -/
theorem inv_of_updates (h : m.Inv H f) {size : Nat} {serializedSize : BitVec 64}
    (hup : Updates H k x collisionDepth (fun _ => True) m.root n' r)
    (hsize : 0 < getSizeWithPadding k)
    (hlen : size = if r = 0 then m.size + (if x.isSome then 1 else 0)
      else m.size - (if x.isSome then 0 else 1)) :
    Inv H (Function.update f k x) ⟨n', size, serializedSize⟩ := by
  refine ⟨hup.wf, fun k' => ?_, fun es' hes' => ?_⟩
  · refine (hup.getp k').trans ?_
    rw [Function.update_apply]
    split
    · rfl
    · exact h.get k'
  · obtain ⟨es, hes⟩ := exists_visits h.wf
    rw [length_of_updates h.wf hes hes' hup hsize, ← h.size es hes]
    exact hlen

/-- One change keeps the invariant and is never undefined. -/
theorem inv_apply (h : m.Inv H f) (c : Change K V) (hsize : 0 < getSizeWithPadding c.key) :
    ∃ m', c.apply H m = some m' ∧ m'.Inv H (c.on f) := by
  cases c with
  | put k v =>
    obtain ⟨n', r, hput, hup⟩ := exists_putMut (v := v) h.wf (k := k) trivial
    refine ⟨_, by rw [Change.apply, put, hput]; rfl, inv_of_updates h hup hsize ?_⟩
    split <;> simp
  | remove k =>
    obtain ⟨n', r, hremove, hup⟩ := exists_removeMut h.wf k
    refine ⟨_, by rw [Change.apply, remove, hremove]; rfl, inv_of_updates h hup hsize ?_⟩
    by_cases hr : r = 0
    · simp [hr]
    · simp [hr, Nat.pos_of_ne_zero hr]

/-- Whatever is put into an empty map and removed from it, it is a finite map, for every hash
function. -/
theorem implements_of_changes (H : K → Hash) (cs : List (Change K V))
    (hsize : ∀ c ∈ cs, 0 < getSizeWithPadding c.key) :
    ∃ m, cs.foldlM (fun m c => c.apply H m) (empty : Map K V) = some m ∧
      m.Implements H (cs.foldl (fun f c => c.on f) fun _ => none) := by
  have hrun : ∀ (cs : List (Change K V)) (m : Map K V) (f : K → Option V), m.Inv H f → (∀ c ∈ cs, 0
      < getSizeWithPadding c.key) → ∃ m', cs.foldlM (fun m c => c.apply H m) m = some m' ∧ m'.Inv H
      (cs.foldl (fun f c => c.on f) f) := by
    intro cs
    induction cs with
    | nil => exact fun m f h _ => ⟨m, rfl, h⟩
    | cons c cs ih =>
      intro m f h hsize
      obtain ⟨m', hm', hinv⟩ := inv_apply h c (hsize c mem_cons_self)
      obtain ⟨m'', hm'', hinv'⟩ := ih m' _ hinv fun c hc => hsize c (mem_cons_of_mem _ hc)
      exact ⟨m'', by rw [foldlM_cons, hm']; exact hm'', hinv'⟩
  obtain ⟨m, hm, hinv⟩ := hrun cs empty _ inv_empty hsize
  exact ⟨m, hm, hinv.implements⟩

/-- Changes of three keys. -/
def threeKeys : List (Change ByteString ByteString) :=
  [.put [1] [10], .put [2] [20], .put [3] [30], .remove [1], .put [2] []]

/-- The hashes of all keys may be equal. -/
theorem implements_threeKeys :
    ∃ m, threeKeys.foldlM (fun m c => c.apply (fun _ => 0) m) empty = some m ∧
      m.Implements (fun _ => 0) (threeKeys.foldl (fun f c => c.on f) fun _ => none) ∧
      m.get (fun _ => 0) [2] = some (some []) := by
  obtain ⟨m, hm, himp⟩ := implements_of_changes (fun _ => 0) threeKeys (by decide)
  exact ⟨m, hm, himp, himp.get [2]⟩

end Map

end CloakBridge.Champ
