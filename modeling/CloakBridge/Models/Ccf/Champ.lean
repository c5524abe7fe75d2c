import CloakBridge.Core.Rank
import Mathlib.Data.BitVec

/-!
# The hash trie behind the tables

A table keeps its rows in a `champ::Map`. A node has up to 32 slots, chosen by five bits
of the key's hash; a slot has an entry or a node for the next five bits, and below the
sixth node the entries stand in four bins. Two bit maps say which slots are in use and
what the void pointers stored for them point to. A function that runs into an undefined
access returns `none`.
-/

namespace CloakBridge.Champ

open Function Rank BitVec

/-- `Hash` -/
abbrev Hash := BitVec 32

/-- `collision_depth` -/
def collisionDepth : Nat := 6

/-- `collision_bins` -/
def collisionBins : Nat := 4

/-- `mask` -/
def mask (hash : Hash) (depth : Nat) : Nat := ((hash >>> (depth * 5)) &&& 31).toNat

/-- `Bitmap` -/
abbrev Bitmap := BitVec 32

namespace Bitmap

/-- `Bitmap::pop` -/
def pop (b : Bitmap) : Nat := Nat.count (fun i => b.getLsbD i = true) 32

/-- `Bitmap::set` -/
def set (b : Bitmap) (idx : Nat) : Bitmap := b ||| 1#32 <<< idx

/-- `Bitmap::clear` -/
def clear (b : Bitmap) (idx : Nat) : Bitmap := b &&& ~~~(1#32 <<< idx)

/-- `Bitmap::check` -/
def check (b : Bitmap) (idx : Nat) : Bool := b &&& 1#32 <<< idx ≠ 0

end Bitmap

/-- `map::get_size`, which has an overload for each type. -/
class Sized (α : Type) where
  getSize : α → Nat

export Sized (getSize)

/-- `map::get_padding` -/
def getPadding (size : Nat) : Nat := if size % 8 = 0 then 0 else 8 - size % 8

/-- `map::get_size_with_padding`, in 32 bits -/
def getSizeWithPadding {α : Type} [Sized α] (a : α) : Nat :=
  let size := getSize a % 2 ^ 32
  (size + getPadding size) % 2 ^ 32

/-- `Collisions` -/
abbrev Collisions (K V : Type) := Fin collisionBins → List (K × V)

/-- What a pointer to a node can point to. -/
inductive Node (K V : Type) where
  | entry (key : K) (value : V)
  | collisions (bins : Collisions K V)
  | subNodes (nodes : List (Node K V)) (nodeMap dataMap : Bitmap)

/-- `SubNodes` -/
structure SubNodes (K V : Type) where
  nodes : List (Node K V)
  nodeMap : Bitmap
  dataMap : Bitmap

/-- The node a pointer to a `SubNodes` points to. -/
def SubNodes.toNode {K V : Type} (s : SubNodes K V) : Node K V :=
  .subNodes s.nodes s.nodeMap s.dataMap

namespace Node

variable {K V : Type}

/-- `node_as<Entry>` -/
def asEntry : Node K V → Option (K × V)
  | .entry key value => some (key, value)
  | _ => none

/-- `node_as<Collisions>` -/
def asCollisions : Node K V → Option (Collisions K V)
  | .collisions bins => some bins
  | _ => none

/-- `node_as<SubNodes>` -/
def asSubNodes : Node K V → Option (SubNodes K V)
  | .subNodes nodes nodeMap dataMap => some ⟨nodes, nodeMap, dataMap⟩
  | _ => none

end Node

/-- The loop of `Collisions::put_mut` over a bin, and whether it found the key. -/
def putBin {K V : Type} [DecidableEq K] (k : K) (v : V) : List (K × V) → List (K × V) × Bool
  | [] => ([(k, v)], false)
  | e :: bin =>
    if k = e.1 then ((k, v) :: bin, true)
    else
      let r := putBin k v bin
      (e :: r.1, r.2)

/-- The loop of `Collisions::remove_mut` over a bin, and the entry it erased. -/
def removeBin {K V : Type} [DecidableEq K] (k : K) : List (K × V) → List (K × V) × Option (K × V)
  | [] => ([], none)
  | e :: bin =>
    if k = e.1 then (bin, some e)
    else
      let r := removeBin k bin
      (e :: r.1, r.2)

theorem mask_lt (hash : Hash) (depth : Nat) : mask hash depth < 32 := by
  rw [mask, toNat_and]
  exact Nat.lt_of_le_of_lt Nat.and_le_right (by decide)

private theorem mask_collisionDepth_lt (hash : Hash) :
    mask hash collisionDepth < collisionBins := by
  have h := hash.isLt
  rw [mask, toNat_and, toNat_ushiftRight, Nat.shiftRight_eq_div_pow]
  exact Nat.lt_of_le_of_lt Nat.and_le_left
    (Nat.div_lt_of_lt_mul (by simp only [collisionDepth, collisionBins]; omega))

namespace Collisions

variable {K V : Type} [DecidableEq K]

/-- The bin of a hash. -/
def bin (hash : Hash) : Fin collisionBins := ⟨mask hash collisionDepth, mask_collisionDepth_lt hash⟩

/-- `Collisions::getp` -/
def getp (hash : Hash) (k : K) (c : Collisions K V) : Option V :=
  ((c (bin hash)).find? fun e => k = e.1).map Prod.snd

variable [Sized K] [Sized V]

/-- `Collisions::put_mut`. The size it returns is that of the new entry, without padding. -/
def putMut (hash : Hash) (k : K) (v : V) (c : Collisions K V) : Collisions K V × Nat :=
  let r := putBin k v (c (bin hash))
  (update c (bin hash) r.1, if r.2 then getSize k + getSize v else 0)

/-- `Collisions::remove_mut` -/
def removeMut (hash : Hash) (k : K) (c : Collisions K V) : Collisions K V × Nat :=
  let r := removeBin k (c (bin hash))
  (update c (bin hash) r.1, match r.2 with
    | some e => getSize e.1 + getSize e.2
    | none => 0)

end Collisions

namespace SubNodes

variable {K V : Type}

/-- `SubNodes::compressed_idx`, without a result for `(SmallIndex)-1` -/
def compressedIdx (s : SubNodes K V) (idx : Nat) : Option Nat :=
  if !s.nodeMap.check idx && !s.dataMap.check idx then none
  else
    let mask : Bitmap := ~~~(BitVec.allOnes 32 <<< idx)
    if s.dataMap.check idx then some (Bitmap.pop (s.dataMap &&& mask))
    else some (s.dataMap.pop + Bitmap.pop (s.nodeMap &&& mask))

/-- `nodes.insert` at the place that `compressed_idx` has for a slot. -/
def insertNode (s : SubNodes K V) (idx : Nat) (node : Node K V) : Option (SubNodes K V) := do
  let c ← s.compressedIdx idx
  if c ≤ s.nodes.length then pure { s with nodes := s.nodes.insertIdx c node } else none

end SubNodes

section Operations

variable {K V : Type} [DecidableEq K]

/-- `SubNodes::getp`, on the node that has `levels` levels below it: none for `Collisions`. -/
def getp (hash : Hash) (k : K) : (levels : Nat) → Node K V → Option (Option V)
  | 0, node => do
    let c ← node.asCollisions
    pure (c.getp hash k)
  | levels + 1, node => do
    let s ← node.asSubNodes
    let idx := mask hash (collisionDepth - (levels + 1))
    match s.compressedIdx idx with
    | none => pure none
    | some c => do
      let child ← s.nodes[c]?
      if s.dataMap.check idx then do
        let e ← child.asEntry
        pure (if k = e.1 then some e.2 else none)
      else getp hash k levels child

/-- The node that `put_mut` makes for an entry that has to give way to a node of its slot. -/
def subNode (H : K → Hash) (levels : Nat) (key : K) (value : V) : Node K V :=
  let idx := mask (H key) (collisionDepth - levels)
  .subNodes [.entry key value] 0 (Bitmap.set 0 idx)

/-- The bins that `put_mut` makes for two entries. -/
def twoEntries (H : K → Hash) (key₀ : K) (value₀ : V) (key : K) (value : V) : Collisions K V :=
  let bins := update (fun _ => []) (Collisions.bin (H key₀)) [(key₀, value₀)]
  update bins (Collisions.bin (H key)) (bins (Collisions.bin (H key)) ++ [(key, value)])

variable [Sized K] [Sized V]

/-- `SubNodes::put_mut`, with the size of the entry that was replaced. -/
def putMut (H : K → Hash) (k : K) (v : V) : (levels : Nat) → Node K V → Option (Node K V × Nat)
  | 0, node => do
    let c ← node.asCollisions
    let r := c.putMut (H k) k v
    pure (.collisions r.1, r.2)
  | levels + 1, node => do
    let s ← node.asSubNodes
    let idx := mask (H k) (collisionDepth - (levels + 1))
    match s.compressedIdx idx with
    | none => do
      let s' ← { s with dataMap := s.dataMap.set idx }.insertNode idx (.entry k v)
      pure (s'.toNode, 0)
    | some c => do
      let child ← s.nodes[c]?
      if s.nodeMap.check idx then do
        let r ← putMut H k v levels child
        pure (.subNodes (s.nodes.set c r.1) s.nodeMap s.dataMap, r.2)
      else do
        let e ← child.asEntry
        if k = e.1 then
          pure (.subNodes (s.nodes.set c (.entry k v)) s.nodeMap s.dataMap,
            getSizeWithPadding e.1 + getSizeWithPadding e.2)
        else do
          let sub ← match levels with
            | 0 => pure (.collisions (twoEntries H e.1 e.2 k v))
            | levels + 1 => do
              let r ← putMut H k v (levels + 1) (subNode H (levels + 1) e.1 e.2)
              pure r.1
          let s' ← { nodes := s.nodes.eraseIdx c, nodeMap := s.nodeMap.set idx,
                     dataMap := s.dataMap.clear idx : SubNodes K V }.insertNode idx sub
          pure (s'.toNode, 0)

/-- `SubNodes::remove_mut`, with the size of the entry that was removed. -/
def removeMut (hash : Hash) (k : K) : (levels : Nat) → Node K V → Option (Node K V × Nat)
  | 0, node => do
    let c ← node.asCollisions
    let r := c.removeMut hash k
    pure (.collisions r.1, r.2)
  | levels + 1, node => do
    let s ← node.asSubNodes
    let idx := mask hash (collisionDepth - (levels + 1))
    match s.compressedIdx idx with
    | none => pure (node, 0)
    | some c => do
      let child ← s.nodes[c]?
      if s.dataMap.check idx then do
        let e ← child.asEntry
        if e.1 ≠ k then pure (node, 0)
        else
          pure (.subNodes (s.nodes.eraseIdx c) s.nodeMap (s.dataMap.clear idx),
            getSizeWithPadding e.1 + getSizeWithPadding e.2)
      else do
        let r ← removeMut hash k levels child
        pure (.subNodes (s.nodes.set c r.1) s.nodeMap s.dataMap, r.2)

/-- The entries that `SubNodes::foreach` visits, in order. -/
def entries {K V : Type} : (levels : Nat) → Node K V → Option (List (K × V))
  | 0, node => do
    let c ← node.asCollisions
    pure ((List.finRange collisionBins).flatMap c)
  | levels + 1, node => do
    let s ← node.asSubNodes
    guard (s.dataMap.pop ≤ s.nodes.length)
    let data ← (s.nodes.take s.dataMap.pop).mapM Node.asEntry
    let children ← (s.nodes.drop s.dataMap.pop).mapM (entries levels)
    pure (data ++ children.flatten)

end Operations

/-- `Map`. The size of the serialized entries is kept in 64 bits. -/
structure Map (K V : Type) where
  root : Node K V
  size : Nat
  serializedSize : BitVec 64

namespace Map

variable {K V : Type} [DecidableEq K] (H : K → Hash)

/-- `Map()` -/
def empty : Map K V := ⟨.subNodes [] 0 0, 0, 0⟩

/-- `Map::get` -/
def get (m : Map K V) (k : K) : Option (Option V) := getp (H k) k collisionDepth m.root

/-- `Map::foreach` -/
def foreach (m : Map K V) : Option (List (K × V)) := entries collisionDepth m.root

variable [Sized K] [Sized V]

/-- `Map::put` -/
def put (m : Map K V) (k : K) (v : V) : Option (Map K V) := do
  let r ← putMut H k v collisionDepth m.root
  let sizeChange : BitVec 64 :=
    BitVec.ofNat 64 (getSizeWithPadding k + getSizeWithPadding v) - BitVec.ofNat 64 r.2
  pure ⟨r.1, if r.2 = 0 then m.size + 1 else m.size, sizeChange + m.serializedSize⟩

/-- `Map::remove` -/
def remove (m : Map K V) (k : K) : Option (Map K V) := do
  let r ← removeMut (H k) k collisionDepth m.root
  pure ⟨r.1, if r.2 > 0 then m.size - 1 else m.size, m.serializedSize - BitVec.ofNat 64 r.2⟩

end Map

namespace Bitmap

variable {b : Bitmap} {idx : Nat}

theorem check_eq (h : idx < 32) : b.check idx = b.getLsbD idx := by
  rw [check, Bool.eq_iff_iff, decide_eq_true_iff]
  constructor
  · intro hne
    by_contra hbit
    apply hne
    ext j hj
    by_cases hj' : j = idx
    · subst hj'
      simp_all
    · simp
      omega
  · intro hbit hzero
    have hfalse := congrArg (BitVec.getLsbD · idx) hzero
    rw [getLsbD_eq_getElem h] at hbit
    simp [h, hbit] at hfalse

private theorem getLsbD_set (h : idx < 32) (j : Nat) :
    (b.set idx).getLsbD j = true ↔ j = idx ∨ b.getLsbD j = true := by
  simp only [set, getLsbD_or, getLsbD_shiftLeft, getLsbD_one]
  by_cases hj : j = idx
  · subst hj
    simp [h]
  · simp [hj]
    omega

private theorem getLsbD_clear (h : idx < 32) (j : Nat) :
    (b.clear idx).getLsbD j = true ↔ j ≠ idx ∧ b.getLsbD j = true := by
  simp only [clear, getLsbD_and, getLsbD_not, getLsbD_shiftLeft, getLsbD_one]
  by_cases hj : j = idx
  · subst hj
    simp [h]
  · by_cases hbit : b.getLsbD j = true
    · have hlt : j < 32 := lt_of_getLsbD hbit
      simp [hj, hbit, hlt]
      omega
    · simp [hbit]

private theorem pop_below (h : idx ≤ 32) :
    pop (b &&& ~~~(BitVec.allOnes 32 <<< idx)) = Nat.count (fun i => b.getLsbD i = true) idx := by
  have hbit (j : Nat) : (b &&& ~~~(BitVec.allOnes 32 <<< idx)).getLsbD j = true ↔
      b.getLsbD j = true ∧ j < 32 ∧ (j < idx ∨ 32 ≤ j - idx) := by
    simp only [getLsbD_and, getLsbD_not, getLsbD_shiftLeft,
      getLsbD_allOnes, Bool.and_eq_true, Bool.not_eq_true', Bool.and_eq_false_iff,
      decide_eq_true_eq, decide_eq_false_iff_not, Bool.not_eq_false']
    grind
  refine count_eq_of_below h (fun j hj => ?_) (fun j hle hj => ?_)
  · rw [hbit]
    exact ⟨And.left, fun hb => ⟨hb, by omega, Or.inl hj⟩⟩
  · rw [hbit]
    omega

end Bitmap

/-- What a slot of a node can have. -/
inductive Slot (K V : Type) where
  | empty
  | entry (key : K) (value : V)
  | child (node : Node K V)

namespace SubNodes

variable {K V : Type} {s s' : SubNodes K V} {idx : Nat}

/-- The slots in use, with those of entries before those of nodes. -/
def Occupied (s : SubNodes K V) (j : Nat) : Prop := (s.nodeMap ++ s.dataMap).getLsbD j = true

instance (s : SubNodes K V) : DecidablePred s.Occupied :=
  fun j => inferInstanceAs (Decidable ((s.nodeMap ++ s.dataMap).getLsbD j = true))

variable {slot : Slot K V} {k : K} {v : V} {b nodeMap dataMap : Bitmap} {j i : Nat}

private theorem occupied_data (h : idx < 32) : s.Occupied idx ↔ s.dataMap.getLsbD idx = true := by
  rw [Occupied, getLsbD_append, if_pos h]

private theorem occupied_node : s.Occupied (32 + idx) ↔ s.nodeMap.getLsbD idx = true := by
  rw [Occupied, getLsbD_append, if_neg (by omega), Nat.add_sub_cancel_left]

/-- The nodes by the slots they belong to. -/
def cells (s : SubNodes K V) : Nat → Option (Node K V) := cell s.Occupied s.nodes

/-- There are as many nodes as there are slots in use. -/
def Packed (s : SubNodes K V) : Prop := s.nodes.length = Nat.count s.Occupied 64

private theorem count_data (h : idx ≤ 32) :
    Bitmap.pop (s.dataMap &&& ~~~(BitVec.allOnes 32 <<< idx)) = Nat.count s.Occupied idx := by
  rw [Bitmap.pop_below h]
  exact count_eq_of_below le_rfl (fun j hj => (occupied_data (by omega)).symm)
    fun j hle hj => absurd hj (by omega)

/-- The data map counts the entries. -/
theorem pop_dataMap : s.dataMap.pop = Nat.count s.Occupied 32 :=
  count_eq_of_below le_rfl (fun _ hj => (occupied_data hj).symm)
    fun _ hle hj => absurd hj (by omega)

private theorem count_node (h : idx ≤ 32) :
    s.dataMap.pop + Bitmap.pop (s.nodeMap &&& ~~~(BitVec.allOnes 32 <<< idx)) =
      Nat.count s.Occupied (32 + idx) := by
  rw [Nat.count_add, pop_dataMap, Bitmap.pop_below h]
  congr 1
  exact count_eq_of_below le_rfl (fun j _ => occupied_node.symm)
    fun j hle hj => absurd hj (by omega)

/-- A slot is empty, has an entry or has a node. -/
def At (s : SubNodes K V) (idx : Nat) : Slot K V → Prop
  | .empty => s.dataMap.getLsbD idx = false ∧ s.nodeMap.getLsbD idx = false
  | .entry k v => s.dataMap.getLsbD idx = true ∧ s.nodeMap.getLsbD idx = false ∧
      s.cells idx = some (.entry k v)
  | .child n => s.dataMap.getLsbD idx = false ∧ s.nodeMap.getLsbD idx = true ∧
      s.cells (32 + idx) = some n

private theorem At.congr (hdata : s'.dataMap.getLsbD idx = s.dataMap.getLsbD idx)
    (hnode : s'.nodeMap.getLsbD idx = s.nodeMap.getLsbD idx) (hcell : s'.cells idx = s.cells idx)
    (hcell' : s'.cells (32 + idx) = s.cells (32 + idx)) (h : s.At idx slot) : s'.At idx slot := by
  cases slot <;> simpa only [At, hdata, hnode, hcell, hcell'] using h

/-- The cell of an entry, if the slot has one. -/
theorem cells_eq (hidx : idx < 32) (h : s.At idx slot) : s.cells idx = match slot with
      | .entry k v => some (.entry k v) | _ => none := by
  cases slot with
  | entry k v => exact h.2.2
  | empty | child _ => exact cell_of_neg (by simp [occupied_data hidx, h.1])

/-- The cell of a node, if the slot has one. -/
theorem cells_add (h : s.At idx slot) : s.cells (32 + idx) = match slot with
      | .child n => some n | _ => none := by
  cases slot with
  | child n => exact h.2.2
  | empty => exact cell_of_neg (by simp [occupied_node, h.2])
  | entry k v => exact cell_of_neg (by simp [occupied_node, h.2.1])

/-- The nodes are those of the slots with entries and then those of the slots with nodes. -/
theorem take_nodes : s.nodes.take s.dataMap.pop = (List.range 32).filterMap s.cells := by
  rw [pop_dataMap]
  exact (filterMap_cell 32).symm

/-- The nodes stand behind the entries, in order. -/
theorem drop_nodes (hs : s.Packed) :
    s.nodes.drop s.dataMap.pop = (List.range 32).filterMap fun i => s.cells (32 + i) := by
  rw [pop_dataMap]
  exact (filterMap_cell_add (n := 32) hs).symm

/-- An empty slot has no index. -/
theorem compressedIdx_of_empty (hidx : idx < 32) (h : s.At idx .empty) :
    s.compressedIdx idx = none := by
  simp only [compressedIdx, Bitmap.check_eq hidx, h.1, h.2, Bool.not_false, Bool.and_self, if_true]

/-- The index of an entry is its rank. -/
theorem compressedIdx_of_data (hidx : idx < 32) (h : s.dataMap.getLsbD idx = true) :
    s.compressedIdx idx = some (Nat.count s.Occupied idx) := by
  simp only [compressedIdx, Bitmap.check_eq hidx, h, Bool.not_true, Bool.and_false, if_true,
    count_data hidx.le, Bool.false_eq_true, if_false]

/-- The index of a node is its rank behind the entries. -/
theorem compressedIdx_of_node (hidx : idx < 32) (hdata : s.dataMap.getLsbD idx = false)
    (hnode : s.nodeMap.getLsbD idx = true) :
    s.compressedIdx idx = some (Nat.count s.Occupied (32 + idx)) := by
  simp only [compressedIdx, Bitmap.check_eq hidx, hdata, hnode, Bool.not_true, Bool.false_and,
    Bool.false_eq_true, if_false, count_node hidx.le]

private theorem insertNode_eq {c : Nat} (h : s.compressedIdx idx = some c)
    (hle : c ≤ s.nodes.length)
    (node : Node K V) :
    s.insertNode idx node = some ⟨s.nodes.insertIdx c node, s.nodeMap, s.dataMap⟩ := by
  rw [insertNode, h]
  exact if_pos hle

/-- The entry of a slot is found at the compressed index. -/
theorem getElem?_of_entry (hidx : idx < 32) (h : s.At idx (.entry k v)) :
    s.nodes[Nat.count s.Occupied idx]? = some (.entry k v) := by
  rw [← cell_of_pos ((occupied_data hidx).mpr h.1)]
  exact h.2.2

/-- The node of a slot is found at the compressed index. -/
theorem getElem?_of_child {n : Node K V} (h : s.At idx (.child n)) :
    s.nodes[Nat.count s.Occupied (32 + idx)]? = some n := by
  rw [← cell_of_pos (occupied_node.mpr h.2.1)]
  exact h.2.2

/-- `s'` is `s` with another content of one slot. -/
structure Replaces (s : SubNodes K V) (idx : Nat) (slot : Slot K V) (s' : SubNodes K V) :
    Prop where
  packed : s'.Packed
  new : s'.At idx slot
  old : ∀ j < 32, j ≠ idx → ∀ t, s.At j t → s'.At j t

private theorem Replaces.of_cells (hpacked : s'.Packed) (hnew : s'.At idx slot)
    (hdata : ∀ j, j ≠ idx → s'.dataMap.getLsbD j = s.dataMap.getLsbD j)
    (hnode : ∀ j, j ≠ idx → s'.nodeMap.getLsbD j = s.nodeMap.getLsbD j)
    (hcells : ∀ j, j ≠ idx → j ≠ 32 + idx → s'.cells j = s.cells j) (hidx : idx < 32) :
    s.Replaces idx slot s' := by
  refine ⟨hpacked, hnew, fun j hj hne t ht => ht.congr (hdata j hne) (hnode j hne) ?_ ?_⟩
  · exact hcells j hne (by omega)
  · exact hcells (32 + j) (by omega) (by omega)

/-- One more slot in use for an entry. -/
private theorem occupied_set_data (hidx : idx < 32) (nodes : List (Node K V)) (j : Nat) :
    Occupied ⟨nodes, s.nodeMap, s.dataMap.set idx⟩ j ↔ j = idx ∨ s.Occupied j := by
  simp only [Occupied, getLsbD_append]
  by_cases hj : j < 32
  · rw [if_pos hj, if_pos hj, Bitmap.getLsbD_set hidx]
  · rw [if_neg hj, if_neg hj]
    exact ⟨Or.inr, fun h => h.resolve_left (by omega)⟩

/-- One slot less in use for an entry. -/
private theorem occupied_clear_data (hidx : idx < 32) (h : s.dataMap.getLsbD idx = true)
    (nodes : List (Node K V)) (j : Nat) :
    s.Occupied j ↔ j = idx ∨ Occupied ⟨nodes, s.nodeMap, s.dataMap.clear idx⟩ j := by
  simp only [Occupied, getLsbD_append]
  by_cases hj : j < 32
  · rw [if_pos hj, if_pos hj, Bitmap.getLsbD_clear hidx]
    grind
  · rw [if_neg hj, if_neg hj]
    exact ⟨Or.inr, fun h => h.resolve_left (by omega)⟩

/-- One more slot in use for a node. -/
private theorem occupied_set_node (hidx : idx < 32) (nodes : List (Node K V)) (j : Nat) :
    Occupied ⟨nodes, s.nodeMap.set idx, s.dataMap⟩ j ↔ j = 32 + idx ∨ s.Occupied j := by
  simp only [Occupied, getLsbD_append]
  by_cases hj : j < 32
  · rw [if_pos hj, if_pos hj]
    exact ⟨Or.inr, fun h => h.resolve_left (by omega)⟩
  · rw [if_neg hj, if_neg hj, Bitmap.getLsbD_set hidx]
    have : j - 32 = idx ↔ j = 32 + idx := by omega
    rw [this]

private theorem getLsbD_set_of_ne (hidx : idx < 32) (hj : j ≠ idx) :
    (b.set idx).getLsbD j = b.getLsbD j := by
  rw [Bool.eq_iff_iff, Bitmap.getLsbD_set hidx]
  exact ⟨fun h => h.resolve_left hj, Or.inr⟩

private theorem getLsbD_clear_of_ne (hidx : idx < 32) (hj : j ≠ idx) :
    (b.clear idx).getLsbD j = b.getLsbD j := by
  rw [Bool.eq_iff_iff, Bitmap.getLsbD_clear hidx]
  exact ⟨And.right, fun h => ⟨hj, h⟩⟩

private theorem getLsbD_clear_self (hidx : idx < 32) : (b.clear idx).getLsbD idx = false := by
  rw [Bool.eq_false_iff, ne_eq, Bitmap.getLsbD_clear hidx]
  exact fun h => h.1 rfl

/-- The cells and the number of nodes after a node was added. -/
private theorem insertIdx_of_occupied (hs : s.Packed) (hi : ¬ s.Occupied i) (hlt : i < 64)
    (node : Node K V) (hocc : ∀ (nodes : List (Node K V)) j,
      Occupied ⟨nodes, nodeMap, dataMap⟩ j ↔ j = i ∨ s.Occupied j) :
    let s' : SubNodes K V := ⟨s.nodes.insertIdx (Nat.count s.Occupied i) node, nodeMap, dataMap⟩
    s'.cells = update s.cells i (some node) ∧ s'.Packed := by
  have hle : Nat.count s.Occupied i ≤ s.nodes.length := by
    rw [hs]
    exact Nat.count_monotone _ hlt.le
  refine ⟨cell_insert hi (hocc _) hle node, ?_⟩
  rw [Packed, List.length_insertIdx_of_le_length hle, hs, count_of_occupied hi (hocc _), if_pos hlt]

/-- The cells and the number of nodes after a node was removed. -/
private theorem eraseIdx_of_occupied (hs : s.Packed) (hlt : i < 64)
    (hfree : ∀ nodes : List (Node K V), ¬ Occupied ⟨nodes, nodeMap, dataMap⟩ i)
    (hocc : ∀ (nodes : List (Node K V)) j,
      s.Occupied j ↔ j = i ∨ Occupied ⟨nodes, nodeMap, dataMap⟩ j) :
    let s' : SubNodes K V := ⟨s.nodes.eraseIdx (Nat.count s.Occupied i), nodeMap, dataMap⟩
    s'.cells = update s.cells i none ∧ s'.Packed := by
  have hi : s.Occupied i := (hocc s.nodes i).mpr (Or.inl rfl)
  refine ⟨cell_erase (hfree _) (hocc _), ?_⟩
  have hcount := count_of_occupied (hfree s.nodes) (hocc s.nodes) 64
  rw [if_pos hlt] at hcount
  rw [Packed, List.length_eraseIdx_of_lt (count_lt_length hs hi hlt), hs, hcount]
  rfl

/-- An entry is put into an empty slot. -/
theorem exists_insertNode_entry (hs : s.Packed) (hidx : idx < 32) (h : s.At idx .empty) (k : K)
    (v : V) : ∃ s', insertNode { s with dataMap := s.dataMap.set idx } idx (.entry k v) = some s' ∧
      s.Replaces idx (.entry k v) s' := by
  have hocc := occupied_set_data (s := s) hidx
  have hfree : ¬ s.Occupied idx := by simp [occupied_data hidx, h.1]
  have hset : (s.dataMap.set idx).getLsbD idx = true :=
    (Bitmap.getLsbD_set hidx idx).mpr (Or.inl rfl)
  have hle : Nat.count s.Occupied idx ≤ s.nodes.length := by
    rw [hs]
    exact Nat.count_monotone _ (by omega)
  obtain ⟨hcells, hpacked⟩ := insertIdx_of_occupied hs hfree (by omega) (.entry k v) hocc
  refine ⟨⟨s.nodes.insertIdx (Nat.count s.Occupied idx) (.entry k v), s.nodeMap,
    s.dataMap.set idx⟩, ?_, Replaces.of_cells hpacked ⟨hset, h.2, ?_⟩ ?_ ?_ ?_ hidx⟩
  · have hcomp : compressedIdx ⟨s.nodes, s.nodeMap, s.dataMap.set idx⟩ idx =
        some (Nat.count s.Occupied idx) := by
      rw [← count_self_of_occupied hfree (hocc s.nodes)]
      exact compressedIdx_of_data hidx hset
    exact insertNode_eq hcomp hle _
  · rw [hcells, update_self]
  · exact fun j hj => getLsbD_set_of_ne hidx hj
  · exact fun j _ => rfl
  · exact fun j hj _ => by rw [hcells, update_of_ne hj]

/-- The entry of a slot is replaced. -/
theorem replaces_set_entry (hs : s.Packed) (hidx : idx < 32) {k₀ : K} {v₀ : V}
    (h : s.At idx (.entry k₀ v₀)) (k : K) (v : V) : s.Replaces idx (.entry k v)
      { s with nodes := s.nodes.set (Nat.count s.Occupied idx) (.entry k v) } := by
  have hi : s.Occupied idx := (occupied_data hidx).mpr h.1
  have hcells := cell_set hi (count_lt_length hs hi (by omega)) (.entry k v)
  refine Replaces.of_cells ?_ ⟨h.1, h.2.1, ?_⟩ (fun _ _ => rfl) (fun _ _ => rfl) ?_ hidx
  · exact (List.length_set ..).trans hs
  · exact (congrFun hcells idx).trans (update_self ..)
  · exact fun j hj _ => (congrFun hcells j).trans (update_of_ne hj ..)

/-- The node of a slot is replaced. -/
theorem replaces_set_child (hs : s.Packed) (hidx : idx < 32) {n₀ : Node K V}
    (h : s.At idx (.child n₀)) (n : Node K V) : s.Replaces idx (.child n)
      { s with nodes := s.nodes.set (Nat.count s.Occupied (32 + idx)) n } := by
  have hi : s.Occupied (32 + idx) := occupied_node.mpr h.2.1
  have hcells := cell_set hi (count_lt_length hs hi (by omega)) n
  refine Replaces.of_cells ?_ ⟨h.1, h.2.1, ?_⟩ (fun _ _ => rfl) (fun _ _ => rfl) ?_ hidx
  · exact (List.length_set ..).trans hs
  · exact (congrFun hcells (32 + idx)).trans (update_self ..)
  · exact fun j _ hj => (congrFun hcells j).trans (update_of_ne hj ..)

/-- The entry of a slot is removed. -/
theorem replaces_erase_entry (hs : s.Packed) (hidx : idx < 32) (h : s.At idx (.entry k v)) :
    s.Replaces idx .empty
      ⟨s.nodes.eraseIdx (Nat.count s.Occupied idx), s.nodeMap, s.dataMap.clear idx⟩ := by
  have hfree (nodes : List (Node K V)) :
      ¬ Occupied ⟨nodes, s.nodeMap, s.dataMap.clear idx⟩ idx := by
    simp [occupied_data hidx, getLsbD_clear_self hidx]
  obtain ⟨hcells, hpacked⟩ :=
    eraseIdx_of_occupied hs (by omega) hfree (occupied_clear_data hidx h.1)
  refine Replaces.of_cells hpacked ⟨getLsbD_clear_self hidx, h.2.1⟩ ?_ (fun _ _ => rfl) ?_ hidx
  · exact fun j hj => getLsbD_clear_of_ne hidx hj
  · exact fun j hj _ => by rw [hcells, update_of_ne hj]

/-- The entry of a slot gives way to a node. -/
theorem exists_insertNode_child (hs : s.Packed) (hidx : idx < 32) (h : s.At idx (.entry k v))
    (n : Node K V) :
    ∃ s', insertNode ⟨s.nodes.eraseIdx (Nat.count s.Occupied idx), s.nodeMap.set idx,
        s.dataMap.clear idx⟩ idx n = some s' ∧ s.Replaces idx (.child n) s' := by
  have herased := replaces_erase_entry hs hidx h
  revert herased
  generalize ht : (⟨s.nodes.eraseIdx (Nat.count s.Occupied idx), s.nodeMap,
    s.dataMap.clear idx⟩ : SubNodes K V) = t
  intro herased
  have hocc := occupied_set_node (s := t) hidx
  have hfree : ¬ t.Occupied (32 + idx) := by simp [occupied_node, herased.new.2]
  have hset : (t.nodeMap.set idx).getLsbD idx = true :=
    (Bitmap.getLsbD_set hidx idx).mpr (Or.inl rfl)
  have hle : Nat.count t.Occupied (32 + idx) ≤ t.nodes.length := by
    rw [herased.packed]
    exact Nat.count_monotone _ (by omega)
  obtain ⟨hcells, hpacked⟩ := insertIdx_of_occupied herased.packed hfree (by omega) n hocc
  have hinserted : t.Replaces idx (.child n) ⟨t.nodes.insertIdx (Nat.count t.Occupied (32 + idx)) n,
      t.nodeMap.set idx, t.dataMap⟩ := by
    refine Replaces.of_cells hpacked ⟨herased.new.1, hset, ?_⟩ (fun _ _ => rfl) ?_ ?_ hidx
    · rw [hcells, update_self]
    · exact fun j hj => getLsbD_set_of_ne hidx hj
    · exact fun j _ hj => by rw [hcells, update_of_ne hj]
  refine ⟨_, ?_, hinserted.packed, hinserted.new, fun j hj hne slot hslot =>
    hinserted.old j hj hne slot (herased.old j hj hne slot hslot)⟩
  have hcomp : compressedIdx ⟨t.nodes, t.nodeMap.set idx, t.dataMap⟩ idx =
      some (Nat.count t.Occupied (32 + idx)) := by
    rw [← count_self_of_occupied hfree (hocc t.nodes)]
    exact compressedIdx_of_node hidx herased.new.1 hset
  subst ht
  exact insertNode_eq hcomp hle _

end SubNodes

end CloakBridge.Champ
