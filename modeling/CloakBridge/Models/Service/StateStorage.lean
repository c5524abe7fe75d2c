import CloakBridge.Core.Keccak

/-!
# The digest that the chain computes

`StateStorage.generateStateHash` hashes the current values of the given slots, in
the order in which the keys are given.
-/

namespace CloakBridge.Service

/-- The loop that copies the values of the slots to memory, one word after the other. -/
def copyStates (sload : Word → Word) (keys : List Word) : ByteString :=
  keys.foldl (fun vals key => vals ++ wordBytes (sload key)) []

/-- `generateStateHash`, reverting on an empty list of keys. -/
def generateStateHash (sload : Word → Word) (keys : List Word) : Option ByteString :=
  if 0 < keys.length then some (Keccak.keccak256 (copyStates sload keys)) else none

/-- The values are copied in the order of the keys. -/
theorem copyStates_eq_flatMap (sload : Word → Word) (keys : List Word) :
    copyStates sload keys = keys.flatMap fun key => wordBytes (sload key) := by
  have hgen : ∀ vals, keys.foldl (fun vals key => vals ++ wordBytes (sload key)) vals =
      vals ++ keys.flatMap fun key => wordBytes (sload key) := by
    induction keys with
    | nil => simp
    | cons key keys ih =>
      intro vals
      rw [List.foldl_cons, ih, List.flatMap_cons, List.append_assoc]
  exact hgen []

end CloakBridge.Service
