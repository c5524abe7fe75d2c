import CloakBridge.Models.Service.StateStorage
import CloakBridge.Models.Service.EscrowRuns

/-!
# Updates of an escrowed proxy

`Service` forwards an update to the proxy, which delegates to `StateFactory`. There the
check of the proof and the writes are commented out, so an update that gets as far is
accepted whatever it says, and leaves everything as it is.
-/

namespace CloakBridge.Service

open Exec

/-- The value that an update pairs last with a slot. -/
def lastValue (keys vals : List Word) (slot : Word) : Option Word :=
  (keys.zip vals).reverse.lookup slot

/-- The proof of an update: `keccak256(proof slot, generateStateHash(keys))`. -/
def stateProof (storage : Word → Word) (keys : List Word) : Option Word :=
  (generateStateHash storage keys).map fun hash =>
    wordOfBytes (Keccak.keccak256 (wordBytes (storage proofSlot) ++ hash))

/-- The update was covered by its proof, and it is exactly what happened to the storage. -/
structure ProvenUpdate (proof : Word) (keys vals : List Word) (before after : Word → Word) :
    Prop where
  length_eq : keys.length = vals.length
  proof_eq : stateProof before keys = some proof
  applied : ∀ slot, after slot = (lastValue keys vals slot).getD (before slot)

/-- What `Service.updateState(p, updateState(proof, keys, vals))` should do: revert without an
effect on the proxy, or apply a proven update. -/
def UpdatesProven (p : Address) (proof : Word) (keys vals : List Word) (w : World) :
    EStateM.Result Revert World Unit → Prop
  | .ok _ w' => ProvenUpdate proof keys vals (w.ledger.storage p) (w'.ledger.storage p)
  | .error _ w' => w'.ledger.storage p = w.ledger.storage p

section Forwarding

variable {d : Deployment} {env : Surroundings} {p : Address} {origin sender : Address} {w : World}
  {depth : Nat}

/-- `Service` forwards calldata to an escrowed proxy, whoever asks. -/
theorem handle_updateProxy (hdep : Deployed d w.ledger.code) (hproxy : w.ledger.code p = .proxy)
    (hesc : Escrowed p w.ledger) (depth : Nat) (data : Calldata) :
    handle d env (depth + 1) ⟨origin, sender, d.service, .updateProxy p data⟩ w =
      Exec.call (handle d env depth) ⟨origin, d.service, p, data⟩ w := by
  have hservice : w.ledger.code d.service = .service := (hdep.service _).mpr rfl
  rw [handle, dispatch_of_service hservice]
  exact EscrowControl.updateState_of_escrowed hesc (by rw [hproxy]; rfl)

/-- A held proxy accepts every update from `Service`. -/
theorem handle_updateState (hdep : Deployed d w.ledger.code) (hproxy : w.ledger.code p = .proxy)
    (hheld : Held d p w.ledger) (depth : Nat) (proof : Word) (keys vals : List Word) :
    handle d env (depth + 1) ⟨origin, d.service, p, .updateState proof keys vals⟩ w = .ok () w := by
  have hadmin : d.service ≠ (w.ledger.reserved p).admin := by
    intro heq
    exact hdep.proxyFactory_ne_service (hheld.admin.symm.trans heq.symm)
  have hstate : w.ledger.code (w.ledger.reserved p).implementation = .stateFactory :=
    (hdep.stateFactory _).mpr hheld.implementation
  rw [handle, dispatch_of_proxy hproxy,
    proxyReceive_of_stateFactory (c := ⟨origin, d.service, p⟩) hadmin hstate]
  rfl

variable {proof : Word} {keys vals : List Word}

private theorem call_update_of_lt (env : Surroundings) (origin sender : Address)
    (hdep : Deployed d w.ledger.code) (hproxy : w.ledger.code p = .proxy)
    (hesc : Escrowed p w.ledger) (hdepth : depth < 2) (data : Calldata) :
    ∃ r w', Exec.call (handle d env depth) ⟨origin, sender, d.service, .updateProxy p data⟩ w =
      .error r w' ∧ w'.ledger = w.ledger := by
  cases hrun :
    Exec.call (handle d env depth) ⟨origin, sender, d.service, .updateProxy p data⟩ w with
  | error r w' => exact ⟨r, w', rfl, ledger_of_call_error hrun⟩
  | ok u w' =>
    have hhandle := call_eq_ok.mp hrun
    obtain rfl | rfl : depth = 0 ∨ depth = 1 := by omega
    · cases hhandle
    · rw [handle_updateProxy (by exact hdep) (by exact hproxy) (by exact hesc)] at hhandle
      cases call_eq_ok.mp hhandle

private theorem call_update_of_le (env : Surroundings) (origin sender : Address) (proof : Word)
    (keys vals : List Word) (hdep : Deployed d w.ledger.code) (hproxy : w.ledger.code p = .proxy)
    (hesc : Escrowed p w.ledger) (hheld : Held d p w.ledger) (hdepth : 2 ≤ depth) :
    ∃ w', Exec.call (handle d env depth)
        ⟨origin, sender, d.service, .updateProxy p (.updateState proof keys vals)⟩ w = .ok () w' ∧
      w'.ledger = w.ledger := by
  obtain ⟨n, rfl⟩ : ∃ n, depth = n + 2 := ⟨depth - 2, by omega⟩
  refine ⟨⟨w.ledger, ⟨⟨origin, d.service, p, .updateState proof keys vals⟩, w.ledger⟩ :: ⟨⟨origin,
    sender, d.service, .updateProxy p (.updateState proof keys vals)⟩, w.ledger⟩ :: w.log⟩, ?_, rfl⟩
  apply call_eq_ok.mpr
  rw [handle_updateProxy (by exact hdep) (by exact hproxy) (by exact hesc)]
  apply call_eq_ok.mpr
  rw [handle_updateState (by exact hdep) (by exact hproxy) (by exact hheld)]

private theorem applied_iff {storage : Word → Word} :
    (∀ slot, storage slot = (lastValue keys vals slot).getD (storage slot)) ↔
      ∀ slot value, lastValue keys vals slot = some value → storage slot = value := by
  constructor
  · intro h slot value hvalue
    rw [h slot, hvalue, Option.getD_some]
  · intro h slot
    cases hvalue : lastValue keys vals slot with
    | none => rfl
    | some value => exact h slot value hvalue

end Forwarding

/-- The service and an escrowed proxy do what the update says only if it does not get through, or if
it is proven and says what the slots hold already. -/
theorem updatesProven_iff (d : Deployment) (env : Surroundings) (depth : Nat) (w : World)
    (hdep : Deployed d w.ledger.code) (p : Address) (hproxy : w.ledger.code p = .proxy)
    (hesc : Escrowed p w.ledger) (hheld : Held d p w.ledger) (origin sender : Address)
    (proof : Word) (keys vals : List Word) :
    UpdatesProven p proof keys vals w (Exec.call (handle d env depth)
        ⟨origin, sender, d.service, .updateProxy p (.updateState proof keys vals)⟩ w) ↔
      depth < 2 ∨ keys.length = vals.length ∧ stateProof (w.ledger.storage p) keys = some proof ∧
        ∀ slot value, lastValue keys vals slot = some value → w.ledger.storage p slot = value := by
  by_cases hdepth : depth < 2
  · obtain ⟨r, w', hrun, hledger⟩ := call_update_of_lt env origin sender hdep hproxy hesc hdepth
      (.updateState proof keys vals)
    rw [hrun]
    exact iff_of_true (by rw [UpdatesProven, hledger]) (.inl hdepth)
  · obtain ⟨w', hrun, hledger⟩ := call_update_of_le env origin sender proof keys vals hdep
      hproxy hesc hheld (Nat.le_of_not_lt hdepth)
    rw [hrun, UpdatesProven, hledger, or_iff_right hdepth, ← applied_iff]
    exact ⟨fun h => ⟨h.length_eq, h.proof_eq, h.applied⟩, fun h => ⟨h.1, h.2.1, h.2.2⟩⟩

/-- The sample proxy after its owner has escrowed it. -/
theorem sample_escrowed : ∃ l, Reachable (step sampleDeployment) sampleLedger l ∧
    Deployed sampleDeployment l.code ∧ l.code 0x200 = .proxy ∧ Escrowed 0x200 l ∧
    Held sampleDeployment 0x200 l := by
  obtain ⟨l, hl, hfacts⟩ := Option.map_eq_some_iff.mp sample_escrow
  simp only [Prod.mk.injEq] at hfacts
  obtain ⟨⟨hcode, hescrow, -⟩, -⟩ := hfacts
  have hreach := sample_sealed hl
  have hinv := EscrowControl.inv_of_reaches deployed_sample (fun _ => rfl) hreach
  have hesc : Escrowed 0x200 l := by
    rw [Escrowed, hescrow]
    decide
  exact ⟨l, hreach.mono fun _ _ _ => trivial, hinv.deployed, hcode, hesc,
    (hinv.controlled hesc).2.1⟩

private theorem lastValue_singleton (key value slot : Word) :
    lastValue [key] [value] slot = if slot = key then some value else none := by
  by_cases h : slot = key
  · simp [lastValue, h]
  · have hne : (slot == key) = false := by simpa using h
    simp [lastValue, h, hne]

/-- An update with the value of a slot does what it says. -/
theorem updatesProven_of_same_value :
    ∃ l, Deployed sampleDeployment l.code ∧ l.code 0x200 = .proxy ∧ Escrowed 0x200 l ∧
      Held sampleDeployment 0x200 l ∧ ∃ proof,
        UpdatesProven 0x200 proof [1] [l.storage 0x200 1] ⟨l, []⟩
          (Exec.call (handle sampleDeployment (fun _ _ _ => .revert) 4) ⟨10, 10, 0x100,
            .updateProxy 0x200 (.updateState proof [1] [l.storage 0x200 1])⟩ ⟨l, []⟩) := by
  obtain ⟨l, -, hdep, hproxy, hesc, hheld⟩ := sample_escrowed
  obtain ⟨proof, hproof⟩ : ∃ proof, stateProof (l.storage 0x200) [1] = some proof := ⟨_, rfl⟩
  refine ⟨l, hdep, hproxy, hesc, hheld, proof, ?_⟩
  apply (updatesProven_iff sampleDeployment (fun _ _ _ => .revert) 4 ⟨l, []⟩ hdep 0x200 hproxy hesc
    hheld 10 10 proof [1] [l.storage 0x200 1]).mpr
  refine .inr ⟨rfl, hproof, fun slot value hvalue => ?_⟩
  rw [lastValue_singleton] at hvalue
  split at hvalue
  next hslot =>
    cases hvalue
    rw [hslot]
  next => cases hvalue

/-- A proven update with a new value is accepted and does nothing. -/
theorem not_updatesProven_of_new_value :
    ∃ l, Reachable (step sampleDeployment) sampleLedger l ∧ Escrowed 0x200 l ∧
      Held sampleDeployment 0x200 l ∧ ∃ proof, stateProof (l.storage 0x200) [1] = some proof ∧
        ¬ UpdatesProven 0x200 proof [1] [l.storage 0x200 1 + 1] ⟨l, []⟩
          (Exec.call (handle sampleDeployment (fun _ _ _ => .revert) 4) ⟨10, 10, 0x100,
            .updateProxy 0x200 (.updateState proof [1] [l.storage 0x200 1 + 1])⟩ ⟨l, []⟩) := by
  obtain ⟨l, hreach, hdep, hproxy, hesc, hheld⟩ := sample_escrowed
  obtain ⟨proof, hproof⟩ : ∃ proof, stateProof (l.storage 0x200) [1] = some proof := ⟨_, rfl⟩
  refine ⟨l, hreach, hesc, hheld, proof, hproof, fun hupdate => ?_⟩
  obtain ⟨w', hrun, hledger⟩ := call_update_of_le (fun _ _ _ => .revert) 10 10 proof [1]
    [l.storage 0x200 1 + 1] (w := ⟨l, []⟩) hdep hproxy hesc hheld (show 2 ≤ 4 by omega)
  rw [show (0x100 : Address) = sampleDeployment.service from rfl, hrun] at hupdate
  have hnew := hupdate.applied 1
  rw [hledger, lastValue_singleton, if_pos rfl, Option.getD_some] at hnew
  bv_omega

end CloakBridge.Service
