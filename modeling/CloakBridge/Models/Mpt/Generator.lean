import CloakBridge.Models.Abi.Decoder
import CloakBridge.Models.Evm.Transaction
import Std.Data.ExtTreeMap

/-!
# Multi-party transactions

A multi-party transaction begins with a call of a function of a privacy policy and
collects the inputs of the function from several parties. When they are complete the
enclave signs a `propose`; having got the old states and executed the function, it signs a
`complete`.

Records are kept as JSON, where a null value is read back as no value. What the enclave
does with states is a parameter.
-/

namespace CloakBridge.Mpt

open Std Tee Evm

/-- The values of `nlohmann::json`, of which one is null. -/
class Json (J : Type) where
  null : J
  /-- `nlohmann::json(params).dump()` -/
  dump : (function : ByteString) → (inputs : List (ByteString × J)) → ByteString

/-- What the handlers throw. -/
inductive Failure where
  /-- "Unsupported transaction type, to length should be 20 or 32, but is ..." -/
  | unsupportedType (size : Nat)
  /-- "multi party transaction digests doesn't exists (digests ...)" -/
  | noTransaction (id : ByteString)
  /-- "mpt is not PENDING" -/
  | notPending
  /-- "input params doesn`t match, get ..." -/
  | noInput (name : ByteString)
  /-- "doesn't find this ... function in this policy modules" -/
  | noFunction (name : ByteString)
  /-- "privacy digests doesn`t exists (contract address ...)" -/
  | noPrivacyDigest (contract : Address)
  /-- "privacy module doesn`t exists (privacy digests ...)" -/
  | noPrivacyModule (digest : ByteString)
  /-- "nonce too low" -/
  | nonceTooLow
  /-- "function is not ready, get ..." -/
  | notReady (id : ByteString)
  /-- "old states digests doesn`t exists (cloak transaction ...)" -/
  | noOldStatesDigest (id : ByteString)
  /-- "tee not prepared" -/
  | notPrepared
  /-- the address of the service is not set -/
  | noService
  | abi (failure : Abicoder.Failure)
  /-- thrown by what is a parameter here -/
  | engine
  /-- an element behind the end of a vector -/
  | undefined
  deriving DecidableEq, Repr

inductive Status where
  | pending
  | requestingOldStates
  | syncing
  | synced
  | syncFailed
  | dropped
  deriving DecidableEq, Repr

/-- `policy::Params` -/
structure Params (J : Type) where
  name : ByteString
  structuralType : J
  owner : J
  value : Option J
  deriving DecidableEq

structure StateParams where
  name : ByteString
  keys : List ByteString
  deriving DecidableEq

/-- `policy::Function` -/
structure Function (J : Type) where
  type : ByteString
  name : ByteString
  entry : ByteString
  inputs : List (Params J)
  read : List StateParams
  mutate : List StateParams
  outputs : List (Params J)
  rawOutputs : ByteString
  deriving DecidableEq

/-- `policy::MultiPartyParams`. The inputs are a `std::map`, in the order of their names. -/
structure MultiPartyParams (J : Type) where
  function : ByteString
  inputs : List (ByteString × J)
  sorted : inputs.Pairwise fun a b => a.1 < b.1
  deriving DecidableEq

/-- A key that was recovered from a signature. `public_key_raw` is 0x04 and the point. -/
structure PublicKey where
  point : ByteString
  deriving DecidableEq

namespace PublicKey

instance : Ord PublicKey := ⟨compareOn point⟩

instance : TransOrd PublicKey := inferInstanceAs (TransCmp (compareOn point))

instance : LawfulEqOrd PublicKey where
  eq_of_compare h := congrArg mk (Std.compare_eq_iff_eq.mp h)

def raw (key : PublicKey) : ByteString := 0x04 :: key.point

def address (key : PublicKey) : Address := addressOfDigest (Tee.keccak256 key.point)

end PublicKey

/-- A decoded `MultiPartyTransaction` -/
structure MultiPartyTransaction (J : Type) where
  nonce : Nat
  to_ : ByteString
  publicKeys : PublicKey
  params : MultiPartyParams J
  deriving DecidableEq

/-- The sender, recovered from the signature. -/
def MultiPartyTransaction.from_ {J : Type} (mpt : MultiPartyTransaction J) : Address :=
  mpt.publicKeys.address

/-- `PrivacyPolicyTransaction`, with the members of its policy -/
structure PrivacyPolicyTransaction (J : Type) where
  to_ : Address
  verifierAddr : Address
  codeHash : ByteString
  states : List (Params J)
  functions : List (Function J)

structure CloakPolicyTransaction (J : Type) where
  from_ : Address
  to_ : Address
  verifierAddr : Address
  codeHash : ByteString
  function : Function J
  states : List (Params J)
  oldStates : List ByteString
  requestedAddresses : List ByteString
  publicKeys : ExtTreeMap ByteString ByteString
  status : Status
  partys : ExtTreeMap PublicKey ByteString

/-- What is sent to the agent. -/
inductive Notice where
  /-- a signed `propose`, with the nonce of the TEE account -/
  | propose (id : ByteString) (verifierAddr : Address) (partys : List Address)
    (inputHash : List ByteString) (nonce : Nat)
  | requestOldState (id : ByteString) (from_ to_ : Address) (data : ByteString)
  | requestPublicKeys (id : ByteString) (from_ to_ : Address) (data : ByteString)
  /-- a signed `complete`, with the nonce of the TEE account -/
  | syncResult (id data returnCommit : ByteString) (nonce : Nat)
  deriving DecidableEq, Repr

/-- The tables that the generator uses, and what it has sent. -/
structure Node (J : Type) where
  cloakPolicys : ByteString → Option (CloakPolicyTransaction J)
  privacyDigests : Address → Option ByteString
  privacys : ByteString → Option (PrivacyPolicyTransaction J)
  statesDigests : ByteString → Option ByteString
  /-- the nonces of the accounts of `EthereumState` -/
  nonces : Address → Nat
  teeAddress : Option Address
  teeNonce : Nat
  serviceAddr : Option Address
  agentLog : List Notice

/-- What the enclave does with states. -/
structure Engine (J : Type) where
  /-- `get_states_call_data(true)` -/
  getStatesCallData : CloakPolicyTransaction J → Except Failure ByteString
  /-- the owners that `request_public_keys` finds in the old states, and if the TEE is one -/
  owners : CloakPolicyTransaction J → Except Failure (List ByteString × Bool)
  /-- the call of `getPk` -/
  getPk : List ByteString → Except Failure ByteString
  decryptStates : CloakPolicyTransaction J → Except Failure (List ByteString)
  /-- `execute_mpt`, which sets the raw outputs and returns the new states -/
  executeMpt : CloakPolicyTransaction J → List ByteString → Except Failure (ByteString × ByteString)
  encryptStates : CloakPolicyTransaction J → List ByteString → Except Failure (List ByteString)
  /-- the call of `set_states` -/
  setStates : CloakPolicyTransaction J → List ByteString → List ByteString →
    Except Failure ByteString

variable {J : Type}

namespace Function

def complete (f : Function J) : Bool := f.inputs.all fun x => x.value.isSome

/-- The loop of `padding` -/
def setInput (name : ByteString) (value : J) :
    List (Params J) → Except Failure (List (Params J))
  | [] => .error (.noInput name)
  | x :: inputs =>
    if name = x.name then .ok ({ x with value := some value } :: inputs)
    else do
      let inputs ← setInput name value inputs
      .ok (x :: inputs)

def padding (f : Function J) (name : ByteString) (value : J) : Except Failure (Function J) :=
  if f.complete then .ok f
  else do
    let inputs ← setInput name value f.inputs
    .ok { f with inputs := inputs }

/-- The loop of `set_content` -/
def paddingAll (f : Function J) : List (ByteString × J) → Except Failure (Function J)
  | [] => .ok f
  | (name, value) :: inputs => do
    let f ← f.padding name value
    f.paddingAll inputs

end Function

namespace PrivacyPolicyTransaction

def getFuntions (ppt : PrivacyPolicyTransaction J) (name : ByteString) :
    Except Failure (Function J) :=
  match ppt.functions.find? fun f => f.name = name with
  | some f => .ok f
  | none => .error (.noFunction name)

/-- The constructor of `CloakPolicyTransaction` -/
def call (ppt : PrivacyPolicyTransaction J) (from_ : Address) (name : ByteString) :
    Except Failure (CloakPolicyTransaction J) := do
  let function ← ppt.getFuntions name
  .ok
    { from_, to_ := ppt.to_, verifierAddr := ppt.verifierAddr, codeHash := ppt.codeHash, function
      states := ppt.states, oldStates := [], requestedAddresses := [], publicKeys := ∅
      status := .pending, partys := ∅ }

end PrivacyPolicyTransaction

section Records

variable [Json J]

/-- `to_json` and `from_json` of an optional value -/
def Params.reload [DecidableEq J] (x : Params J) : Params J :=
  { x with value := x.value.filter fun v => v ≠ Json.null }

def Function.reload [DecidableEq J] (f : Function J) : Function J :=
  { f with inputs := f.inputs.map Params.reload, outputs := f.outputs.map Params.reload }

def PrivacyPolicyTransaction.reload [DecidableEq J] (ppt : PrivacyPolicyTransaction J) :
    PrivacyPolicyTransaction J :=
  { ppt with
    states := ppt.states.map Params.reload
    functions := ppt.functions.map Function.reload }

namespace CloakPolicyTransaction

/-- A record as it is read back from the table. -/
def reload [DecidableEq J] (r : CloakPolicyTransaction J) : CloakPolicyTransaction J :=
  { r with function := r.function.reload, states := r.states.map Params.reload }

def setContent (r : CloakPolicyTransaction J) (mpt : MultiPartyTransaction J) :
    Except Failure (CloakPolicyTransaction J) := do
  let function ← r.function.paddingAll mpt.params.inputs
  .ok { r with
    function := function
    partys := r.partys.insert mpt.publicKeys (Json.dump mpt.params.function mpt.params.inputs) }

end CloakPolicyTransaction

end Records

namespace CloakPolicyTransaction

def calcInputsHash (r : CloakPolicyTransaction J) : List Address × List ByteString :=
  (r.partys.toList.map fun party => party.1.address,
    r.partys.toList.map fun party => Tee.keccak256 party.2)

/-- `request_public_keys`: the record, and the request if there is one -/
def requestPublicKeys (e : Engine J) (r : CloakPolicyTransaction J) :
    Except Failure (CloakPolicyTransaction J × Option ByteString) := do
  let (owners, includedTee) ← e.owners r
  if owners = [] then
    if includedTee then do
      let oldStates ← e.decryptStates r
      .ok ({ r with oldStates := oldStates }, none)
    else .ok (r, none)
  else do
    let data ← e.getPk owners
    .ok ({ r with requestedAddresses := owners }, some data)

end CloakPolicyTransaction

namespace Node

/-- `cp->get` -/
def load [Json J] [DecidableEq J] (st : Node J) (id : ByteString) :
    Option (CloakPolicyTransaction J) :=
  (st.cloakPolicys id).map CloakPolicyTransaction.reload

/-- `cp->put` -/
def store (st : Node J) (id : ByteString) (r : CloakPolicyTransaction J) : Node J :=
  { st with cloakPolicys := Function.update st.cloakPolicys id (some r) }

/-- `make_account` -/
def makeAccount (st : Node J) : Except Failure Address :=
  match st.teeAddress with
  | some address => .ok address
  | none => .error .notPrepared

def getServiceAddr (st : Node J) : Except Failure Address :=
  match st.serviceAddr with
  | some address => .ok address
  | none => .error .noService

/-- `cloak_agent_log` -/
def send (st : Node J) (notice : Notice) : Node J :=
  { st with agentLog := st.agentLog ++ [notice] }

/-- Send a transaction that the TEE account has signed, and increment its nonce. -/
def signAndSend (st : Node J) (notice : Nat → Notice) : Node J :=
  { st.send (notice st.teeNonce) with teeNonce := (st.teeNonce + 1) % 2 ^ 64 }

/-- `propose`, with the `packedPropose` of the record -/
def propose (st : Node J) (id : ByteString) (r : CloakPolicyTransaction J) :
    Except Failure (Node J) := do
  let _ ← st.makeAccount
  let _ ← st.getServiceAddr
  .ok (st.signAndSend (.propose id r.verifierAddr r.calcInputsHash.1 r.calcInputsHash.2))

def getProof (st : Node J) (r : CloakPolicyTransaction J) (id : ByteString) :
    Except Failure (List ByteString) :=
  match st.privacyDigests r.to_, st.statesDigests id with
  | none, _ => .error (.noPrivacyDigest r.to_)
  | some _, none => .error (.noOldStatesDigest id)
  | some privacy, some oldStates => .ok [r.codeHash, privacy, oldStates]

/-- The inputs hashes that have been proposed for a transaction, with their parties. -/
def proposals (st : Node J) (id : ByteString) : List (List Address × List ByteString) :=
  st.agentLog.filterMap fun
    | .propose id' _ partys inputHash _ => if id' = id then some (partys, inputHash) else none
    | _ => none

/-- A signed `propose` is one more proposal. -/
theorem proposals_signAndSend_propose (st : Node J) (id : ByteString) (verifierAddr : Address)
    (partys : List Address) (inputHash : List ByteString) :
    (st.signAndSend (.propose id verifierAddr partys inputHash)).proposals id =
      st.proposals id ++ [(partys, inputHash)] := by
  simp [proposals, signAndSend, send, List.filterMap_append]

variable [Json J] [DecidableEq J]

/-- A record is read back without its nulls. -/
@[simp]
theorem load_store (st : Node J) (id : ByteString) (r : CloakPolicyTransaction J) :
    (st.store id r).load id = some r.reload := by
  simp [load, store]

/-- The record of a transaction, or the exception of every handler that does not find it. -/
def get (st : Node J) (id : ByteString) : Except Failure (CloakPolicyTransaction J) :=
  match st.load id with
  | some r => .ok r
  | none => .error (.noTransaction id)

def checkPrivacyModules (st : Node J) (to_ : Address) :
    Except Failure (PrivacyPolicyTransaction J) :=
  match st.privacyDigests to_ with
  | none => .error (.noPrivacyDigest to_)
  | some digest =>
    match st.privacys digest with
    | none => .error (.noPrivacyModule digest)
    | some ppt => .ok ppt.reload

/-- Store a record that has new content, and propose it if it is complete. -/
def putContent (st : Node J) (id : ByteString) (r : CloakPolicyTransaction J) :
    Except Failure (Node J) :=
  if r.function.complete then (st.store id r).propose id r else .ok (st.store id r)

/-- `add_cloakTransaction`, for a decoded transaction and its digest -/
def addCloakTransaction (st : Node J) (digest : ByteString) (mpt : MultiPartyTransaction J) :
    Except Failure (Node J) :=
  if mpt.to_.length = 32 then do
    let r ← st.get mpt.to_
    if r.status ≠ .pending then .error .notPending
    else do
      let r ← r.setContent mpt
      st.putContent mpt.to_ r
  else if mpt.to_.length = 20 then do
    let ppt ← st.checkPrivacyModules (wordOfBytes (List.replicate 12 0 ++ mpt.to_))
    if mpt.nonce < st.nonces mpt.from_ then .error .nonceTooLow
    else do
      let r ← ppt.call mpt.from_ mpt.params.function
      let r ← r.setContent mpt
      st.putContent digest r
  else .error (.unsupportedType mpt.to_.length)

/-- `sync_report` -/
def syncReport (st : Node J) (id : ByteString) (synced : Bool) : Except Failure (Node J) := do
  let r ← st.get id
  .ok (st.store id { r with status := if synced then .synced else .syncFailed })

/-- `sync_propose`, with `request_old_state` -/
def syncPropose (e : Engine J) (st : Node J) (id : ByteString) (success : Bool) :
    Except Failure (Node J) := do
  let r ← st.get id
  if success then do
    let account ← st.makeAccount
    let r := { r with status := .requestingOldStates }
    let data ← e.getStatesCallData r
    .ok ((st.send (.requestOldState id account r.verifierAddr data)).store id r)
  else .ok (st.store id { r with status := .dropped })

/-- `sync_result`, and the record stored after it -/
def syncResult (e : Engine J) (st : Node J) (id : ByteString) (r : CloakPolicyTransaction J)
    (newStates : ByteString) : Except Failure (Node J) := do
  let newStates ← (Abicoder.decodeBytesArray newStates).mapError .abi
  let encrypted ← e.encryptStates r newStates
  let proof ← st.getProof r id
  let packed ← e.setStates r encrypted proof
  let _ ← st.getServiceAddr
  .ok ((st.signAndSend (.syncResult id packed r.function.rawOutputs)).store id
    { r with status := .syncing })

/-- Execute the function on old states, and send the result. -/
def execute (e : Engine J) (st : Node J) (id : ByteString) (r : CloakPolicyTransaction J)
    (oldStates : List ByteString) : Except Failure (Node J) := do
  let (rawOutputs, newStates) ← e.executeMpt r oldStates
  st.syncResult e id { r with function := { r.function with rawOutputs := rawOutputs } } newStates

/-- The keys that were requested, in the order of the addresses. -/
def pairKeys : List ByteString → List ByteString → ExtTreeMap ByteString ByteString →
    Except Failure (ExtTreeMap ByteString ByteString)
  | [], _, keys => .ok keys
  | _ :: _, [], _ => .error .undefined
  | address :: addresses, key :: list, keys => pairKeys addresses list (keys.insert address key)

/-- `sync_public_keys` -/
def syncPublicKeys (e : Engine J) (st : Node J) (id data : ByteString) :
    Except Failure (Node J) := do
  let r ← st.get id
  let list ← (Abicoder.decodeBytesArray (Abicoder.evmToBytes data)).mapError .abi
  let publicKeys ← pairKeys r.requestedAddresses list ∅
  let r := { r with publicKeys := publicKeys }
  let _ ← st.makeAccount
  let decrypted ← e.decryptStates r
  st.execute e id r decrypted

/-- `sync_states` -/
def syncStates (e : Engine J) (st : Node J) (id data : ByteString) : Except Failure (Node J) := do
  let r ← st.get id
  let bytes := Abicoder.evmToBytes data
  let oldStates ← (Abicoder.decodeBytesArray bytes).mapError .abi
  let st := { st with
    statesDigests := Function.update st.statesDigests id (some (Tee.keccak256 bytes)) }
  if r.function.complete then do
    let account ← st.makeAccount
    let service ← st.getServiceAddr
    let (r, request) ← { r with oldStates := oldStates }.requestPublicKeys e
    match request with
    | some data => .ok ((st.send (.requestPublicKeys id account service data)).store id r)
    | none => st.execute e id r oldStates
  else .error (.notReady id)

end Node

/-- The requests that the generator handles. -/
inductive Message (J : Type) where
  | addCloakTransaction (digest : ByteString) (mpt : MultiPartyTransaction J)
  | syncPropose (id : ByteString) (success : Bool)
  | syncStates (id data : ByteString)
  | syncPublicKeys (id data : ByteString)
  | syncReport (id : ByteString) (synced : Bool)

/-- A request is handled. The engine may answer differently each time. -/
def Node.handle [Json J] [DecidableEq J] (st : Node J) (e : Engine J) :
    Message J → Except Failure (Node J)
  | .addCloakTransaction digest mpt => st.addCloakTransaction digest mpt
  | .syncPropose id success => st.syncPropose e id success
  | .syncStates id data => st.syncStates e id data
  | .syncPublicKeys id data => st.syncPublicKeys e id data
  | .syncReport id synced => st.syncReport id synced

end CloakBridge.Mpt
