import CloakBridge.Core.Bytes
import CloakBridge.Core.Keccak
import CloakBridge.Core.Kv.Map
import CloakBridge.Core.Kv.Store
import CloakBridge.Core.Effect
import CloakBridge.Models.Tee.Tables
import CloakBridge.Models.Tee.World
import CloakBridge.Models.Tee.AccountProxy
import CloakBridge.Models.Tee.EthereumState
import CloakBridge.Models.Tee.TransactionSync
import CloakBridge.Models.Tee.Web3Operation
import CloakBridge.Core.Run
import CloakBridge.Models.Tee.Bridge
import CloakBridge.Models.Tee.UpdateAddressing
import CloakBridge.Models.Tee.BridgeSound
import CloakBridge.Models.Tee.StorageOps
import CloakBridge.Models.Tee.UpdateDelivery
import CloakBridge.Models.Tee.ReadYourWrites
import CloakBridge.Models.Service.StateStorage
import CloakBridge.Models.Service.Ledger
import CloakBridge.Models.Service.Contracts
import CloakBridge.Models.Tee.OldStateDigest
import CloakBridge.Models.Tee.NonceUse
import CloakBridge.Models.Tee.SyncMarks
import CloakBridge.Models.Service.Effects
import CloakBridge.Models.Service.EscrowControl
import CloakBridge.Models.Service.EscrowRuns
import CloakBridge.Models.Service.StateUpdates
import CloakBridge.Models.Service.EscrowCustody
import CloakBridge.Models.Tee.EscrowHandshake
import CloakBridge.Models.EscrowProof
import CloakBridge.Models.Tee.HandshakeRuns
import CloakBridge.Core.Abi
import CloakBridge.Core.Hex
import CloakBridge.Models.Abi.Text
import CloakBridge.Models.Abi.Encoder
import CloakBridge.Models.Abi.EncoderCorrect
import CloakBridge.Models.Tee.UpdatePayload
import CloakBridge.Models.Abi.Decoder
import CloakBridge.Models.Abi.RoundTrip
import CloakBridge.Models.Evm.Operations
import CloakBridge.Models.Evm.Processor
import CloakBridge.Models.Evm.Endpoints
import CloakBridge.Models.Evm.Frames
import CloakBridge.Models.Evm.Queries
import CloakBridge.Models.Evm.InnerCalls
import CloakBridge.Models.Evm.StaticCalls
import CloakBridge.Models.Evm.RlpItems
import CloakBridge.Models.Evm.RawTransactions
import CloakBridge.Models.Evm.Signing
import CloakBridge.Models.Tee.OldStateWindows
import CloakBridge.Models.Abi.DecoderBounds
import CloakBridge.Models.Abi.Coders
import CloakBridge.Models.Abi.Repeated
import CloakBridge.Models.Tee.EscrowFields
import CloakBridge.Core.Slots
import CloakBridge.Models.Mpt.Generator
import CloakBridge.Models.Mpt.SubmissionOrder
import CloakBridge.Models.Mpt.LifeCycle
import CloakBridge.Models.Evm.NonceCounts
import CloakBridge.Models.Evm.Confined
import CloakBridge.Models.Evm.Requests
import CloakBridge.Models.Evm.AddressKeys
import CloakBridge.Models.Evm.NextContracts
import CloakBridge.Core.Totals
import CloakBridge.Models.Tenet.Token
import CloakBridge.Models.Evm.BlockHeaders
import CloakBridge.Models.Evm.HexText
import CloakBridge.Models.Mpt.StateLayout
import CloakBridge.Models.Service.BatchUpdates
import CloakBridge.Models.Evm.JsonTypes
import CloakBridge.Models.Evm.PolicySignatures
import CloakBridge.Models.Web3.Session
import CloakBridge.Models.Mpt.StateEncryption
import CloakBridge.Models.Mpt.SealedStates
import CloakBridge.Models.Mpt.StateRoundTrip
import CloakBridge.Models.Service.EscrowRelease
import CloakBridge.Models.Tenet.Layers
import CloakBridge.Models.Tenet.Solvency
import CloakBridge.Models.Evm.KeyedStorage
import CloakBridge.Core.Memory
import CloakBridge.Models.Abi.Packing
import CloakBridge.Models.Service.StateLoops
import CloakBridge.Models.Evm.TableAgreement
import CloakBridge.Core.KeccakRows
import CloakBridge.Models.Evm.Replays
import CloakBridge.Models.Evm.Supply
import CloakBridge.Models.Evm.Conservation
import CloakBridge.Models.Evm.CodeRows
import CloakBridge.Models.Evm.EscrowIntegrity
import CloakBridge.Core.Rank
import CloakBridge.Models.Ccf.Champ
import CloakBridge.Models.Ccf.ChampCorrect
import CloakBridge.Models.Evm.ControlFlow
import CloakBridge.Models.Evm.Arithmetic
import CloakBridge.Models.Web3.WriteQueue
