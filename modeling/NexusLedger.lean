import NexusLedger.Lib.Transition
import NexusLedger.Lib.Table
import NexusLedger.Lib.OrderedSet
import NexusLedger.Lib.Text
import NexusLedger.Lib.Double
import NexusLedger.Lib.Json
import NexusLedger.Lib.JsonText
import NexusLedger.Lib.JsonTree
import NexusLedger.Lib.Chain
import NexusLedger.Lib.Branch
import NexusLedger.Lib.Journal
import NexusLedger.Lib.Framing
import NexusLedger.Lib.MerkleTree
import NexusLedger.Block
import NexusLedger.LedgerDB
import NexusLedger.Blockchain
import NexusLedger.Node
import NexusLedger.Peer
import NexusLedger.Theorems.Frame
import NexusLedger.Theorems.ChainStore
import NexusLedger.Theorems.NodeSteps
import NexusLedger.Theorems.Finality
import NexusLedger.Theorems.Heights
import NexusLedger.Theorems.Codecs
import NexusLedger.Theorems.Delivery
import NexusLedger.Theorems.Tip
import NexusLedger.Theorems.ProofOfWork
import NexusLedger.Theorems.Staleness
import NexusLedger.Theorems.Sync
import NexusLedger.Theorems.Adoption
import NexusLedger.Theorems.Transactions
import NexusLedger.Theorems.Settlement
import NexusLedger.Theorems.DoubleEntry
import NexusLedger.Theorems.Columns
import NexusLedger.Theorems.Operations
import NexusLedger.Theorems.MempoolIndex
import NexusLedger.Theorems.Pool
import NexusLedger.Theorems.Selection
import NexusLedger.Theorems.Admission
import NexusLedger.Theorems.Templates
import NexusLedger.Theorems.Storage
import NexusLedger.Theorems.Replacement
import NexusLedger.Theorems.Contents
import NexusLedger.Theorems.Accounting
import NexusLedger.Theorems.Issuance
import NexusLedger.Theorems.Relay
import NexusLedger.Theorems.Wallets
import NexusLedger.Theorems.Nonces
import NexusLedger.Theorems.Cleaning
import NexusLedger.Theorems.Mining
import NexusLedger.Theorems.Merkle
import NexusLedger.Theorems.Commitment
import NexusLedger.Theorems.Retarget
import NexusLedger.Theorems.Intervals
import NexusLedger.Network
import NexusLedger.Theorems.SharedLedger
import NexusLedger.Discovery
import NexusLedger.Theorems.Endpoints
import NexusLedger.Connections
import NexusLedger.Theorems.Registry
import NexusLedger.Theorems.Serving
import NexusLedger.Theorems.Persistence
import NexusLedger.Http
import NexusLedger.Theorems.HttpBody
import NexusLedger.Theorems.Provenance
import NexusLedger.Theorems.Branches
import NexusLedger.Theorems.SingleProducer
import NexusLedger.Theorems.Balances
import NexusLedger.Theorems.Locality
import NexusLedger.Wire
import NexusLedger.Theorems.Transport
import NexusLedger.Statements
import NexusLedger.Theorems.Crashes
import NexusLedger.Theorems.Restarts
import NexusLedger.Mesh
import NexusLedger.Theorems.Echoes
import NexusLedger.Theorems.Forks
import NexusLedger.Theorems.PeerLists
import NexusLedger.Theorems.MeshRuns
import NexusLedger.Theorems.Travels
