import Tenderdash.Lib.Protobuf
import Tenderdash.Lib.Except
import Tenderdash.Lib.Quorum
import Tenderdash.Lib.Slice
import Tenderdash.Lib.Int64
import Tenderdash.Lib.Binary64
import Tenderdash.Lib.RoundRobin
import Tenderdash.Lib.Lru
import Tenderdash.Lib.Hex
import Tenderdash.Lib.Url
import Tenderdash.Lib.FoldUpdate
import Tenderdash.Lib.Shuffle
import Tenderdash.Lib.Distinct
import Tenderdash.Lib.MapLoop
import Tenderdash.Types.Basic
import Tenderdash.Types.Canonical
import Tenderdash.Types.ValidatorSet
import Tenderdash.Types.Priority
import Tenderdash.Types.PriorityRounds
import Tenderdash.Types.PriorityUpdate
import Tenderdash.Types.ProposerSelection
import Tenderdash.Privval.File
import Tenderdash.VoteSet.Basic
import Tenderdash.VoteSet.Invariant
import Tenderdash.VoteSet.Majority
import Tenderdash.Crypto.Merkle
import Tenderdash.Crypto.MerkleIterative
import Tenderdash.Crypto.KeyPath
import Tenderdash.Types.PartSet
import Tenderdash.Types.SignBytes
import Tenderdash.Evidence.Verify
import Tenderdash.Types.Commit
import Tenderdash.Consensus.Types
import Tenderdash.Consensus.HeightVotes
import Tenderdash.Consensus.State
import Tenderdash.Consensus.Commit
import Tenderdash.Consensus.Proposal
import Tenderdash.Bits.BitArray
import Tenderdash.Bits.Json
import Tenderdash.Consensus.PeerState
import Tenderdash.Light.Client
import Tenderdash.Light.Store
import Tenderdash.Mempool.CList
import Tenderdash.Mempool.MapTxCache
import Tenderdash.P2P.Connection
import Tenderdash.P2P.SecretConnection
import Tenderdash.Pex.AddrBook
import Tenderdash.Pex.Buckets
import Tenderdash.Pex.Run
import Tenderdash.Pex.Capacity
import Tenderdash.Pex.File
import Tenderdash.Pex.Selection
import Tenderdash.Pex.Calls
import Tenderdash.Blockchain.Scheduler
import Tenderdash.Blockchain.SchedulerMaps
import Tenderdash.Blockchain.SchedulerRun
import Tenderdash.Blockchain.Processor
import Tenderdash.Blockchain.Reactor
import Tenderdash.Store.BlockStore
import Tenderdash.Store.Run
