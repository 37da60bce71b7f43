import Zkas.Lib.Checked
import Zkas.Lib.Framing
import Zkas.Lib.MountainRange
import Zkas.Shielded.Nullifier
import Zkas.Shielded.Burn
import Zkas.Shielded.State
import Zkas.Shielded.Chain
import Zkas.Lib.Symbolic
import Zkas.Shielded.AnchorLog
import Zkas.Consensus.Coinbase
import Zkas.Consensus.CoinbaseChain
import Zkas.Consensus.Manager
import Zkas.Lib.Frontier
import Zkas.Lib.PrimeHash
import Zkas.Consensus.Instance
import Zkas.Consensus.ManagerRun
import Zkas.Shielded.Bundle
import Zkas.Consensus.PoolDelta
import Zkas.Consensus.VirtualProcessor
import Zkas.Consensus.BlockRows
import Zkas.Consensus.ChainInvariant
import Zkas.Consensus.Reorg
import Zkas.Consensus.Import
import Zkas.Consensus.ImportSpec
import Zkas.Consensus.HonestChain
import Zkas.Consensus.ChainLog
import Zkas.Consensus.Reads
import Zkas.Consensus.Agreement
import Zkas.Consensus.ImportBinding
import Zkas.Lib.Codec
import Zkas.Lib.MerkleBranch
import Zkas.Lib.RunLength
import Zkas.Lib.Reader
import Zkas.Pow.Header
import Zkas.Pow.AuxPow
import Zkas.Consensus.Export
import Zkas.Consensus.AnchorAgreement
import Zkas.Consensus.Partition
import Zkas.Consensus.StoreSimulation
import Zkas.Consensus.NullifierExport
import Zkas.Shielded.Wire
import Zkas.Shielded.Sighash
import Zkas.Shielded.Verify
import Zkas.Lib.MerkleTree
import Zkas.Shielded.Witness
import Zkas.Wallet.Db
import Zkas.Wallet.Receipt
import Zkas.Wallet.ReceiptImport
import Zkas.Wallet.Instance
import Zkas.Lib.BitPath
import Zkas.Lib.SparseTree
import Zkas.Smt.Tree
import Zkas.Smt.Proof
import Zkas.Smt.Update
import Zkas.Smt.Built
import Zkas.Smt.UpdateSpec
import Zkas.Lib.VersionStore
import Zkas.Smt.Stores
import Zkas.Smt.SeqCommit
import Zkas.Smt.Lanes
import Zkas.Smt.LaneStore
import Zkas.Smt.LaneChanges
import Zkas.Smt.LaneStep
import Zkas.Smt.LaneRun
import Zkas.Smt.Streaming
import Zkas.Smt.StreamingSpec
import Zkas.Smt.StreamingRun
import Zkas.Smt.Commitment
import Zkas.Smt.Import
import Zkas.Smt.ImportSpec
import Zkas.Smt.Export
import Zkas.Smt.Synced
import Zkas.Merkle.Tree
import Zkas.Merkle.Streaming
import Zkas.Pow.PayloadCommitment
import Zkas.Shielded.BurnBranch
import Zkas.Shielded.WitnessChain
import Zkas.Lib.Delta
import Zkas.Utxo.Diff
import Zkas.Utxo.Algebra
import Zkas.Utxo.Walk
import Zkas.Shielded.VerifyCache
import Zkas.Lib.Cluster
import Zkas.Dag.Mergeset
import Zkas.Dag.Ghostdag
import Zkas.Dag.Order
import Zkas.Dag.Coloring
import Zkas.Dag.Growth
import Zkas.Dag.Grown
import Zkas.Lib.PositionIndex
import Zkas.History.Backfill
import Zkas.History.Ingest
import Zkas.History.Purge
import Zkas.History.Undo
import Zkas.History.Replay
import Zkas.History.Verify
import Zkas.History.Serve
import Zkas.History.Fetch
import Zkas.Smt.Batches
import Zkas.Pow.Parents
import Zkas.Smt.Shortcut
import Zkas.Dag.Antipast
import Zkas.Consensus.PruningPoint
import Zkas.Mining.Selectors
