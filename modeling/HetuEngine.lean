import HetuEngine.Worker.Batches
import HetuEngine.Tusk.Proofs.Causal
import HetuEngine.Primary.Proofs.Admission
import HetuEngine.Primary.Proofs.ParentFirst
import HetuEngine.Primary.Helper
import HetuEngine.Primary.Proposer
import HetuEngine.Relay.Proofs.Delivery
import HetuEngine.StateSync.Snapshot
import HetuEngine.Indexer.Service
import HetuEngine.Local.Response
import HetuEngine.Mempool.Proofs.Order
import HetuEngine.Mempool.Proofs.Batches
import HetuEngine.Mempool.Proofs.Notify
import HetuEngine.Mempool.Proofs.Hashes
import HetuEngine.Mempool.Proofs.CheckTx
import HetuEngine.Mempool.Proofs.Reap
import HetuEngine.Mempool.Proofs.Cache
import HetuEngine.P2P.SecretConnection
import HetuEngine.Local.Proofs.Accepted
import HetuEngine.Comet.Proofs.Rotation
import HetuEngine.Comet.Proofs.Rebuild
import HetuEngine.Comet.Proofs.MedianTime
import HetuEngine.Comet.Proofs.Batch
import HetuEngine.Comet.Proofs.Finalize
import HetuEngine.Comet.Proofs.Safety
import HetuEngine.Comet.Ticker
import HetuEngine.Comet.Wal
import HetuEngine.Comet.KeyPath
import HetuEngine.PrivVal.Proofs.DoubleSign
import HetuEngine.Light.Proofs.Providers
import HetuEngine.BlockSync.Proofs.Peers
import HetuEngine.Light.Proofs.Backwards
import HetuEngine.EvidencePool.Proofs.Identity
import HetuEngine.EvidencePool.Proofs.Pending
import HetuEngine.EvidencePool.Proofs.Accounting
import HetuEngine.Blocks.Proofs.Crash
import HetuEngine.BlockSync.Proofs.Handover
import HetuEngine.BlockSync.Proofs.Extensions
import HetuEngine.Light.Proofs.Forward
import HetuEngine.Comet.Proofs.PartSet
