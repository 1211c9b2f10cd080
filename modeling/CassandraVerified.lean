import CassandraVerified.Storage.Proofs.RecoveryProofs
import CassandraVerified.Storage.Proofs.ConcurrentProofs
import CassandraVerified.Storage.Proofs.ScanProofs
import CassandraVerified.Storage.Proofs.RowCacheProofs
import CassandraVerified.Storage.Proofs.FilteredProofs
import CassandraVerified.Storage.Proofs.BackendProofs
import CassandraVerified.Storage.Proofs.LeveledProofs
import CassandraVerified.Storage.Proofs.CounterProofs
import CassandraVerified.Storage.Proofs.CompactionJournalProofs
import CassandraVerified.Storage.Proofs.TransformsProofs
import CassandraVerified.Paxos.Proofs.OutcomeProofs
import CassandraVerified.Paxos.Proofs.IsolationProofs
import CassandraVerified.Paxos.Proofs.RestartProofs
import CassandraVerified.Paxos.Proofs.OrderProofs
import CassandraVerified.Consensus.Proofs.RouterProofs
import CassandraVerified.Read.Proofs.PagingRunProofs
import CassandraVerified.Read.Proofs.ShortReadProofs
import CassandraVerified.Coordinator.Proofs.ExpiryProofs
import CassandraVerified.Coordinator.Proofs.ConsistencyProofs
import CassandraVerified.Coordinator.Proofs.HintCrashProofs
import CassandraVerified.Coordinator.Proofs.WriteProofs
import CassandraVerified.Coordinator.Proofs.WriteResponseProofs
import CassandraVerified.Coordinator.Proofs.BatchProofs
import CassandraVerified.Coordinator.Proofs.CounterMergeProofs
import CassandraVerified.Cluster.Proofs.RingProofs
import CassandraVerified.Cluster.Proofs.DirectoryProofs
import CassandraVerified.Cluster.Proofs.PartitionerProofs
import CassandraVerified.Cluster.Proofs.RangeStreamerProofs
import CassandraVerified.Repair.Proofs.MerkleProofs
import CassandraVerified.Repair.Proofs.AsymmetricProofs
import CassandraVerified.Repair.Proofs.ConsistentProofs
import CassandraVerified.Types.Proofs.RoundTripProofs
import CassandraVerified.Types.Proofs.ByteComparableProofs
import CassandraVerified.Types.Proofs.SeparatorProofs
import CassandraVerified.Types.Proofs.NumericOrderProofs
