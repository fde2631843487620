import Redpanda.Lib.GapCount
import Redpanda.Lib.Majority
import Redpanda.Lib.NarrowAccumulate
import Redpanda.Lib.OrderStatistic
import Redpanda.Lib.SharedMemory
import Redpanda.Lib.StdVector
import Redpanda.Lib.Chunks
import Redpanda.Lib.ListLex
import Redpanda.Lib.ByteCodec
import Redpanda.Lib.BitFields
import Redpanda.Lib.OrderedMap
import Redpanda.Lib.OpenAddressing
import Redpanda.Lib.SortedSearch
import Redpanda.Lib.IntervalCover
import Redpanda.Model.Fundamental
import Redpanda.Storage.OffsetTranslatorState
import Redpanda.Storage.OffsetTranslatorReference
import Redpanda.Storage.OffsetTranslatorInverse
import Redpanda.Storage.OffsetTranslatorPersistence
import Redpanda.Storage.KeyOffsetMap
import Redpanda.Storage.HashKeyOffsetMap
import Redpanda.Storage.KeyOffsetMapRefinement
import Redpanda.Storage.CompactedIndex
import Redpanda.Storage.SegmentDeduplication
import Redpanda.Storage.IndexState
import Redpanda.Raft.GroupConfiguration
import Redpanda.Raft.JointConsensus
import Redpanda.Raft.QuorumMatch
import Redpanda.Raft.Consensus
import Redpanda.CloudStorage.PartitionManifest
import Redpanda.CloudStorage.SegmentLookup
import Redpanda.Cluster.ProducerState
import Redpanda.Cluster.IdempotentProducer
import Redpanda.Cluster.RmStm
import Redpanda.Cluster.LastStableOffset
import Redpanda.Cluster.AllocationState
import Redpanda.Cluster.ReallocationCounts
import Redpanda.Cluster.Reallocation
import Redpanda.Bytes.Iobuf
import Redpanda.Container.FragmentedVector
import Redpanda.Container.ChunkedVectorShrink
import Redpanda.Container.IntervalSet
import Redpanda.Container.ContiguousRangeMap
import Redpanda.Security.Acl
import Redpanda.Security.Authorization
import Redpanda.Security.PrefixView
import Redpanda.Utils.Vint
import Redpanda.Utils.S3Fifo
import Redpanda.Utils.S3FifoInvariant
import Redpanda.Utils.ChunkedKvCache
import Redpanda.Bytes.IobufParser
import Redpanda.Wasm.Leb128
import Redpanda.Strings.Utf8
import Redpanda.Kafka.Wire
import Redpanda.Kafka.WireRoundTrip
import Redpanda.Serde.Rw
import Redpanda.Serde.RoundTrip
import Redpanda.Serde.ReadBounds
import Redpanda.Utils.DeltaFor
import Redpanda.Utils.DeltaForRoundTrip
import Redpanda.Utils.DeltaForColumn
import Redpanda.Utils.DeltaForSequence
import Redpanda.Utils.DeltaForTransaction
import Redpanda.Utils.DeltaForTruncate
import Redpanda.Utils.DeltaForHint
import Redpanda.Utils.DeltaForSearch
import Redpanda.Raft.Reconfiguration
import Redpanda.Raft.ConfigurationManager
import Redpanda.Kafka.Group
import Redpanda.Kafka.GroupInvariant
import Redpanda.Kafka.GroupSpec
