import OceanBase.Tx.Atomicity
import OceanBase.Palf.CommitRule
import OceanBase.Palf.ConfigSafety
import OceanBase.Palf.Reconfirm
import OceanBase.Palf.ScnOrder
import OceanBase.Election.Cluster
import OceanBase.Replay.Position
import OceanBase.Replay.ReplayablePoint
import OceanBase.Apply.AppliedSound
import OceanBase.Ids.Unique
import OceanBase.Memtable.Checksum
import OceanBase.QueryRange.OrGraph
import OceanBase.QueryRange.RangeSearch
import OceanBase.Memtable.SnapshotRead
import OceanBase.Compaction.MinorMergeReads
import OceanBase.Compaction.RowFuse
import OceanBase.Palf.GroupBuffer
import OceanBase.Gts.Freshness
import OceanBase.Autoinc.Unique
import OceanBase.Sortkey.Rows
import OceanBase.Sortkey.Scalars
import OceanBase.Tablelock.Exclusion
import OceanBase.Number.Parsing
import OceanBase.Rootserver.Migrate
import OceanBase.Tablelock.Checks
import OceanBase.Deadlock.Completeness
import OceanBase.Palf.LocateBlock
import OceanBase.Memtable.ParallelReplay
import OceanBase.Palf.GroupTruncate
import OceanBase.Palf.GroupCut
import OceanBase.Sequence.Series
import OceanBase.Number.RoundV3
import OceanBase.Serialization.Varint
