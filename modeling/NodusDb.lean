import NodusDb.Lsm.Replay
import NodusDb.Lsm.ScanAgreement
import NodusDb.Lsm.PowerCut
import NodusDb.Txn.Watermark
import NodusDb.Txn.Restart
import NodusDb.Executor.Nextval
import NodusDb.Raft.Purge
import NodusDb.Raft.FenceRuns
import NodusDb.Raft.Reserved
import NodusDb.Raft.Upgrade
import NodusDb.Raft.TxnRuns
import NodusDb.Sharding.RoutedScan
import NodusDb.Sharding.Recovery
import NodusDb.Backup.Creation
import NodusDb.Backup.Holes
import NodusDb.Backup.Replay
import NodusDb.Sql.PushDown
import NodusDb.Sql.MinMax
import NodusDb.Sql.RowKey
import NodusDb.Sql.SetOps
import NodusDb.Sql.StoredRow
import NodusDb.Sql.Partitioning
import NodusDb.Sql.Intervals
import NodusDb.Sql.NumericOrder
import NodusDb.Sql.NumericRoots
import NodusDb.Sql.Networks
