import TokuMX.BSON.Walk
import TokuMX.Collection.CappedLimit
import TokuMX.Collection.CappedStats
import TokuMX.Collection.IndexMirror
import TokuMX.Collection.PartitionedCursor
import TokuMX.Collection.Routing
import TokuMX.Collection.Tailable
import TokuMX.Collection.TailableSecondary
import TokuMX.Oplog.Retention
import TokuMX.Oplog.Rollback
import TokuMX.Pipeline.Order
import TokuMX.Query.IndexCursor
import TokuMX.Query.OrRanges
import TokuMX.Query.Projection
import TokuMX.Query.RangeBounds
import TokuMX.Query.ScanAndOrder
import TokuMX.Query.SortOrder
import TokuMX.Repl.Election
import TokuMX.Repl.GTIDBytes
import TokuMX.Repl.Recovery
import TokuMX.Repl.TagRules
import TokuMX.Sharding.Balancer
import TokuMX.Sharding.ConfigDiff
import TokuMX.Sharding.MigrateLog
import TokuMX.Sharding.TransferMods
import TokuMX.Storage.Key
import TokuMX.Txn.FlatVector
import TokuMX.Update.ModSet
import TokuMX.Update.NameOrder
