import RedisV8.Dict.ScanOnce
import RedisV8.Skiplist.Invariant
import RedisV8.V8.Decoding
import RedisV8.Replication.PartialSync
import RedisV8.Scripting.Resolvable
import RedisV8.Cluster.ElectionSafety
import RedisV8.Cluster.SlotClaims
import RedisV8.Cluster.NodesConfRoundTrip
import RedisV8.Processing.Transactions
import RedisV8.Aof.RoundTrip
import RedisV8.Replication.Window
import RedisV8.Ziplist.Deque
import RedisV8.Ziplist.Find
import RedisV8.Hashes.FiniteMap
import RedisV8.Server.Encodings
import RedisV8.Rdb.Strings
import RedisV8.Server.Eviction
import RedisV8.Networking.OutputFidelity
import RedisV8.Commands.Bitcount
import RedisV8.Commands.Deadlines
import RedisV8.Commands.Increments
import RedisV8.Commands.Announcements
import RedisV8.Commands.Renames
import RedisV8.Scripting.LuaReplies
import RedisV8.Util.Repr
import RedisV8.Sentinel.Failover
import RedisV8.Lib.Cells
import RedisV8.Sets.Commands
import RedisV8.Sets.Encodings
import RedisV8.Sets.FiniteSets
