import AkwaDB.Compaction.Crash
import AkwaDB.Manifest.Reread
import AkwaDB.Engine.Race
import AkwaDB.Wal.Restart
import AkwaDB.Wal.Retire
import AkwaDB.Txn.Watermark
import AkwaDB.Txn.Layers
import AkwaDB.Vlog.Fidelity
import AkwaDB.Wal.Keystream
import AkwaDB.Engine.Shutdown
import AkwaDB.Engine.Throttle
import AkwaDB.Engine.Rotation
import AkwaDB.Engine.Archiver
import AkwaDB.Engine.Archive
import AkwaDB.Engine.Untagged
import AkwaDB.Engine.Clear
import AkwaDB.Engine.Damage
import AkwaDB.Client.Incr
import AkwaDB.Client.Rewrite
import AkwaDB.Client.Expiry
import AkwaDB.Repl.Resume
import AkwaDB.Repl.Converge
import AkwaDB.Repl.Notify
import AkwaDB.Server.Counts
import AkwaDB.Server.PubSub
import AkwaDB.Server.Deadline
import AkwaDB.Cluster.Rejected
import AkwaDB.Wal.GroupCommit
import AkwaDB.Engine.Relocate
import AkwaDB.Engine.Staging
import AkwaDB.Compaction.Kept
import AkwaDB.Engine.Heaps
import AkwaDB.Compaction.Ties
import AkwaDB.Server.Session
import AkwaDB.Store.Towers
import AkwaDB.Engine.Settle
import AkwaDB.Crypto.Cipher
import AkwaDB.Store.Bloom
import AkwaDB.Engine.Glob
import AkwaDB.Txn.Index
import AkwaDB.Cluster.Persist
import AkwaDB.Cache.Lru
import AkwaDB.Vlog.Remove
