import LevelDbProofs.Util
import LevelDbProofs.Format
import LevelDbProofs.InternalKey
import LevelDbProofs.FilterBlock
import LevelDbProofs.Block
import LevelDbProofs.Memtable
import LevelDbProofs.Cache.Handle
import LevelDbProofs.Cache.HandleTable
import LevelDbProofs.Cache.LRUCache
import LevelDbProofs.Cache.LruMap
import LevelDbProofs.Cache.ShardRep
import LevelDbProofs.Cache.ShardRun
import LevelDbProofs.Cache.Sharded
import LevelDbProofs.Cache.ShardedRep
import LevelDbProofs.Cache.ShardedRun
import LevelDbProofs.Cache.Usage
import LevelDbProofs.Cache.Eviction
import LevelDbProofs.Cache.Invariants
import LevelDbProofs.Cache.Destroy
import LevelDbProofs.Env.Schedule
import LevelDbProofs.Env.Locks
import LevelDbProofs.Env.Mmap
import LevelDbProofs.Random
import LevelDbProofs.Status
import LevelDbProofs.Env.Files
