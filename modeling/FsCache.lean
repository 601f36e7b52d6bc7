import FsCache.Lib.Run
import FsCache.Lib.Assoc
import FsCache.Lib.Prefix
import FsCache.Lib.Files
import FsCache.Lib.Tree
import FsCache.Lib.Cursor
import FsCache.Path
import FsCache.Db
import FsCache.Backing
import FsCache.Manager
import FsCache.Copy
import FsCache.CopyWindow
import FsCache.CopyPair
import FsCache.CopySound
import FsCache.Pipeline
import FsCache.Phases
import FsCache.Dispatcher
import FsCache.CachingWindow
import FsCache.HeadOfLine
import FsCache.BackingWatch
import FsCache.Debounce
import FsCache.Watches
import FsCache.Daemon
import FsCache.PathView
import FsCache.Entry
import FsCache.Tidy
import FsCache.OneWriter
import FsCache.FreshSound
import FsCache.Recorded
import FsCache.Coherence
import FsCache.Invalidation
import FsCache.OnePopulate
import FsCache.Deferred
import FsCache.Fleet
import FsCache.Complete
import FsCache.Restart
import FsCache.Agreement
import FsCache.Gone
import FsCache.Abort
import FsCache.Inode
import FsCache.InodeRun
import FsCache.Rename
import FsCache.Serve
import FsCache.Mount
import FsCache.Fs
import FsCache.Seeding
import FsCache.Passthrough
import FsCache.Handles
import FsCache.Failures
import FsCache.Moves
import FsCache.Held
import FsCache.Leaks
import FsCache.Kinds
import FsCache.Sizes
import FsCache.Subtree
import FsCache.Outage
import FsCache.Engine
import FsCache.AccessFilter
import FsCache.CheckOnHit
import FsCache.Budget
import FsCache.Eviction
import FsCache.MakeRoom
import FsCache.PathKeys
import FsCache.Ipc
import FsCache.Discovery
import FsCache.Armed
import FsCache.Conserved
import FsCache.Attribution
import FsCache.Readdir
import FsCache.Gauges
import FsCache.EvictPass
import FsCache.EvictFits
import FsCache.Startup
import FsCache.CopyEffect
import FsCache.NoAbort
import FsCache.Verdict
import FsCache.Snapshot
import FsCache.Refresh
import FsCache.Usage
import FsCache.Attr
import FsCache.Fifo
import FsCache.Ttl
import FsCache.Prediction
import FsCache.Seasons
import FsCache.Coverage
import FsCache.Tags
import FsCache.Prefetch
import FsCache.PullEvent
import FsCache.TopProcesses
import FsCache.Checked
import FsCache.InodeOps
import FsCache.Lib.Broadcast
import FsCache.IpcStream
import FsCache.Instances
import FsCache.Playback
import FsCache.Reader
import FsCache.Maintenance
import FsCache.Lib.Rank
import FsCache.Rest
import FsCache.Delivery
import FsCache.Lib.Schema
import FsCache.Migration
import FsCache.ProcessFilter
import FsCache.Retention
import FsCache.Recency
import FsCache.Tui
