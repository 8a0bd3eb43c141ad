import NetPool.Lib.System
import NetPool.Io.Registry
import NetPool.Io.Call
import NetPool.Io.Net
import NetPool.Io.Life
import NetPool.Io.Sweep
import NetPool.Lib.List
import NetPool.Io.Jobs
import NetPool.Io.Lookup
import NetPool.Io.Bookkeeping
import NetPool.Io.Loop
import NetPool.Io.Pointers
import NetPool.Lib.Ledger
import NetPool.Lib.Pipe
import NetPool.Recv.Buffer
import NetPool.Recv.Writer
import NetPool.Recv.Stream
import NetPool.Recv.Nodes
import NetPool.Io.Found
import NetPool.Recv.NetRecv
import NetPool.Recv.Free
import NetPool.Recv.Wakeup
import NetPool.Recv.Connect
import NetPool.Lib.Stock
import NetPool.Util.MemPool
import NetPool.Lib.Links
import NetPool.Util.Squeue
import NetPool.Lib.Block
import NetPool.Util.IpRange
import NetPool.Util.IpParse
import NetPool.Lib.Ring
import NetPool.Log.LogQueue
import NetPool.Log.Files
import NetPool.Log.Logger
import NetPool.Time.TimeJob
import NetPool.Pool.NetPoll
import NetPool.Pool.ThreadPool
import NetPool.Pool.Tasks
import NetPool.Pool.Terminate
import NetPool.Pool.Loops
import NetPool.Pool.Bounds
import NetPool.Pool.ExitRequest
import NetPool.Pool.Thread
import NetPool.Io.Failure
import NetPool.Io.FreeFunc
import NetPool.Recv.NoBuffer
import NetPool.Lib.Pump
import NetPool.Io.Handlers
import NetPool.Time.Walk
import NetPool.Lib.Worklist
import NetPool.Time.Ends
import NetPool.Lib.Mutex
import NetPool.Time.ListLock
import NetPool.Io.EpollFds
import NetPool.Io.Windows
import NetPool.Io.Serving
import NetPool.Io.Silence
import NetPool.Io.WriteEntries
import NetPool.Io.WriteOnce
import NetPool.Util.OrderedRange
import NetPool.Util.ShortForm
import NetPool.Util.Ports
import NetPool.Util.RangeLists
import NetPool.Util.MemLayout
import NetPool.Lib.Wait
import NetPool.Sync.Locks
import NetPool.Sync.Nesting
import NetPool.Sync.Deadlock
import NetPool.Lib.Scan
import NetPool.Util.CString
import NetPool.Util.Search
import NetPool.Util.ListHead
import NetPool.Util.MemObj
import NetPool.Util.RandStr
import NetPool.Lib.Transfer
import NetPool.Log.LogText
import NetPool.Sock.Timeout
import NetPool.Sock.Line
import NetPool.Sock.SendLine
import NetPool.Sock.Setup
import NetPool.Lib.Rotation
import NetPool.Log.Rotation
import NetPool.Log.SyncLog
import NetPool.Lib.Conduit
import NetPool.Recv.Link
import NetPool.Lib.Circle
import NetPool.Util.ListOps
import NetPool.Io.Builds
import NetPool.Io.Shares
import NetPool.Pool.Order
import NetPool.Pool.Cores
import NetPool.Lib.Fields
import NetPool.Util.IpText
import NetPool.Io.Acceptor
import NetPool.Io.Accepts
