import Akio.Lib.Outcome
import Akio.Lib.Alike
import Akio.Lib.Run
import Akio.Lib.Store
import Akio.Lib.Chain
import Akio.Lib.Sweep
import Akio.Linklist.Model
import Akio.Linklist.Shape
import Akio.Linklist.Ops
import Akio.Linklist.Refine
import Akio.Linklist.Move
import Akio.Linklist.Moved
import Akio.Lib.FullPeriod
import Akio.Lib.Mix
import Akio.Lib.OpenAddress
import Akio.Hashmap.Model
import Akio.Hashmap.Hash
import Akio.Hashmap.Probe
import Akio.Hashmap.Returns
import Akio.Hashmap.Table
import Akio.Hashmap.Resize
import Akio.Hashmap.Runs
import Akio.Hashmap.PutGet
import Akio.Hashmap.Tally
import Akio.Hashmap.Grow
import Akio.Hashmap.Seen
import Akio.Hashmap.Scan
import Akio.Hashmap.Keys
import Akio.Hashmap.Delete
import Akio.Hashmap.Ends
import Akio.Skiplist.Model
import Akio.Skiplist.Search
import Akio.Skiplist.Insert
import Akio.Skiplist.Delete
import Akio.Skiplist.Refine
import Akio.Skiplist.Undo
import Akio.Skiplist.Refused
import Akio.Skiplist.Release
import Akio.Skiplist.Level
import Akio.Lib.HeapOrder
import Akio.Timer.Model
import Akio.Timer.Sift
import Akio.Timer.Heap
import Akio.Timer.Runs
import Akio.Timer.Free
import Akio.Timer.Process
import Akio.Timer.Account
import Akio.Timer.Reach
import Akio.Timer.Order
import Akio.Timer.Shortest
import Akio.Timer.Refused
import Akio.Timer.Payload
import Akio.Timer.Plan
import Akio.Timer.Release
import Akio.Lib.Queue
import Akio.Lib.Block
import Akio.Buffer.Model
import Akio.Buffer.Pool
import Akio.Buffer.Shrink
import Akio.Buffer.Send
import Akio.Buffer.Recv
import Akio.Buffer.Runs
import Akio.Buffer.Drain
import Akio.Buffer.Prefix
import Akio.Buffer.Account
import Akio.Buffer.Release
import Akio.Buffer.Refused
import Akio.Lib.Bits
import Akio.Bitset.Model
import Akio.Bitset.Refine
import Akio.Bitset.Range
import Akio.Bitset.Count
import Akio.Lib.Filter
import Akio.Bloomfilter.Model
import Akio.Bloomfilter.Hash
import Akio.Bloomfilter.Refine
import Akio.Lib.Rounding
import Akio.Bloomfilter.New
import Akio.Bloomfilter.Capacity
import Akio.Event.Model
import Akio.Event.Registry
import Akio.Event.Poller
import Akio.Event.History
import Akio.Event.MaxFd
import Akio.Event.Interest
import Akio.Event.Poll
import Akio.Event.Select
import Akio.Event.Agree
import Akio.Event.Bounds
import Akio.Event.Granted
import Akio.Loop.Model
import Akio.Loop.Refine
import Akio.Loop.Runs
import Akio.Loop.Stop
import Akio.Loop.Keeps
import Akio.Loop.Only
import Akio.Loop.Release
import Akio.Demo.Model
import Akio.Demo.Echo
import Akio.Demo.Turn
import Akio.Lib.Ledger
import Akio.Socket.Model
import Akio.Socket.Leaks
import Akio.Socket.Options
import Akio.Socket.Fallback
import Akio.Server.Model
import Akio.Server.Accept
import Akio.Server.Registry
import Akio.Server.Callbacks
import Akio.Server.Up
import Akio.Server.Main
import Akio.Server.Runs
import Akio.Server.Safety
import Akio.Server.Pending
import Akio.Server.Totals
import Akio.Server.Memory
import Akio.Server.Wakes
import Akio.Server.Deaf
