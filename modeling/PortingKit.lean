import PortingKit.Lib.Runs
import PortingKit.Lib.Ring
import PortingKit.Lib.Prog
import PortingKit.Lib.Loop
import PortingKit.Lib.Cells
import PortingKit.Lib.Waiting
import PortingKit.Lib.Drain
import PortingKit.Lib.LazyInit
import PortingKit.Linux.Kernel
import PortingKit.Linux.List
import PortingKit.Linux.ListRefine
import PortingKit.Linux.ListLoops
import PortingKit.Linux.ListQueue
import PortingKit.Linux.Kref
import PortingKit.Linux.AtomicOps
import PortingKit.Linux.Wait
import PortingKit.Linux.WaitLock
import PortingKit.Linux.Workqueue
import PortingKit.Linux.WorkItem
import PortingKit.Linux.Timer
import PortingKit.Linux.TimerLife
import PortingKit.Linux.SystemWide
import PortingKit.Linux.PerUnit
import PortingKit.Linux.UnitFlush
import PortingKit.Linux.NestedFlush
import PortingKit.Linux.WorkCalls
import PortingKit.Linux.WorkRaces
import PortingKit.Linux.WorkSystem
import PortingKit.Linux.PortMem
import PortingKit.Linux.Blocks
import PortingKit.Linux.KrefObject
import PortingKit.Linux.Err
import PortingKit.Core.Locks
import PortingKit.Core.LockCode
import PortingKit.Core.LockObjects
import PortingKit.Driver.Shim
import PortingKit.Driver.ShimCalls
import PortingKit.Driver.NVIDIADriver
import PortingKit.Driver.Paths
import PortingKit.Driver.Lifecycle
import PortingKit.Driver.Service
import PortingKit.Driver.Pool
import PortingKit.Driver.Library
import PortingKit.Driver.Isolation
import PortingKit.Driver.UserClient
import PortingKit.Driver.TestClient
import PortingKit.Driver.Object
