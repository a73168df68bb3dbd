import PthreadWorkqueue.Concurrency.Machine
import PthreadWorkqueue.Concurrency.Counting
import PthreadWorkqueue.Concurrency.Acts
import PthreadWorkqueue.Concurrency.Simulation
import PthreadWorkqueue.Concurrency.Service
import PthreadWorkqueue.Concurrency.ReaderWriter
import PthreadWorkqueue.Memory.Linked
import PthreadWorkqueue.Memory.TailQueue
import PthreadWorkqueue.Memory.Stailq
import PthreadWorkqueue.Words.Division
import PthreadWorkqueue.Text.CString
import PthreadWorkqueue.Posix.State
import PthreadWorkqueue.Posix.Threads
import PthreadWorkqueue.Posix.Api
import PthreadWorkqueue.Posix.Worker
import PthreadWorkqueue.Posix.Manager
import PthreadWorkqueue.Posix.Program
import PthreadWorkqueue.Posix.CallSteps
import PthreadWorkqueue.Posix.WorkerSteps
import PthreadWorkqueue.Posix.ManagerSteps
import PthreadWorkqueue.Posix.Locks
import PthreadWorkqueue.Posix.LockOrder
import PthreadWorkqueue.Posix.Registry
import PthreadWorkqueue.Posix.Mask
import PthreadWorkqueue.Posix.Scoreboard
import PthreadWorkqueue.Posix.Items
import PthreadWorkqueue.Posix.OvercommitMask
import PthreadWorkqueue.Posix.Overcommit
import PthreadWorkqueue.Posix.Lifecycle
import PthreadWorkqueue.Posix.Order
import PthreadWorkqueue.Posix.Wakeup
import PthreadWorkqueue.Posix.ExitMarkers
import PthreadWorkqueue.Posix.RampDown
import PthreadWorkqueue.Posix.Surplus
import PthreadWorkqueue.Posix.TimerTick
import PthreadWorkqueue.Posix.IdlePool
import PthreadWorkqueue.Posix.Convergence
import PthreadWorkqueue.Posix.Ceiling
import PthreadWorkqueue.Posix.Peek
import PthreadWorkqueue.Posix.Suspend
import PthreadWorkqueue.Posix.Dangling
import PthreadWorkqueue.Posix.Creation
import PthreadWorkqueue.Posix.Relocation
import PthreadWorkqueue.Posix.Fork
import PthreadWorkqueue.Posix.ScanOrder
import PthreadWorkqueue.Posix.Spinners
import PthreadWorkqueue.Posix.Hunt
import PthreadWorkqueue.Posix.Schedule
import PthreadWorkqueue.Posix.Progress
import PthreadWorkqueue.Posix.OvercommitProgress
import PthreadWorkqueue.Posix.Stranding
import PthreadWorkqueue.Posix.Transport
import PthreadWorkqueue.Posix.Relist
import PthreadWorkqueue.Posix.LinkedPool
import PthreadWorkqueue.Posix.Ownership
import PthreadWorkqueue.Posix.LinkedRefinement
import PthreadWorkqueue.Posix.LinkedTraces
import PthreadWorkqueue.Posix.Reuse
import PthreadWorkqueue.Posix.ReuseRefinement
import PthreadWorkqueue.Posix.ReuseItems
import PthreadWorkqueue.Linux.Load
import PthreadWorkqueue.Linux.ThreadInfo
import PthreadWorkqueue.Solaris.Load
import PthreadWorkqueue.Windows.Manager
import PthreadWorkqueue.Windows.Steps
import PthreadWorkqueue.Windows.Coverage
import PthreadWorkqueue.Windows.Service
import PthreadWorkqueue.Windows.SpinLocks
import PthreadWorkqueue.Windows.Rwlock
import PthreadWorkqueue.Windows.RwlockInvariant
import PthreadWorkqueue.Windows.RwlockProgress
import PthreadWorkqueue.Windows.RwlockRefinement
import PthreadWorkqueue.Windows.LinkedManager
import PthreadWorkqueue.Windows.LinkedRefinement
import PthreadWorkqueue.Windows.RwlockPool
import PthreadWorkqueue.Cache.Items
import PthreadWorkqueue.Cache.Steps
import PthreadWorkqueue.Cache.Chains
import PthreadWorkqueue.Cache.Calls
import PthreadWorkqueue.Cache.Blocks
import PthreadWorkqueue.Cache.Refinement
