import CxxFiber.EFiberBlocker.Permits
import CxxFiber.EFiberChannel
import CxxFiber.Scheduler.RunQueue
import CxxFiber.Scheduler.Yield
import CxxFiber.Scheduler.Mutex
import CxxFiber.Scheduler.IdleWorker
import CxxFiber.EIoWaiter.Epoll
import CxxFiber.EIoWaiter.Timers
import CxxFiber.EHooker.Timeout
import CxxFiber.EHooker.Orphan
import CxxFiber.EHooker.Records
import CxxFiber.EFiberCondition.Release
import CxxFiber.EFiberConcurrentQueue.Recycling
import CxxFiber.Scheduler.Join.EndOfWork
import CxxFiber.Scheduler.Join.Counter
import CxxFiber.Scheduler.Join.Exit
import CxxFiber.Scheduler.Affinity
import CxxFiber.Scheduler.Rounds
import CxxFiber.EHooker.Duplicates
import CxxFiber.EFiberLocal
import CxxFiber.Scheduler.Join.Sleepers
import CxxFiber.Scheduler.Join.Interrupt
import CxxFiber.EcoAe.LongSleep
import CxxFiber.EHooker.CommIo
import CxxFiber.EHooker.SelectSets
import CxxFiber.EFileContext.Slots
import CxxFiber.Scheduler.RoundRobin
import CxxFiber.EHooker.Sendfile
import CxxFiber.Scheduler.Change
import CxxFiber.Scheduler.TimedWait
import CxxFiber.EFileContext.Manager
import CxxFiber.EFileContext.Unwinding
import CxxFiber.EFileContext.Mapping
import CxxFiber.EHooker.Errors
import CxxFiber.Scheduler.Resumption
import CxxFiber.EFiberBlocker.WaitQueue
import CxxFiber.EFiberTimer
import CxxFiber.EFiberLocal.Destruction
import CxxFiber.EHooker.Budget
import CxxFiber.EHooker.Sleeps
import CxxFiber.EHooker.SocketTimeouts
import CxxFiber.EHooker.EpollWait
import CxxFiber.EHooker.Stdio
import CxxFiber.EHooker.SendfileMac
import CxxFiber.EHooker.Signals
import CxxFiber.ElfHook.Rebinding
import CxxFiber.EHooker.Gethostbyname
import CxxFiber.Library.Coroutine
import CxxFiber.EContext
import CxxFiber.EContext.Model
import CxxFiber.EContext.Invariant
import CxxFiber.EContext.Switching
import CxxFiber.EFiberChannel.Progress
import CxxFiber.EHooker.Streams
import CxxFiber.EIoWaiter.Kqueue
import CxxFiber.Library.Patching
import CxxFiber.MachHook
import CxxFiber.Scheduler.InTurn
import CxxFiber.EcoAe.Table
import CxxFiber.Library.Monitor
import CxxFiber.Scheduler.Callbacks
import CxxFiber.Scheduler.Progress
import CxxFiber.Library.Critical
import CxxFiber.Scheduler.CriticalSections
import CxxFiber.Scheduler.Overtaking
import CxxFiber.Library.Executions
import CxxFiber.Scheduler.Liveness
import CxxFiber.Scheduler.Join.Liveness
import CxxFiber.Scheduler.Join.Interrupted
