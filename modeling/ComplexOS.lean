import ComplexOS.Heap.HeapRuns
import ComplexOS.Kernel.SemaphoreRuns
import ComplexOS.Kernel.TimerRuns
import ComplexOS.Ipc.ChannelRuns
import ComplexOS.Ipc.PipeRuns
import ComplexOS.Scheduler.RunQueueRuns
import ComplexOS.Scheduler.Selection
import ComplexOS.Library.WaitQueues
import ComplexOS.Kernel.Kill
import ComplexOS.Kernel.System
import ComplexOS.Kernel.Commands
import ComplexOS.Kernel.WakeUps
import ComplexOS.Kernel.MutexTable
import ComplexOS.Kernel.MutexTableRuns
import ComplexOS.Kernel.FreshMutex
import ComplexOS.Library.Calls
import ComplexOS.Kernel.Registry
import ComplexOS.Kernel.RegistryCalls
import ComplexOS.Kernel.Boot
import ComplexOS.Kernel.TableCalls
import ComplexOS.Kernel.Pools
import ComplexOS.Kernel.InternalLocks
import ComplexOS.Library.Directory
import ComplexOS.Kernel.Names
import ComplexOS.Kernel.NamedRuns
import ComplexOS.Kernel.SemaphoreNames
import ComplexOS.Kernel.NamedRegistry
import ComplexOS.Kernel.FreshSemaphore
import ComplexOS.Kernel.Reachable
import ComplexOS.Kernel.LockBalance
import ComplexOS.Ipc.ChannelCalls
import ComplexOS.Ipc.ChannelLocks
import ComplexOS.Kernel.KillCalls
import ComplexOS.Scheduler.ProcessCalls
import ComplexOS.Scheduler.ProcessTable
import ComplexOS.Scheduler.SessionCalls
import ComplexOS.Scheduler.ForegroundRuns
import ComplexOS.Kernel.SelfDeadlock
import ComplexOS.Hashing.Distribution
import ComplexOS.Hashing.DistributionRuns
import ComplexOS.Hashing.Framing
import ComplexOS.Hashing.ResultView
import ComplexOS.Hashing.ResultViewRuns
import ComplexOS.Kernel.MutexLayout
import ComplexOS.Ipc.ChannelFlow
import ComplexOS.Kernel.ListCalls
import ComplexOS.Ipc.FlowControl
import ComplexOS.Ipc.ChannelRemoval
import ComplexOS.Ipc.PipeTable
import ComplexOS.Scheduler.ArgumentCopies
import ComplexOS.Scheduler.ProcessCreation
import ComplexOS.Scheduler.CreationRuns
import ComplexOS.Heap.Ownership
import ComplexOS.Scheduler.ProcessLifetime
import ComplexOS.Terminal.KeyboardBuffer
import ComplexOS.Terminal.LineDiscipline
import ComplexOS.Scheduler.ThreadRing
import ComplexOS.Scheduler.ProcessTree
import ComplexOS.Library.ByteMemory
import ComplexOS.Modules.ModuleImage
import ComplexOS.Heap.FirstFit
import ComplexOS.Heap.HeapEntries
import ComplexOS.Heap.RequestedSize
import ComplexOS.Kernel.MutexPrograms
import ComplexOS.Kernel.SemaphoreRelease
import ComplexOS.Kernel.ThreadSweep
import ComplexOS.Kernel.FullLists
import ComplexOS.Ipc.PipeBounds
import ComplexOS.Kernel.SleepList
import ComplexOS.Terminal.BufferSize
import ComplexOS.Scheduler.ThreadWalks
import ComplexOS.Terminal.Screen
import ComplexOS.Terminal.Insertion
import ComplexOS.Terminal.Deletion
import ComplexOS.Terminal.ScreenBounds
import ComplexOS.Modules.MemoryCopy
import ComplexOS.Ipc.Receiving
import ComplexOS.Scheduler.CallerBuffer
import ComplexOS.Scheduler.ProcessListing
import ComplexOS.Heap.Reallocation
import ComplexOS.Scheduler.SwitchEntries
import ComplexOS.Kernel.ThreadRecords
import ComplexOS.Kernel.RealTimeClock
import ComplexOS.Terminal.ScreenCopy
import ComplexOS.Scheduler.NumberText
import ComplexOS.Userland.IntegerText
import ComplexOS.Userland.Scanning
import ComplexOS.Userland.LineReading
import ComplexOS.Userland.Shell
import ComplexOS.Userland.Snek
import ComplexOS.Ipc.ChannelNames
import ComplexOS.Kernel.KillCleanup
import ComplexOS.Scheduler.Starvation
import ComplexOS.Heap.AbstractAllocator
import ComplexOS.Kernel.ObjectRuns
import ComplexOS.Userland.ProdConsProgress
import ComplexOS.Bootloader.BmfsStore
import ComplexOS.Terminal.KeyboardDriver
import ComplexOS.Terminal.Typing
import ComplexOS.Terminal.TypedText
import ComplexOS.Terminal.Echo
import ComplexOS.Ipc.PipeTransfer
