import KosKernel.Dev.DeviceUnloadLoop
import KosKernel.Dev.DevnsAllocFail
import KosKernel.Dev.DiskPartConfined
import KosKernel.Fs.AtomicIobufferFifo
import KosKernel.Fs.FdTable
import KosKernel.Fs.FileLockCounts
import KosKernel.Fs.IobufferUndo
import KosKernel.Fs.PathWalkConfined
import KosKernel.Fs.PtyLines
import KosKernel.Fs.PtyOutput
import KosKernel.Hybrid.ATreeLevels
import KosKernel.Hybrid.OwnerRwlockRuns
import KosKernel.Libc.Fuzzy
import KosKernel.Libc.PrintBuffer
import KosKernel.Libc.Quote
import KosKernel.Libc.Time
import KosKernel.Libc.UnicodeChunks
import KosKernel.Linker.ElfSymaddr
import KosKernel.Linker.Execve
import KosKernel.Memory.MemUnpreserveExact
import KosKernel.Memory.PageBalance
import KosKernel.Memory.ReallocContract
import KosKernel.Memory.ScatterSizes
import KosKernel.Mman.BranchLock
import KosKernel.Mman.BranchMove
import KosKernel.Mman.Futex
import KosKernel.Mman.PartLocks
import KosKernel.Sched.DelayedWork
import KosKernel.Sched.JobLists
import KosKernel.Sched.KillGroup
import KosKernel.Sched.Orphans
import KosKernel.Sched.Rotate
import KosKernel.Sched.SigPending
import KosKernel.Sched.WaitQueue
