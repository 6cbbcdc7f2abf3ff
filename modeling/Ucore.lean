import Ucore.Libs.List
import Ucore.Libs.Assert
import Ucore.Lib.Extents
import Ucore.Lib.Run
import Ucore.Mm.FirstFitRuns
import Ucore.Mm.BestFitPmm
import Ucore.Mm.BestFit
import Ucore.Mm.Mmu
import Ucore.Mm.Pmm
import Ucore.Lib.Tally
import Ucore.Lib.Counts
import Ucore.Mm.PageTables
import Ucore.Mm.PageRefs
import Ucore.Mm.Unmap
import Ucore.Mm.CopyRange
import Ucore.Mm.Cow
import Ucore.Process.LoadImage
import Ucore.Process.OldMemory
import Ucore.Libs.Loop
import Ucore.Mm.RefCounts
import Ucore.Mm.Vmm
import Ucore.Mm.PageFault
import Ucore.Mm.VmaList
import Ucore.Mm.FaultContract
import Ucore.Lib.Sweep
import Ucore.Mm.Prune
import Ucore.Mm.ExitRange
import Ucore.Mm.ExitMmap
import Ucore.Mm.TearDown
import Ucore.Lib.Deltas
import Ucore.Schedule.Sched
import Ucore.Schedule.TimerList
import Ucore.Schedule.TimerCalls
import Ucore.Schedule.TimerRuns
import Ucore.Sync.Sem
import Ucore.Sync.SemRuns
import Ucore.Lib.Semaphore
import Ucore.Sync.CheckSync
import Ucore.Sync.Philosophers
import Ucore.Mm.BuddyPmm
import Ucore.Mm.BuddyBlocks
import Ucore.Mm.BuddyRuns
import Ucore.Mm.BuddyInit
import Ucore.Lib.Program
import Ucore.Lib.Bytes
import Ucore.Fs.Error
import Ucore.Fs.Bitmaps
import Ucore.Fs.Sfs
import Ucore.Fs.SfsIo
import Ucore.Fs.SfsInode
import Ucore.Fs.Ownership
import Ucore.Fs.BlockSpecs
import Ucore.Fs.BmapSpecs
import Ucore.Fs.Truncfile
import Ucore.Fs.OwnershipRuns
import Ucore.Fs.AllocErrors
import Ucore.Fs.TruncRuns
import Ucore.Fs.WriteBack
import Ucore.Fs.FileRange
import Ucore.Mm.SwapLru
import Ucore.Mm.SwapClock
import Ucore.Mm.Swap
import Ucore.Mm.SwapFault
import Ucore.Mm.SwapPressure
import Ucore.Schedule.RunLinks
import Ucore.Schedule.RunQueueRuns
import Ucore.Lib.RingBuffer
import Ucore.Fs.DevStdin
import Ucore.Fs.Descriptors
import Ucore.Lib.Locking
import Ucore.Fs.SfsLocks
import Ucore.Fs.LockOrder
import Ucore.Lib.Monitor
import Ucore.Fs.Disk0
import Ucore.Fs.BlockIo
import Ucore.Lib.Rounds
import Ucore.Schedule.ProcList
import Ucore.Process.GetPid
import Ucore.Process.OpenFiles
import Ucore.Lib.Memory
import Ucore.Lib.Cycle
import Ucore.Mm.Kmalloc
import Ucore.Mm.SlobHeap
import Ucore.Mm.KmallocHeap
import Ucore.Mm.KmallocSizes
import Ucore.Mm.CopyString
import Ucore.Mm.Slub
import Ucore.Mm.SlubRuns
import Ucore.Fs.InodeCalls
import Ucore.Fs.SfsMount
import Ucore.Fs.Volumes
import Ucore.Fs.Directory
import Ucore.Fs.Iobuf
import Ucore.Fs.Getdirentry
import Ucore.Fs.Namefile
import Ucore.Fs.Syncing
import Ucore.Fs.SyncRuns
import Ucore.Fs.SysfileRead
import Ucore.User.Shell
import Ucore.Schedule.Stride
import Ucore.Fs.BitmapRuns
import Ucore.Fs.BitmapHeap
import Ucore.Tools.Mksfs
import Ucore.Libs.Printfmt
import Ucore.Libs.Vprintfmt
import Ucore.Libs.Vsnprintf
import Ucore.Libs.Strtol
import Ucore.Libs.PrintedNumbers
import Ucore.Lib.Siblings
import Ucore.Process.Family
import Ucore.Process.ProcTable
import Ucore.Process.FamilyRuns
import Ucore.Mm.KmallocRuns
import Ucore.Fs.Mounting
import Ucore.Lib.Outcome
import Ucore.Tools.MksfsBlocks
import Ucore.Tools.MksfsClose
import Ucore.Tools.MksfsLookup
