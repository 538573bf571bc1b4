import Ucore.Panic
import Ucore.Errors
import Ucore.LinkRing
import Ucore.ListHeader
import Ucore.Extents
import Ucore.DefaultPmm
import Ucore.DefaultPmmInvariant
import Ucore.DefaultPmmSteps
import Ucore.DefaultPmmRuns
import Ucore.BestFitPmm
import Ucore.BestFitPmmRuns
import Ucore.FreeListFits
import Ucore.SecondChance
import Ucore.CyclicTurns
import Ucore.SwapClock
import Ucore.SwapClockRuns
import Ucore.RingBuffer
import Ucore.Stdin
import Ucore.StdinRuns
import Ucore.ByteBuffer
import Ucore.CStrings
import Ucore.BlockBitmap
import Ucore.KernelRoutine
import Ucore.Triples
import Ucore.SfsDisk
import Ucore.SfsMount
import Ucore.Mksfs
import Ucore.MksfsLayout
import Ucore.MksfsTables
import Ucore.MksfsAppend
import Ucore.WriteLog
import Ucore.MksfsImage
import Ucore.MksfsFreemap
import Ucore.SfsBlockMap
import Ucore.SfsIo
import Ucore.SfsIoPhases
import Ucore.Ownership
import Ucore.SiblingChain
import Ucore.Interleaving
import Ucore.Hash
import Ucore.Segments
import Ucore.SfsInodeCache
import Ucore.SfsInodeCacheRuns
import Ucore.Processes
import Ucore.ProcessTree
import Ucore.ProcessPids
import Ucore.ProcessWaits
import Ucore.SfsOwnership
import Ucore.SfsFileViews
import Ucore.SfsDirent
import Ucore.MksfsDirent
import Ucore.MksfsBlockMap
import Ucore.SfsBlockMapGrow
import Ucore.SfsBlockMapShrink
import Ucore.Splice
import Ucore.SfsIoRefinement
import Ucore.SfsRuns
import Ucore.SfsSettled
import Ucore.SfsSync
import Ucore.SfsReachable
import Ucore.VfsFiles
import Ucore.SysFiles
import Ucore.SysFileCalls
import Ucore.SysFileWrites
import Ucore.SysFileRuns
import Ucore.SysFileTransfers
import Ucore.FdTable
import Ucore.FdTableRuns
import Ucore.VfsReferences
import Ucore.VfsPaths
import Ucore.VfsReadOnly
import Ucore.PidRuns
import Ucore.SfsDirtyInode
import Ucore.SfsCapacity
import Ucore.SfsGaps
import Ucore.SfsTransfers
import Ucore.SfsRegrowth
import Ucore.SfsAllocErrors
import Ucore.SfsTruncAtomic
import Ucore.SfsGetdirentry
import Ucore.VfsLookup
import Ucore.SfsNamefileRuns
import Ucore.LockedCalls
import Ucore.SfsConcurrentIo
import Ucore.Monitors
import Ucore.SemaphoreUnits
import Ucore.PhilosophersCondvar
import Ucore.PageCounts
import Ucore.ForkedSpaces
import Ucore.RunQueueRuns
import Ucore.SkewHeapRuns
import Ucore.TimerListRuns
import Ucore.StrideRounds
import Ucore.StrideOrder
import Ucore.SwapQueues
import Ucore.SwapContents
import Ucore.KmallocRuns
import Ucore.Exec
import Ucore.UserMemory
import Ucore.UserStrings
import Ucore.MmMap
import Ucore.FaultEntries
import Ucore.AllocPages
import Ucore.KmallocSizes
import Ucore.FreshPages
import Ucore.MksfsCache
import Ucore.BlockBitmapRuns
import Ucore.RoundRobin
import Ucore.Disk0
import Ucore.Strtol
import Ucore.Printfmt
import Ucore.PrintfmtScan
import Ucore.Vsnprintf
import Ucore.NumberFormats
import Ucore.Shell
import Ucore.ShellTokens
import Ucore.ShellTexts
import Ucore.ReferenceCounts
import Ucore.ProcessResources
import Ucore.FdTableFrames
import Ucore.ResourceInvariant
import Ucore.ResourceSteps
import Ucore.ResourceRoutines
import Ucore.ResourceRuns
import Ucore.SafeRoutines
import Ucore.ResourceSafety
import Ucore.StableResources
import Ucore.AddressSpaceOwners
import Ucore.OpenFileOwners
import Ucore.MksfsOwners
import Ucore.MksfsCatalog
import Ucore.MksfsTrees
import Ucore.MksfsTreeRuns
import Ucore.MksfsTreeImage
