import CS162.Basis.BitFields
import CS162.Basis.Blocks
import CS162.Basis.Buckets
import CS162.Basis.ByteMemory
import CS162.Basis.Bytes
import CS162.Basis.Calls
import CS162.Basis.Coalescing
import CS162.Basis.Copy
import CS162.Basis.Descriptors
import CS162.Basis.Extents
import CS162.Basis.FileTree
import CS162.Basis.Frequencies
import CS162.Basis.Grouping
import CS162.Basis.HeapOrder
import CS162.Basis.Links
import CS162.Basis.Lookups
import CS162.Basis.MaximalRuns
import CS162.Basis.Numerals
import CS162.Basis.Pointers
import CS162.Basis.Program
import CS162.Basis.RefCount
import CS162.Basis.RingBuffer
import CS162.Basis.Runs
import CS162.Basis.SecondChance
import CS162.Basis.Sinks
import CS162.Basis.SlotTable
import CS162.Basis.StableSort
import CS162.Basis.Strings
import CS162.Basis.TableTree
import CS162.Basis.Tally
import CS162.Basis.Threads
import CS162.Basis.Trails
import CS162.Basis.UnixPath
import CS162.Basis.Utf8
import CS162.Basis.WriteBack
import CS162.Devices.Intq
import CS162.Devices.Partition
import CS162.Filesys.Bitmap
import CS162.Filesys.BlockMap
import CS162.Filesys.BlockMapRuns
import CS162.Filesys.BufferCache
import CS162.Filesys.BufferCacheContent
import CS162.Filesys.BufferCacheRuns
import CS162.Filesys.Built
import CS162.Filesys.CacheThreads
import CS162.Filesys.CacheThreadsLost
import CS162.Filesys.CacheThreadsSafe
import CS162.Filesys.CacheThreadsUpdates
import CS162.Filesys.Chdir
import CS162.Filesys.ChdirWalk
import CS162.Filesys.Clock
import CS162.Filesys.CreateTrace
import CS162.Filesys.Directory
import CS162.Filesys.DirectoryMap
import CS162.Filesys.FailedGrowth
import CS162.Filesys.FileLife
import CS162.Filesys.Files
import CS162.Filesys.FilesBytes
import CS162.Filesys.Format
import CS162.Filesys.Frame
import CS162.Filesys.FreeMap
import CS162.Filesys.Fsutil
import CS162.Filesys.Gaps
import CS162.Filesys.Index
import CS162.Filesys.IndexFree
import CS162.Filesys.IndexGrow
import CS162.Filesys.IndexSuccess
import CS162.Filesys.Inode
import CS162.Filesys.InodeBytes
import CS162.Filesys.InodeDisk
import CS162.Filesys.InodeGrow
import CS162.Filesys.InodeWrite
import CS162.Filesys.Mkdir
import CS162.Filesys.Mount
import CS162.Filesys.OpenFiles
import CS162.Filesys.OpenInodes
import CS162.Filesys.PathParts
import CS162.Filesys.Paths
import CS162.Filesys.Resolve
import CS162.Filesys.RootOpen
import CS162.Filesys.Sector
import CS162.Filesys.Shrinking
import CS162.Filesys.WriteLength
import CS162.Http.Listing
import CS162.Http.Request
import CS162.Http.Server
import CS162.HwMemory.HeapStart
import CS162.HwMemory.MmAlloc
import CS162.HwMemory.MmAllocRuns
import CS162.HwMemory.MmBlocks
import CS162.HwMemory.MmCoalesce
import CS162.HwMemory.MmList
import CS162.HwMemory.MmMalloc
import CS162.HwMemory.MmReuse
import CS162.HwMemory.MmTotals
import CS162.HwMemory.Sbrk
import CS162.HwMemory.SbrkBounds
import CS162.HwMemory.SbrkRuns
import CS162.HwMemory.Syscall
import CS162.Lib.Arithmetic
import CS162.Lib.KernelHash
import CS162.Lib.KernelList
import CS162.Lib.LinkedList
import CS162.Lib.ListSort
import CS162.Lib.SortStability
import CS162.Lib.Stdlib
import CS162.Lib.Ustar
import CS162.MapReduce.Codec
import CS162.MapReduce.Counting
import CS162.MapReduce.Grep
import CS162.MapReduce.Outputs
import CS162.MapReduce.Postprocess
import CS162.MapReduce.Results
import CS162.MapReduce.Worker
import CS162.Paging.Boot
import CS162.Paging.Calls
import CS162.Paging.Directories
import CS162.Paging.Pagedir
import CS162.Paging.Pools
import CS162.Paging.Pte
import CS162.Paging.Runs
import CS162.Paging.Spaces
import CS162.Pregame.Inode
import CS162.Shell.PipeDescriptors
import CS162.Shell.PipeParsing
import CS162.Shell.Pipelines
import CS162.Shell.Scanning
import CS162.Shell.Tokenizer
import CS162.Threads.Alarm
import CS162.Threads.ArenaCalls
import CS162.Threads.Arenas
import CS162.Threads.CondSignal
import CS162.Threads.Donation
import CS162.Threads.DonationChain
import CS162.Threads.Effects
import CS162.Threads.FixedPoint
import CS162.Threads.LockRuns
import CS162.Threads.Locks
import CS162.Threads.Malloc
import CS162.Threads.MallocRuns
import CS162.Threads.MallocSizes
import CS162.Threads.Palloc
import CS162.Threads.Preemption
import CS162.Threads.Queues
import CS162.Threads.ReadyQueue
import CS162.Threads.Regions
import CS162.Threads.RwLock
import CS162.Threads.RwSignals
import CS162.Threads.Semaphore
import CS162.Threads.Thread
import CS162.Threads.Waking
import CS162.Userprog.CmdLine
import CS162.Userprog.CopyInString
import CS162.Userprog.FileCalls
import CS162.Userprog.FileRuns
import CS162.Userprog.Joins
import CS162.Userprog.LockHolders
import CS162.Userprog.PagedWrite
import CS162.Userprog.ProcessWait
import CS162.Userprog.Segments
import CS162.Userprog.StartFailure
import CS162.Userprog.SysOpen
import CS162.Userprog.Syscall
import CS162.Userprog.ThreadList
import CS162.Userprog.ThreadStacks
import CS162.Userprog.Tokens
import CS162.Userprog.UserLocks
import CS162.Userprog.Vaddr
import CS162.Userprog.WaitStatus
import CS162.Userprog.WorkDirs
import CS162.Words.AddWord
import CS162.Words.Pwords
import CS162.Words.SharedList
import CS162.Words.WordCount
