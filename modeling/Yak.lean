import Yak.Halt
import Yak.LinkedRing
import Yak.LinkedList
import Yak.Process
import Yak.ProcessQueues
import Yak.Schedule
import Yak.ProcessEdits
import Yak.QueueInvariant
import Yak.Interrupts
import Yak.DeadProcesses
import Yak.JobControl
import Yak.ForkReturn
import Yak.Reaping
import Yak.MutexExclusion
import Yak.Buffer
import Yak.BufferLists
import Yak.BufferInvariant
import Yak.BufferTransparency
import Yak.FreshBlocks
import Yak.BufferNesting
import Yak.BufferDummy
import Yak.Inode
import Yak.InodeInvariant
import Yak.InodeLocks
import Yak.Files
import Yak.DescriptorBounds
import Yak.CloseOnExec
import Yak.OpenFiles
import Yak.Bitmap
import Yak.Ext2
import Yak.BlockBitmap
import Yak.InodeBitmap
import Yak.Bmap
import Yak.BlockSearch
import Yak.FileBlocks
import Yak.BlockPaths
import Yak.BlockLookup
import Yak.FilePositions
import Yak.PathCalls
import Yak.NameMoves
import Yak.DirLookups
import Yak.Renames
import Yak.BlockDevice
import Yak.LastReference
import Yak.FileStore
import Yak.SuperOnDisk
import Yak.Mounting
import Yak.InodeTable
import Yak.TruncationCalls
import Yak.DirRemove
import Yak.DirEmpty
import Yak.DirSearch
import Yak.DirGrowth
import Yak.SymlinkCycles
import Yak.Access
import Yak.CreatedFiles
import Yak.AddressSpace
import Yak.Console
import Yak.Keyboard
import Yak.Tty
import Yak.TtyInput
import Yak.Uart
import Yak.ConsoleSafety
import Yak.ConsoleCursor
import Yak.ConsoleLines
import Yak.Redraw
import Yak.ConsoleChunks
import Yak.PlainText
import Yak.ConsoleQueue
import Yak.CopyOnWrite
import Yak.Kvmalloc
import Yak.KvmallocList
import Yak.KvmallocSafety
import Yak.ArgumentBlock
import Yak.MemoryIsolation
import Yak.FaultHandler
import Yak.KernelPages
import Yak.ChunkCoverage
import Yak.KvmallocOrder
import Yak.Exec
import Yak.FrameCounts
import Yak.PageExclusive
import Yak.FrameRelease
import Yak.UsableMemory
import Yak.Partitions
import Yak.AtaPio
import Yak.AtaQueue
import Yak.ProcessIdentity
import Yak.Sessions
import Yak.Parents
import Yak.Credentials
import Yak.KillTargets
import Yak.WaitDecision
import Yak.QueueOrder
import Yak.Alarms
import Yak.Bystanders
import Yak.SignalLoop
import Yak.Pauses
import Yak.NewSpace
import Yak.Loader
import Yak.LoaderRuns
import Yak.SegmentContents
import Yak.Reproduction
import Yak.ImageRecord
import Yak.Calendar
import Yak.PosixTime
import Yak.Cmos
import Yak.Stdio
import Yak.ConsoleChars
import Yak.ConsoleColors
import Yak.AtaTaskFile
import Yak.AtaRetries
import Yak.TtyWrites
import Yak.TtyDelivery
import Yak.TtyLines
import Yak.BufferDurability
import Yak.MachineMemory
import Yak.Machine32
import Yak.ContextSwitch
import Yak.SyscallEntry
import Yak.UserEntry
import Yak.ForkFrame
