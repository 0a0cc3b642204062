import JamsOs.Words
import JamsOs.Chain
import JamsOs.Runs
import JamsOs.Frames
import JamsOs.FramePool
import JamsOs.RadixTree
import JamsOs.VPages
import JamsOs.PageTrees
import JamsOs.Teardown
import JamsOs.Fork
import JamsOs.PageEdits
import JamsOs.AddressSpaces
import JamsOs.SpaceIsolation
import JamsOs.KernelHalf
import JamsOs.Elf64
import JamsOs.LoaderIsolation
import JamsOs.FaultSteps
import JamsOs.PreemptedFaults
import JamsOs.RoundRobin
import JamsOs.RunRing
import JamsOs.Multitask
import JamsOs.ProcessSyscalls
import JamsOs.KernelLists
import JamsOs.KernelBooks
import JamsOs.KernelExit
import JamsOs.KernelBirth
import JamsOs.KernelMoves
import JamsOs.KernelSteps
import JamsOs.KernelRuns
import JamsOs.SchedulerState
import JamsOs.QuietMoves
import JamsOs.Wakeups
import JamsOs.ProcessTree
import JamsOs.Guarded
import JamsOs.MutexProtocol
import JamsOs.MutexOwners
import JamsOs.Assignment
import JamsOs.SpaceLifecycle
import JamsOs.KeyPresses
import JamsOs.UserPointers
import JamsOs.Multiboot
import JamsOs.BootMemory
import JamsOs.Spans
import JamsOs.Kmalloc
import JamsOs.HeapIntegrity
import JamsOs.Ext2
import JamsOs.Ext2Volume
import JamsOs.Ext2Files
import JamsOs.Ext2Reads
import JamsOs.BlockMap
import JamsOs.Ext2Inodes
import JamsOs.InodePlaces
import JamsOs.Ext2Mount
import JamsOs.Ext2Errors
import JamsOs.Ownership
import JamsOs.DirEntries
import JamsOs.DirectoryReads
import JamsOs.Ext2Heap
import JamsOs.Directories
import JamsOs.ElfOnDisk
import JamsOs.Bbuf
import JamsOs.SerialOut
import JamsOs.RingBuffer
import JamsOs.PageContents
import JamsOs.Reservations
import JamsOs.UserWrites
import JamsOs.InterruptFlag
import JamsOs.PrunedPaths
import JamsOs.HeapTables
import JamsOs.BootLayout
import JamsOs.Placements
import JamsOs.LoadedImage
import JamsOs.RingOrder
import JamsOs.Interrupts
import JamsOs.IrqLines
import JamsOs.ElfLoads
import JamsOs.ElfRefines
import JamsOs.ElfImages
import JamsOs.ElfPrograms
import JamsOs.FailedLoads
import JamsOs.FailedExecs
import JamsOs.Numerals
import JamsOs.PrintedNumbers
import JamsOs.PartitionReads
