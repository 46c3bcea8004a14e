import Senob.Disk.RamdiskRoundTrip
import Senob.Drivers.Keyboard
import Senob.Fat.ChainRuns
import Senob.Fat.FileRuns
import Senob.Fat.Mount
import Senob.Foundation.Bitmap
import Senob.Foundation.ChainTable
import Senob.Foundation.Overwrite
import Senob.Foundation.Placement
import Senob.Foundation.RedBlack
import Senob.Foundation.Run
import Senob.Libk.Console
import Senob.Libk.DescriptorPaths
import Senob.Libk.Duplicates
import Senob.Libk.FileBlocks
import Senob.Libk.KernelBreak
import Senob.Libk.LineEditing
import Senob.Libk.OpenFlags
import Senob.Libk.PrintfDirectives
import Senob.Libk.PrintfLengths
import Senob.Libk.Sizes
import Senob.Memory.HeapFirstFit
import Senob.Memory.HeapFrames
import Senob.Memory.HeapMetadata
import Senob.Memory.HeapWindow
import Senob.Memory.PagingLookup
import Senob.Memory.PagingMaps
import Senob.Memory.PagingRights
import Senob.Memory.PagingRoundTrip
import Senob.Memory.PagingUnmap
import Senob.Memory.PmmBounds
import Senob.Memory.PmmExhaustion
import Senob.Memory.PmmRuns
import Senob.Memory.ProgramExact
import Senob.Memory.SpaceTeardown
import Senob.Memory.StaleData
import Senob.Memory.UserSpace
import Senob.Memory.UserThreads
import Senob.Sys.Agreement
import Senob.Sys.DescriptorReads
import Senob.Sys.Distribution
import Senob.Sys.Execve
import Senob.Sys.IdleGrowth
import Senob.Sys.InterruptFlag
import Senob.Sys.InterruptReturn
import Senob.Sys.MpDiscovery
import Senob.Sys.MpEntries
import Senob.Sys.PitWait
import Senob.Sys.Preemption
import Senob.Sys.ProcessBlocks
import Senob.Sys.ProcessIds
import Senob.Sys.SchedLoss
import Senob.Sys.Spinlock
import Senob.Sys.SwitchTask
import Senob.Sys.ThreadLists
import Senob.Sys.TimerInterrupts
import Senob.Sys.TreeChecks
import Senob.Sys.TreeLock
import Senob.Sys.TreeRotations
import Senob.Sys.TreeRuns
import Senob.Sys.UserEntry
import Senob.Sys.UserProcess
import Senob.Syscalls.UserCalls
import Senob.Syscalls.UserHeap
import Senob.Video.Clipping
import Senob.Video.Cursor
import Senob.Video.DoomFrame
import Senob.Video.Mapping
import Senob.Video.Vga
