import Nupkux.Types
import Nupkux.Lib.Transition
import Nupkux.Lib.Store
import Nupkux.Lib.LinkedList
import Nupkux.Lib.References
import Nupkux.Lib.Ownership
import Nupkux.Fs.Vnode
import Nupkux.Fs.VnodeCache
import Nupkux.Kernel.Task
import Nupkux.Fs.Open
import Nupkux.Kernel.Exit
import Nupkux.Kernel.ProcessTable
import Nupkux.Kernel.FileCounts
import Nupkux.Kernel.VnodeBalance
import Nupkux.Mm.Paging
import Nupkux.Mm.FrameOwnership
import Nupkux.Mm.HeapBounds
import Nupkux.Mm.AddressSpaces
import Nupkux.Mm.KernelMappings
import Nupkux.Fs.Namei
import Nupkux.Fs.Mount
import Nupkux.Fs.Umount
import Nupkux.Fs.MountChain
import Nupkux.Lib.Follow
import Nupkux.Fs.Extends
import Nupkux.Fs.MountTree
import Nupkux.Fs.Taken
import Nupkux.Fs.NameiBalance
import Nupkux.Fs.Confinement
import Nupkux.Fs.Resolution
import Nupkux.Kernel.Jails
import Nupkux.Fs.MountFailure
import Nupkux.Strings
import Nupkux.StringOrder
import Nupkux.Fs.Filesystems
import Nupkux.Lib.Region
import Nupkux.Lib.Ring
import Nupkux.Drivers.Tty
import Nupkux.Drivers.TtySafety
import Nupkux.Drivers.Keyboard
import Nupkux.Kernel.Nish
import Nupkux.Kernel.Rounds
import Nupkux.Kernel.Bystanders
import Nupkux.Kernel.Reaping
import Nupkux.Lib.QueueLock
import Nupkux.Drivers.DeviceLock
import Nupkux.Lib.PackedArray
import Nupkux.Fs.Devfs
import Nupkux.Fs.DevfsRegistry
import Nupkux.Fs.DevfsVnodes
import Nupkux.Fs.DevfsUnregister
import Nupkux.Lib.Window
import Nupkux.Drivers.Screen
import Nupkux.Mm.Placement
import Nupkux.Mm.BootMapping
import Nupkux.Mm.BootHeap
import Nupkux.Mm.FrameExhaustion
import Nupkux.Mm.HeapPages
import Nupkux.Lib.Words
import Nupkux.Lib.Tiling
import Nupkux.Mm.KernelHeap
import Nupkux.Mm.HeapIndex
import Nupkux.Mm.HeapLayout
import Nupkux.Mm.HeapCreation
import Nupkux.Mm.HeapMalloc
import Nupkux.Mm.HeapFree
import Nupkux.Mm.HeapAligned
import Nupkux.Mm.HeapShrink
import Nupkux.Mm.HeapRealloc
import Nupkux.Mm.HeapGrowth
import Nupkux.Lib.Objects
import Nupkux.Mm.HeapCalls
import Nupkux.Mm.HeapRuns
import Nupkux.Fs.Ext2.Super
import Nupkux.Fs.Ext2.Blocks
import Nupkux.Fs.Ext2.Groups
import Nupkux.Fs.Ext2.Divisors
import Nupkux.Fs.Ext2.Location
import Nupkux.Fs.Ext2.Inode
import Nupkux.Fs.Ext2.FileRead
import Nupkux.MemoryStrings
import Nupkux.Fs.Ext2.Directory
import Nupkux.Fs.Ext2.Listing
import Nupkux.Fs.Ext2.Lookup
import Nupkux.Lib.Cursor
import Nupkux.Kernel.Signals
import Nupkux.Kernel.ExitNotice
import Nupkux.Fs.Dup
import Nupkux.Fs.ReadWrite
import Nupkux.Kernel.SchedulerReach
import Nupkux.Fs.Initrd
import Nupkux.Tools.Mkinitrd
import Nupkux.Tools.InitrdLayout
import Nupkux.Fs.InitrdTree
import Nupkux.BlockStrings
import Nupkux.UserShell
import Nupkux.Lib.Runs
import Nupkux.Strtok
import Nupkux.Vsprintf
import Nupkux.Kernel.SplitArgv
import Nupkux.Kernel.CommandWords
import Nupkux.Kernel.Interpret
import Nupkux.Kernel.Messages
import Nupkux.Drivers.Rendition
import Nupkux.Drivers.EscapeSequence
import Nupkux.Drivers.Terminal
import Nupkux.Kernel.Time
import Nupkux.Lib.Calendar
import Nupkux.Kernel.Clock
import Nupkux.Drivers.Ramdisk
import Nupkux.Drivers.RamdiskLock
import Nupkux.Kernel.BootConsole
import Nupkux.Drivers.Monitor
import Nupkux.Drivers.AcpiTables
import Nupkux.Drivers.AcpiScan
import Nupkux.Mm.CloneTable
import Nupkux.Mm.CloneDirectory
import Nupkux.Mm.CloneRelease
import Nupkux.Lib.Spaces
import Nupkux.Mm.VirtualMemory
import Nupkux.Mm.Isolation
import Nupkux.Mm.Machine
import Nupkux.Kernel.Elf
import Nupkux.Kernel.ElfSegment
import Nupkux.Kernel.ElfReads
import Nupkux.Kernel.ElfValidate
import Nupkux.Fs.UserStack
import Nupkux.Lib.Accesses
import Nupkux.Fs.StackTrace
import Nupkux.Fs.StackVectors
import Nupkux.Fs.StackLayout
import Nupkux.Fs.StackBlock
import Nupkux.Fs.StackWrites
import Nupkux.Fs.StackKept
import Nupkux.Fs.Exec
