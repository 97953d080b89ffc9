import Jrinx.Lib.Runs
import Jrinx.Lib.FifoLog
import Jrinx.Lib.Bytes
import Jrinx.Lib.Fallible
import Jrinx.Lib.Regions
import Jrinx.Lib.LinkedList
import Jrinx.Lib.Buddy
import Jrinx.Lib.Programs
import Jrinx.Types
import Jrinx.Circbuf
import Jrinx.Rings
import Jrinx.Lists
import Jrinx.FastMemory
import Jrinx.Mm.Frames
import Jrinx.Mm.PageTable
import Jrinx.Mm.PartMem
import Jrinx.Mm.Charges
import Jrinx.Mm.Budget
import Jrinx.Kernel
import Jrinx.Timer
import Jrinx.Sched
import Jrinx.Comm
import Jrinx.Syscalls
import Jrinx.Machine
import Jrinx.Effects
import Jrinx.Registry
import Jrinx.Steps
import Jrinx.WaitLists
import Jrinx.WaitAgreement
import Jrinx.Crossing
import Jrinx.Delivery
import Jrinx.LostWakeups
import Jrinx.Returns
import Jrinx.Refusals
import Jrinx.TimerMatch
import Jrinx.Causes
import Jrinx.Storage
import Jrinx.TimerQueue
import Jrinx.Lib.Timetable
import Jrinx.PartTimers
import Jrinx.Timeouts
import Jrinx.Blackboards
import Jrinx.Lib.Signed
import Jrinx.TimeSums
import Jrinx.Lib.RecordLog
import Jrinx.WaitRecords
import Jrinx.Lib.Lines
import Jrinx.Lib.Rotation
import Jrinx.Overtaking
import Jrinx.RoundRobin
import Jrinx.Schedule
import Jrinx.MajorFrame
import Jrinx.Mm.Tree
import Jrinx.Mm.Walk
import Jrinx.Mm.FailedWalk
import Jrinx.Mm.MappedFrames
import Jrinx.Mm.Kalloc
import Jrinx.Mm.HeapLoops
import Jrinx.Mm.HeapRuns
import Jrinx.Mm.Coalescing
import Jrinx.Locks
import Jrinx.LockedServices
import Jrinx.LockDiscipline
import Jrinx.HartRuns
import Jrinx.Lib.Epochs
import Jrinx.Mm.Bitmap
import Jrinx.Mm.Asid
import Jrinx.Mm.AsidPool
import Jrinx.PortConfs
import Jrinx.ChannelEnds
import Jrinx.Lib.CText
import Jrinx.Lib.HashTable
import Jrinx.Lib.Chains
import Jrinx.Hashmap
import Jrinx.Lib.Blobs
import Jrinx.Mm.Supply
import Jrinx.Mm.FailedPages
import Jrinx.Mm.PageFaults
import Jrinx.Mm.PageRuns
import Jrinx.Lib.Strides
import Jrinx.Mm.Segments
import Jrinx.Mm.Ways
import Jrinx.Mm.Loading
import Jrinx.Shortage
import Jrinx.Mm.Reserve
import Jrinx.OnDemand
import Jrinx.Boot.Bootargs
import Jrinx.Boot.Windows
import Jrinx.Boot.Args
import Jrinx.Boot.Tables
import Jrinx.Boot.Sysconf
import Jrinx.Boot.RoundTrip
import Jrinx.Boot.ArgWords
import Jrinx.Boot.ConfBounds
import Jrinx.Boot.ConfRecords
import Jrinx.Boot.ChannelTable
import Jrinx.Drivers.Devicetree
import Jrinx.Drivers.FlatTree
import Jrinx.Drivers.Compatible
import Jrinx.Drivers.RsvMap
import Jrinx.Drivers.Serial
import Jrinx.Drivers.Mems
import Jrinx.Mm.Pmm
import Jrinx.Mm.PmmInit
import Jrinx.Mm.Stacks
import Jrinx.Mm.FrameUses
import Jrinx.Mm.OwnedPages
import Jrinx.Mm.AddressSpaces
import Jrinx.Mm.Isolation
import Jrinx.Traps
import Jrinx.AtOnce
import Jrinx.Elections
import Jrinx.Dispatches
import Jrinx.Priorities
import Jrinx.ContextUse
import Jrinx.LockOrder
import Jrinx.Boot.Completion
import Jrinx.Boot.HartStacks
import Jrinx.ProgramRegisters
import Jrinx.IdleWindows
import Jrinx.Printfmt
import Jrinx.NumDirectives
import Jrinx.ByteSizes
import Jrinx.Divisions
