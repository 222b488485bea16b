import Edaf35.Lib.Run
import Edaf35.Lib.Bytes
import Edaf35.Lib.Chain
import Edaf35.Lib.Arena
import Edaf35.Lib.Probe
import Edaf35.Lib.Stutter
import Edaf35.Lib.Ring
import Edaf35.Lib.SecondChance
import Edaf35.Lib.Recent
import Edaf35.Lib.Forward
import Edaf35.Lib.Circular
import Edaf35.Lib.Competitive
import Edaf35.Lib.SecondChanceWindow
import Edaf35.Lib.DescriptorTable
import Edaf35.Lib.Objects
import Edaf35.Machine.Paging
import Edaf35.Machine.Invariant
import Edaf35.Machine.Fault
import Edaf35.Machine.Replace
import Edaf35.Machine.Access
import Edaf35.Machine.Residency
import Edaf35.Machine.SwapSpace
import Edaf35.Machine.FifoQueue
import Edaf35.Machine.LoadOrder
import Edaf35.Machine.SecondChanceQueue
import Edaf35.Machine.SecondChanceScan
import Edaf35.Machine.Transparency
import Edaf35.Machine.PolicyIndependence
import Edaf35.Machine.Cpu
import Edaf35.Machine.Fac
import Edaf35.Machine.Assembler
import Edaf35.Machine.Competitive
import Edaf35.Machine.Statistics
import Edaf35.Machine.Source
import Edaf35.Ssfs.Layout
import Edaf35.Ssfs.Support
import Edaf35.Ssfs.Ops
import Edaf35.Ssfs.WellFormed
import Edaf35.Ssfs.Directory
import Edaf35.Ssfs.Shrink
import Edaf35.Ssfs.Write
import Edaf35.Ssfs.RamDisk
import Edaf35.Ssfs.Consistency
import Edaf35.Ssfs.Atomicity
import Edaf35.Ssfs.Contents
import Edaf35.Ssfs.Frame
import Edaf35.Ssfs.ReadBack
import Edaf35.Ssfs.Rename
import Edaf35.Ssfs.Unlink
import Edaf35.Ssfs.Session
import Edaf35.Ssfs.Listing
import Edaf35.Ssfs.Isolation
import Edaf35.Ssfs.FreeList
import Edaf35.Ssfs.Modified
import Edaf35.Ssfs.Store
import Edaf35.Ssfs.Refinement
import Edaf35.Ssfs.Spared
import Edaf35.Ssfs.Crash
import Edaf35.Project.Heap
import Edaf35.Project.Dude
import Edaf35.Project.DudeHeap
import Edaf35.Project.ExtremeSizes
import Edaf35.Project.MemLuke
import Edaf35.Project.MemLukeHeap
import Edaf35.Project.MemoryList
import Edaf35.Project.MemoryListHeap
import Edaf35.Project.ListAllocators
import Edaf35.Project.Tiling
import Edaf35.Project.Buddy
import Edaf35.Project.BuddyRuns
import Edaf35.Project.FailedSbrk
import Edaf35.Project.Contents
import Edaf35.Project.Footprint
import Edaf35.Project.Leak
import Edaf35.Tracer.InstrTable
import Edaf35.Tracer.Rewrite
import Edaf35.Tracer.Trace
import Edaf35.Tracer.Simulation
import Edaf35.Tracer.Histogram
import Edaf35.Tracer.Elf
import Edaf35.Tracer.Program
import Edaf35.Shell.Tokens
import Edaf35.Shell.ParseLine
import Edaf35.Shell.RunProgram
import Edaf35.Shell.OldDir
import Edaf35.Shell.Arguments
import Edaf35.Shell.TokenBuf
import Edaf35.Shell.Commands
import Edaf35.Shell.Descriptors
import Edaf35.Shell.Processes
import Edaf35.Shell.Kernel
import Edaf35.Shell.Pipes
import Edaf35.Shell.Redirection
import Edaf35.Shell.Programs
import Edaf35.Shell.CircularList
import Edaf35.Shell.SearchPath
