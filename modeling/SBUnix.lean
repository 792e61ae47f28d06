import SBUnix.Paging.Kernel
import SBUnix.Paging.Boot
import SBUnix.Paging.BootWords
import SBUnix.Paging.BootImage
import SBUnix.Paging.BootMap
import SBUnix.Paging.BootWalk
import SBUnix.Paging.PageAlloc
import SBUnix.Paging.MappedAlloc
import SBUnix.Switch.Trap
import SBUnix.Switch.Dispatch
import SBUnix.Process.ExecArgs
import SBUnix.Process.Table
import SBUnix.Process.Exit
import SBUnix.Process.Wait
import SBUnix.Process.Schedule
import SBUnix.Process.Zombies
import SBUnix.Process.Kill
import SBUnix.Process.Runs
import SBUnix.Paging.UserPaging
import SBUnix.Paging.UserAddresses
import SBUnix.Paging.Pools
import SBUnix.Paging.UserFrames
import SBUnix.Paging.VaRuns
import SBUnix.Paging.KernelUser
import SBUnix.Paging.Permissions
import SBUnix.Paging.GrowsDown
import SBUnix.Console.Screen
import SBUnix.Lib.Strings
import SBUnix.Lib.Compare
import SBUnix.Lib.Copy
import SBUnix.Lib.Concat
import SBUnix.Lib.MemCopy
import SBUnix.Lib.Numbers
import SBUnix.Lib.SizeField
import SBUnix.Lib.Itoa
import SBUnix.Console.Format
import SBUnix.Console.Numerals
import SBUnix.Console.FormatSpec
import SBUnix.Console.Keyboard
import SBUnix.Process.Heap
import SBUnix.Process.Threads
import SBUnix.Lib.Tokens
import SBUnix.Lib.TokenRuns
import SBUnix.Tarfs.Archive
import SBUnix.Tarfs.InitTarfs
import SBUnix.Tarfs.FileExists
import SBUnix.Tarfs.OpenFile
import SBUnix.Tarfs.Directory
import SBUnix.Tarfs.ReadFile
import SBUnix.Tarfs.ReadMemory
import SBUnix.Console.LineBuffer
import SBUnix.Console.OutputPaths
import SBUnix.Console.Erase
import SBUnix.Console.SharedCounter
import SBUnix.Console.Bookkeeping
import SBUnix.Process.LoadSegment
import SBUnix.Process.VmAreas
import SBUnix.Paging.TableTree
import SBUnix.Shell.CommandLine
import SBUnix.Paging.MapPage
import SBUnix.Paging.Rights
import SBUnix.Paging.PageRange
import SBUnix.Process.UserMemory
import SBUnix.Process.Regions
import SBUnix.Process.ForkMemory
import SBUnix.Process.ForkEffect
import SBUnix.Tarfs.Bounds
import SBUnix.Tarfs.ParentLinks
import SBUnix.Process.ExecMissing
import SBUnix.Paging.PageFault
import SBUnix.Paging.FaultRuns
import SBUnix.Paging.FrameRuns
import SBUnix.Process.ImageMemory
import SBUnix.Process.LoadImage
import SBUnix.Framework.Simulation
import SBUnix.Switch.Yield
import SBUnix.System.Machine
import SBUnix.System.Refinement
import SBUnix.System.Turns
import SBUnix.Framework.Rings
import SBUnix.Switch.Descriptors
import SBUnix.Switch.Interrupts
import SBUnix.Switch.Unseen
import SBUnix.Bin.Programs
import SBUnix.Shell.Loop
import SBUnix.Paging.MappedAlloc
