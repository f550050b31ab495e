import Xv6.Param
import Xv6.Panic
import Xv6.Lib.Writes
import Xv6.Lib.Bytes
import Xv6.Disk.Block
import Xv6.Log.Core
import Xv6.Log.Machine
import Xv6.Log.Recovery
import Xv6.Log.Commit
import Xv6.Lib.Run
import Xv6.Log.Interleave
import Xv6.Log.Sleepers
import Xv6.Log.Transactions
import Xv6.Log.Capacity
import Xv6.Lib.Ring
import Xv6.Cache.Bio
import Xv6.Cache.Buffers
import Xv6.Cache.Refinement
import Xv6.Lib.Window
import Xv6.Lib.Wp
import Xv6.Lib.Count
import Xv6.Lib.Frame
import Xv6.Fs.Layout
import Xv6.Fs.State
import Xv6.Fs.Inode
import Xv6.Fs.Name
import Xv6.Fs.Syscall
import Xv6.Fs.Blocks
import Xv6.Fs.Invariant
import Xv6.Fs.Content
import Xv6.Fs.Logged
import Xv6.Fs.ReadWrite
import Xv6.Fs.Table
import Xv6.Fs.Dirent
import Xv6.Fs.Directory
import Xv6.Fs.Path
import Xv6.Fs.Files
import Xv6.Fs.Create
import Xv6.Fs.Open
import Xv6.Fs.Effect
import Xv6.Fs.Link
import Xv6.Fs.Calls
import Xv6.Fs.Format
import Xv6.Fs.Ownership
import Xv6.Fs.Coherence
import Xv6.Fs.Holes
import Xv6.Fs.ByteArray
import Xv6.Fs.ShortWrite
import Xv6.Fs.Writers
import Xv6.Fs.Elements
import Xv6.Fs.DirectoryMap
import Xv6.Fs.Resolve
import Xv6.Fs.FileWrite
import Xv6.Fs.FileRead
import Xv6.Fs.FullDirectory
import Xv6.Process.Machine
import Xv6.Process.Threads
import Xv6.Process.Scheduling
import Xv6.Process.Wakeup
import Xv6.Process.Slots
import Xv6.Process.Pids
import Xv6.Process.Interrupt
import Xv6.Console.Calls
import Xv6.Console.LineDiscipline
import Xv6.Clock.Calls
import Xv6.Waiting.Calls
import Xv6.Waiting.Killed
import Xv6.Process.Family
import Xv6.Process.Wait
import Xv6.Pipes.Calls
import Xv6.Pipes.Fifo
import Xv6.Pipes.Waiters
import Xv6.Fs.Layer
import Xv6.Lib.Preserve
import Xv6.Fs.Descriptors
import Xv6.Fs.RefCounts
import Xv6.Fs.Balance
import Xv6.Shell.Parser
import Xv6.Shell.Grammar
import Xv6.Shell.Lexer
import Xv6.Shell.Simulation
import Xv6.Shell.Printing
import Xv6.Shell.Parsecmd
import Xv6.Lib.Path
import Xv6.Lib.Cover
import Xv6.Umalloc.Malloc
import Xv6.Umalloc.FreeList
import Xv6.Umalloc.HeapInvariant
import Xv6.Lib.Radix
import Xv6.Vm.Memory
import Xv6.Vm.PageTable
import Xv6.Vm.Map
import Xv6.Vm.Unmap
import Xv6.Vm.Refinement
import Xv6.Vm.Freewalk
import Xv6.Vm.Space
import Xv6.Vm.Grow
import Xv6.Vm.Proc
import Xv6.Vm.Copy
import Xv6.Vm.CopyStr
import Xv6.Vm.Isolation
import Xv6.Vm.Fork
import Xv6.Vm.ProcPagetable
import Xv6.Vm.Exec
import Xv6.Vm.Image
import Xv6.Vm.Stack
import Xv6.Vm.ExecSpec
import Xv6.Vm.ExecLoad
import Xv6.Shell.Runcmd
import Xv6.User.Memmove
import Xv6.User.Printf
import Xv6.User.Match
import Xv6.User.Grep
import Xv6.Mkfs.Program
import Xv6.Mkfs.Blocks
import Xv6.Mkfs.Image
