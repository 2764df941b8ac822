import Xv6.Base.Blocks
import Xv6.Base.Bytes
import Xv6.Base.Code
import Xv6.Base.Copy
import Xv6.Base.Cycle
import Xv6.Base.Numeral
import Xv6.Base.Radix
import Xv6.Base.Ring
import Xv6.Base.Sim
import Xv6.Base.Slots
import Xv6.Base.Tokens
import Xv6.Base.Total
import Xv6.Base.Transition
import Xv6.Base.Wp
import Xv6.Base.Writes
import Xv6.Bio.Cache
import Xv6.Clib.Memmove
import Xv6.Console.Console
import Xv6.Console.Discipline
import Xv6.Console.Intr
import Xv6.Cpu.Interrupts
import Xv6.Cpu.Spinlock
import Xv6.Fs.Blocks
import Xv6.Fs.Chunk
import Xv6.Fs.Content
import Xv6.Fs.Dir
import Xv6.Fs.File
import Xv6.Fs.Fileread
import Xv6.Fs.Itable
import Xv6.Fs.Layout
import Xv6.Fs.Links
import Xv6.Fs.Node
import Xv6.Fs.Path
import Xv6.Fs.Writei
import Xv6.Inode.Entry
import Xv6.Inode.LastRef
import Xv6.Inode.Table
import Xv6.Kernel.Param
import Xv6.Log.Admission
import Xv6.Log.Buffers
import Xv6.Log.Coherence
import Xv6.Log.Commit
import Xv6.Log.Crash
import Xv6.Log.Log
import Xv6.Log.Space
import Xv6.Log.Store
import Xv6.Log.Transaction
import Xv6.Pipe.Fifo
import Xv6.Pipe.Pipe
import Xv6.Pipe.Read
import Xv6.Pipe.Sleepers
import Xv6.Printf.Printf
import Xv6.Printf.Printint
import Xv6.Printf.Text
import Xv6.Proc.Kill
import Xv6.Proc.Pid
import Xv6.Proc.Table
import Xv6.Sched.Agreement
import Xv6.Sched.Exit
import Xv6.Sched.Family
import Xv6.Sched.Footprint
import Xv6.Sched.Layered
import Xv6.Sched.Lifecycle
import Xv6.Sched.Logic
import Xv6.Sched.Machine
import Xv6.Sched.Monitor
import Xv6.Sched.OneCpu
import Xv6.Sched.Switch
import Xv6.Sched.Wait
import Xv6.Sched.Wakeup
import Xv6.Sched.Watch
import Xv6.User.Find
import Xv6.User.FindTree
import Xv6.User.Grep
import Xv6.User.GrepLines
import Xv6.User.Malloc
import Xv6.User.MallocRuns
import Xv6.User.Memdump
import Xv6.User.Sixfive
import Xv6.User.Umalloc
import Xv6.Virtio.Descriptors
import Xv6.Virtio.Discipline
import Xv6.Virtio.Disk
import Xv6.Vm.AddressSpace
import Xv6.Vm.Arguments
import Xv6.Vm.Bound
import Xv6.Vm.Conservation
import Xv6.Vm.Contents
import Xv6.Vm.Copies
import Xv6.Vm.Exec
import Xv6.Vm.ExecArgs
import Xv6.Vm.ExecCall
import Xv6.Vm.Fork
import Xv6.Vm.Image
import Xv6.Vm.Kmem
import Xv6.Vm.Mirror
import Xv6.Vm.PageTable
import Xv6.Vm.Pages
import Xv6.Vm.Proc
import Xv6.Vm.Process
import Xv6.Vm.Program
import Xv6.Vm.Ram
import Xv6.Vm.Segments
import Xv6.Vm.Space
import Xv6.Vm.Stack
import Xv6.Vm.Strings
import Xv6.Vm.Sv39
import Xv6.Vm.Syscall
import Xv6.Vm.System
import Xv6.Vm.TableMap
import Xv6.Vm.Unwind
import Xv6.Vm.UserMemory
import Xv6.Vm.Walk
