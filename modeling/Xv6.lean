import Xv6.Lib.Run
import Xv6.Lib.Durable
import Xv6.Lib.Count
import Xv6.Lib.Ring
import Xv6.Lib.Tally
import Xv6.Lib.SaveArea
import Xv6.Lib.Locks
import Xv6.Lib.Linked
import Xv6.Lib.Radix
import Xv6.Lib.Circular
import Xv6.Lib.Tiling
import Xv6.Lib.Assoc
import Xv6.Param
import Xv6.Log.Redo
import Xv6.Log.RedoProof
import Xv6.Log.GroupCommit
import Xv6.Log.GroupCommitProof
import Xv6.Log.Admission
import Xv6.Pipe.Model
import Xv6.Pipe.Fifo
import Xv6.Pipe.Sleepers
import Xv6.NotXv6.HashTable
import Xv6.NotXv6.HashTableProof
import Xv6.Proc.Table
import Xv6.Proc.Kill
import Xv6.Proc.Trace
import Xv6.Lib.Hoare
import Xv6.Vm.Model
import Xv6.Vm.PageTable
import Xv6.Vm.Size
import Xv6.Vm.Bounded
import Xv6.Vm.Copy
import Xv6.Vm.UserMem
import Xv6.Vm.Lazy
import Xv6.Fs.Model
import Xv6.Fs.Refs
import Xv6.Fs.Inodes
import Xv6.Fs.Acts
import Xv6.Fs.Calls
import Xv6.Fs.Files
import Xv6.Fs.Creates
import Xv6.Fs.Failure
import Xv6.Fs.Entries
import Xv6.Fs.Dangling
import Xv6.Fs.Parents
import Xv6.Fs.LinkCount
import Xv6.Fs.Exhaustion
import Xv6.Uthread.Switch
import Xv6.Uthread.Contexts
import Xv6.Uthread.OneRunning
import Xv6.Sched.Model
import Xv6.Sched.Invariant
import Xv6.Sched.Rows
import Xv6.Sched.Calls
import Xv6.Sched.Steps
import Xv6.Sched.Exclusive
import Xv6.Sched.Wakeup
import Xv6.Sched.Family
import Xv6.Sched.Deeds
import Xv6.Sched.Children
import Xv6.Sched.Zombies
import Xv6.Sched.ExitWait
import Xv6.Console.Model
import Xv6.Console.LineDiscipline
import Xv6.Bio.Model
import Xv6.Bio.Cached
import Xv6.Bio.Committing
import Xv6.Bio.Steps
import Xv6.Bio.Rounds
import Xv6.Bio.RunsDry
import Xv6.Bio.Coherence
import Xv6.Bio.OneDisk
import Xv6.Bio.Transparent
import Xv6.Sv39.Model
import Xv6.Sv39.Index
import Xv6.Sv39.Walk
import Xv6.Sv39.Mappings
import Xv6.Umalloc.Model
import Xv6.Umalloc.FreeList
import Xv6.Umalloc.Free
import Xv6.Umalloc.Malloc
import Xv6.Umalloc.Heap
import Xv6.Virtio.Model
import Xv6.Virtio.Descs
import Xv6.Virtio.Protocol
import Xv6.Sh.Model
import Xv6.Sh.Grammar
import Xv6.Sh.Lexer
import Xv6.Sh.Prints
import Xv6.Sh.Parses
import Xv6.Sh.Roundtrip
import Xv6.Vm.Frames
import Xv6.Vm.Fork
import Xv6.Vm.Args
import Xv6.Lib.Owns
import Xv6.Blocks.Model
import Xv6.Blocks.Calls
import Xv6.Blocks.Frame
import Xv6.Blocks.Owned
import Xv6.Blocks.Growth
import Xv6.Blocks.Write
import Xv6.Blocks.Wf
import Xv6.Blocks.Files
import Xv6.Blocks.Trunc
import Xv6.Blocks.Reclaim
import Xv6.Grep.Model
import Xv6.Grep.Matcher
import Xv6.Grep.Lines
import Xv6.Uthread.Table
import Xv6.Uthread.Slots
import Xv6.Lib.RoundRobin
import Xv6.Uthread.RoundRobin
import Xv6.Lib.DoublyLinked
import Xv6.Bio.Lru
import Xv6.Bio.LruOrder
import Xv6.Log.Area
import Xv6.Sv39.Copy
import Xv6.Sv39.Exact
import Xv6.Eager.Model
import Xv6.Eager.Tables
import Xv6.Eager.Space
import Xv6.Eager.Processes
import Xv6.Eager.Exec
import Xv6.Eager.Dense
import Xv6.Blocks.ByteFiles
import Xv6.Lib.Move
import Xv6.Strings.Memmove
import Xv6.Printf.Model
import Xv6.Lib.Numeral
import Xv6.Printf.Exact
import Xv6.Spinlock.Model
import Xv6.Spinlock.Invariant
import Xv6.Spinlock.Switches
import Xv6.Blocks.Chunks
import Xv6.Lib.SlotMap
import Xv6.Blocks.Directory
import Xv6.Blocks.DirMap
import Xv6.Blocks.Refs
import Xv6.Blocks.Paths
import Xv6.Blocks.Work
import Xv6.Blocks.Rules
import Xv6.Blocks.Transactions
import Xv6.Blocks.Settled
import Xv6.Blocks.Sessions
import Xv6.Blocks.System
import Xv6.Lib.Refcount
import Xv6.Ftable.Model
import Xv6.Ftable.Invariant
import Xv6.Ftable.Steps
import Xv6.Ftable.Runs
import Xv6.Vm.Pool
import Xv6.Vm.Growing
import Xv6.Vm.Processes
import Xv6.Vm.Children
import Xv6.Vm.Elf
import Xv6.Vm.Exec
import Xv6.Vm.SysExec
import Xv6.Vm.Machine
import Xv6.Vm.Isolation
import Xv6.Vm.Runs
import Xv6.Vm.Image
import Xv6.Eager.Conservation
import Xv6.Blocks.Boot
