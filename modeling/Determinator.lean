import Determinator.Lib.Panic
import Determinator.Lib.Queue
import Determinator.Lib.Except
import Determinator.Lib.Confluence
import Determinator.Inc.Mmu
import Determinator.Inc.Trap
import Determinator.Kern.Mem
import Determinator.Kern.Proc
import Determinator.Kern.Syscall
import Determinator.Kern.Machine
import Determinator.Kern.Space
import Determinator.Proc.Rendezvous
import Determinator.Proc.Args
import Determinator.Proc.Privilege
import Determinator.Proc.Tree
import Determinator.Proc.Determinism
import Determinator.Kern.Pmap
import Determinator.Lib.Count
import Determinator.Pmap.Invariant
import Determinator.Pmap.Moves
import Determinator.Kern.Net
import Determinator.Net.Moves
import Determinator.Proc.Abort
import Determinator.Net.Migration
import Determinator.User.Dsthread
import Determinator.Dsthread.Queues
import Determinator.Dsthread.Schedule
import Determinator.Dsthread.Children
import Determinator.Dsthread.Steps
import Determinator.Dsthread.Mutex
import Determinator.Dsthread.Requests
import Determinator.Dsthread.Conds
import Determinator.User.File
import Determinator.User.Fork
import Determinator.File.Outcome
import Determinator.Kern.Recover
import Determinator.Proc.Usercopy
import Determinator.Kern.Cons
import Determinator.Cons.Wakeup
import Determinator.Kern.Rr
import Determinator.Net.Homes
import Determinator.Kern.Pull
import Determinator.Net.Pulls
import Determinator.Kern.Cr3
import Determinator.Proc.Cr3
import Determinator.Kern.Pullpage
import Determinator.Net.AddressSpace
import Determinator.Kern.Pullva
import Determinator.Net.Arrival
import Determinator.Kern.Icnt
import Determinator.Proc.Counting
import Determinator.Kern.Nodes
import Determinator.Net.Pages
import Determinator.Net.Fresh
import Determinator.Mem.FreeList
import Determinator.Kern.Meminit
import Determinator.Mem.Init
import Determinator.Kern.Bootpmap
import Determinator.Pmap.Boot
import Determinator.Pmap.Entries
import Determinator.Pmap.Copy
import Determinator.Pmap.Fault
import Determinator.Pmap.Setperm
import Determinator.Pmap.Merge
import Determinator.Pmap.Newpmap
import Determinator.Pmap.Dry
import Determinator.Pmap.Calls
import Determinator.Pmap.Counts
import Determinator.Pmap.Owner
import Determinator.Kern.Limits
import Determinator.Proc.Limits
import Determinator.Lib.Bytes
import Determinator.Kern.Packets
import Determinator.Net.Requests
import Determinator.Net.Replies
import Determinator.Lib.Fields
import Determinator.File.Paths
import Determinator.File.Open
import Determinator.Lib.Splice
import Determinator.User.Area
import Determinator.File.Strings
import Determinator.File.Growing
import Determinator.User.Exec
import Determinator.Exec.Args
import Determinator.Exec.Start
import Determinator.Exec.Load
import Determinator.User.Pthread
import Determinator.Pthread.Join
import Determinator.Dev.Timer
import Determinator.Dsthread.Malloc
import Determinator.Lib.Numeral
import Determinator.User.Printfmt
import Determinator.Format.Print
import Determinator.User.Sh
import Determinator.Sh.Command
import Determinator.Pthread.Barrier
import Determinator.Cons.Input
import Determinator.File.Lengths
import Determinator.Kern.Consio
import Determinator.Cons.Output
import Determinator.User.Scanfmt
import Determinator.Format.Scan
import Determinator.Format.Strings
import Determinator.User.Getopt
import Determinator.Lib.Interleave
import Determinator.Getopt.Permute
import Determinator.Lib.RepString
import Determinator.User.String
import Determinator.Dsthread.Stacks
import Determinator.Dev.Acpi
import Determinator.Pmap.Mergepage
import Determinator.Dev.Video
import Determinator.Pmap.Unshared
import Determinator.Dev.Frames
import Determinator.Pmap.Ranges
import Determinator.Pmap.Lifetimes
import Determinator.Pmap.Handlers
import Determinator.Testvm.Threads
import Determinator.Spinlock.Exclusion
import Determinator.File.Settled
import Determinator.File.Readdir
import Determinator.Format.Strtol
import Determinator.Rngs.Streams
