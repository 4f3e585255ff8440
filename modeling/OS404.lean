import OS404.Basic
import OS404.Lib.Run
import OS404.Lib.Chain
import OS404.Mm.Page
import OS404.Mm.Proof.Page
import OS404.Mm.Malloc
import OS404.Mm.Proof.Heap
import OS404.Mm.Proof.Malloc
import OS404.Mm.Proof.Free
import OS404.Mm.Proof.HeapRuns
import OS404.Mm.Proof.FirstFit
import OS404.Mm.Pg
import OS404.Mm.Proof.Pg
import OS404.Lib.ByteMem
import OS404.Lib.Copy
import OS404.Switch.Machine
import OS404.Switch.Proof.SwitchTo
import OS404.Sched.Task
import OS404.Sched.Sched
import OS404.Sched.Sys
import OS404.Sched.System
import OS404.Sched.Image
import OS404.Sched.Proof.Table
import OS404.Sched.Proof.Queue
import OS404.Sched.Proof.Ops
import OS404.Sched.Proof.Step
import OS404.Sched.Proof.ReadyQueues
import OS404.Sched.Proof.Wakeup
import OS404.Sched.Proof.Family
import OS404.Lib.Fifo
import OS404.Sched.Proof.Runs
import OS404.Sched.Proof.Fifo
import OS404.Sched.Proof.Feedback
import OS404.Sched.Proof.Time
import OS404.Sched.Proof.Wait
import OS404.Sched.Proof.Image
import OS404.Timer.Mktime
import OS404.Timer.Proof.Mktime
import OS404.Timer.Timer
import OS404.Timer.Proof.Timer
import OS404.Lib.BlockProg
import OS404.Driver.Buffer
import OS404.Driver.Proof.Buffer
import OS404.Fs.Fat32
import OS404.Fs.Inode
import OS404.Str
import OS404.Proof.Str
import OS404.Memmove
import OS404.Proof.Memmove
import OS404.Fs.Fcb
import OS404.Fs.Proof.Geometry
import OS404.Fs.Proof.Fat
import OS404.Fs.Proof.Alloc
import OS404.Fs.Proof.Cluster
import OS404.Fs.Proof.Write
import OS404.Fs.System
import OS404.Fs.Proof.InodeWrite
import OS404.Fs.Proof.CrossLink
import OS404.Driver.System
import OS404.Driver.Proof.Handout
import OS404.Driver.Proof.Transaction
import OS404.Lib.Ring
import OS404.Driver.Virtio
import OS404.Driver.Proof.Descriptor
import OS404.Driver.Proof.Virtio
import OS404.Driver.Transfer
import OS404.Driver.Proof.Transfer
import OS404.Lib.Critical
import OS404.Lock.Spin
import OS404.Driver.Concurrent
import OS404.Driver.Proof.Concurrent
import OS404.Driver.Readers
import OS404.Driver.Proof.Readers
import OS404.Fs.LongName
import OS404.Fs.Proof.LongName
import OS404.Fs.Dir
import OS404.Fs.Proof.Dir
import OS404.Fs.Table
import OS404.Fs.Proof.Table
import OS404.Fs.Path
import OS404.Lib.Links
import OS404.Fs.Proof.Path
import OS404.Lib.Cycle
import OS404.Fs.Proof.Walk
import OS404.Fs.Proof.Read
import OS404.Fs.Proof.ReadWrite
import OS404.Fs.Proof.Growth
import OS404.Fs.Proof.FreeSpace
import OS404.Lib.CrashLogic
import OS404.Fs.Proof.Remount
import OS404.Fs.Proof.Crash
import OS404.Fs.Proof.Inum
import OS404.Fs.Proof.Slots
import OS404.Fs.Proof.LongFit
import OS404.Fs.Proof.Delete
import OS404.Fs.Proof.Dirent
import OS404.Lib.FirstFit
import OS404.Fs.Create
import OS404.Fs.File
import OS404.Lib.Ledger
import OS404.Fs.Proof.Refs
import OS404.Fs.Proof.File
import OS404.Fs.Proof.Getcwd
import OS404.Sched.Exec
import OS404.Sched.Proof.Exec
import OS404.Trap.Vector
import OS404.Trap.Proof.Vector
import OS404.Trap.Tasks
import OS404.Trap.Proof.Switching
import OS404.Trap.Proof.Tasks
import OS404.Trap.Proof.Isolation
import OS404.Fs.Proof.NewDir
import OS404.Fs.Proof.Getdents
import OS404.Lib.Tree
import OS404.Fs.Proof.PathNames
import OS404.Fs.Proof.Elements
import OS404.Fs.Proof.Resolve
import OS404.Fs.Proof.Create
import OS404.Fs.Proof.Lookup
import OS404.Fs.Proof.ShortName
import OS404.Fs.Proof.FreshName
import OS404.Print.Printf
import OS404.Print.Proof.Write
import OS404.Print.Proof.Decimal
import OS404.Print.Proof.Truncate
import OS404.Print.Proof.Printf
import OS404.Print.Concurrent
import OS404.Print.Proof.Concurrent
