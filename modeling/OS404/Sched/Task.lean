import OS404.Basic
import Mathlib.Logic.Function.Basic

/-!
# Tasks and ready queues (`include/sched.h`)

The scheduler's variables: the table `TASK`, the task structures and queue nodes in memory, the
five ready queues, `current`, and the counters of `fork`. A pointer is an address, 0 is `NULL`;
`tasks` and `nodes` say what is allocated where, so reading through a pointer that was freed is
`Fault.ub`.

Of `struct task_struct` the fields that the scheduler, `fork`, `exit` and `waitpid` read or write
are here; the registers, signal handlers, files and working directory are not.
-/

namespace Sched

abbrev Ptr := Nat

/-- `MAX_TASK` -/
def maxTask : Nat := 64

inductive TaskState where
  | running | ready | wait | zombine | stop
  deriving DecidableEq, Repr

/-- `struct task_struct` -/
structure Task where
  pid : Int
  fatherPid : Int
  pcbId : Nat
  state : TaskState
  startTime : UInt64
  time : UInt64
  priority : Int
  counter : Int
  inQueue : Bool
  /-- `int8_t order`, where `int8_t` is `char`, unsigned on this machine -/
  order : Nat
  signal : BitVec 32
  exitCode : BitVec 32
  deriving DecidableEq, Repr

/-- `struct Queue` -/
structure QNode where
  pid : Int
  task : Ptr
  next : Ptr
  deriving DecidableEq, Repr

def sigChld : BitVec 32 := 1 <<< 16
def sigCont : BitVec 32 := 1 <<< 17
def sigStop : BitVec 32 := 1 <<< 18

/-- `COUNTER(order)` -/
def counterOf (order : Nat) : Int := 2 + 6 * order

structure State where
  /-- `TASK[i]` -/
  task : Nat → Ptr
  tasks : Ptr → Option Task
  nodes : Ptr → Option QNode
  /-- `queue_head[k].next` -/
  head : Nat → Ptr
  tail : Nat → Ptr
  current : Ptr
  newPid : Int
  newPcbId : Nat
  jiffies : UInt64
  /-- the doublewords in user memory -/
  mem : Nat → BitVec 64

/-- Reading `*p`. -/
def State.get (s : State) (p : Ptr) : Res Task :=
  match s.tasks p with
  | some t => .ok t
  | none => .error .ub

/-- Writing `*p`. -/
def State.set (s : State) (p : Ptr) (t : Task) : State :=
  { s with tasks := Function.update s.tasks p (some t) }

/-- `*p` changed by `f`. -/
def State.modify (s : State) (p : Ptr) (f : Task → Task) : Res State := do
  let t ← s.get p
  return s.set p (f t)

def State.getNode (s : State) (q : Ptr) : Res QNode :=
  match s.nodes q with
  | some n => .ok n
  | none => .error .ub

def State.setNode (s : State) (q : Ptr) (n : QNode) : State :=
  { s with nodes := Function.update s.nodes q (some n) }

/-- The slots in the order of the loops `while(--i)`: 63, 62, …, 1. -/
def slotsDown : List Nat := (List.range 63).map (63 - ·)

/-- The slots in the order of the loops `for(i = 1; i < MAX_TASK; i++)`. -/
def slotsUp : List Nat := (List.range 63).map (· + 1)

/-- A loop over the table that changes each task by `f` alone. -/
def State.forTasks (f : Task → Task) : List Nat → State → Res State
  | [], s => .ok s
  | i :: is, s =>
    if s.task i = 0 then forTasks f is s
    else do
      let s ← s.modify (s.task i) f
      forTasks f is s

/-- `INIT_TASK` -/
def initTask : Task where
  pid := 0
  fatherPid := 0
  pcbId := 0
  state := .ready
  startTime := 0
  time := 0
  priority := 1
  counter := 1
  inQueue := false
  order := 0
  signal := 0
  exitCode := 0

/-- The variables at boot, with `init_task` at `p`. -/
def State.boot (p : Ptr) : State where
  task i := if i = 0 then p else 0
  tasks := Function.update (fun _ => none) p (some initTask)
  nodes _ := none
  head _ := 0
  tail _ := 0
  current := p
  newPid := 0
  newPcbId := 0
  jiffies := 0
  mem _ := 0

end Sched
