import OS404.Sched.Sched

/-!
# `fork`, `exit` and `waitpid` (`kernel/sched/fork.c`, `exit.c`, `kernel/sys.c`)

Each function is modelled up to its call of `schedule()`: what comes after the call is done when
the task is resumed.
-/

namespace Sched

/-! ## `fork` -/

/-- The first free slot of `find_new_id`. -/
def freeSlot (s : State) : Option Nat := slotsUp.find? fun i => s.task i = 0

/-- The task structure that `copy_process` fills in. -/
def childTask (s : State) (parent : Task) : Task where
  pid := s.newPid
  fatherPid := parent.pid
  pcbId := s.newPcbId
  state := .ready
  startTime := s.jiffies
  time := 0
  priority := parent.priority
  counter := parent.priority
  inQueue := false
  order := 0
  signal := 0
  exitCode := 0

/-- `sys_fork`, with `malloc(sizeof(struct task_struct))` returning `p`: the child's pid. -/
def fork (p : Ptr) (s : State) : Res (Int × State) := do
  -- `NEW_PID++` on an `int`
  if s.newPid ≥ 2 ^ 31 - 1 then .error .ub
  else
    let s := { s with newPid := s.newPid + 1 }
    match freeSlot s with
    | none => .error (.panic "No free PCB_id to request!\n")
    | some i =>
      let s := { s with newPcbId := i }
      if p = 0 ∨ s.tasks p ≠ none then .error .ub
      else
        let parent ← s.get s.current
        let t := childTask s parent
        return (t.pid, { s with task := Function.update s.task i p }.set p t)

/-! ## `exit` -/

/-- The slot of the task with `pid`, in the loop of `tell_father`. -/
def slotOf (s : State) (pid : Int) : List Nat → Res (Option Nat)
  | [] => .ok none
  | i :: is =>
    if s.task i = 0 then slotOf s pid is
    else do
      let t ← s.get (s.task i)
      if t.pid = pid then .ok (some i) else slotOf s pid is

def addChld (t : Task) : Task := { t with signal := t.signal ||| sigChld }

/-- `tell_father` -/
def tellFather (pid : Int) (s : State) : Res State := do
  match ← (if pid ≠ 0 then slotOf s pid slotsUp else .ok none : Res (Option Nat)) with
  | some i => s.modify (s.task i) addChld
  | none => do
    let s ← s.modify s.current fun t => { t with fatherPid := 1 }
    s.modify (s.task 1) addChld

/-- One turn of the loop of `do_exit`, for the exiting task's `pid`. -/
def adoptSlot (pid : Int) (i : Nat) (s : State) : Res State :=
  if s.task i = 0 then .ok s
  else do
    let t ← s.get (s.task i)
    if t.fatherPid = pid then
      let s := s.set (s.task i) { t with fatherPid := 1 }
      if t.state = .zombine then tellFather 1 s else .ok s
    else .ok s

/-- The loop of `do_exit`: the exiting task's children become those of pid 1. -/
def adoptLoop (pid : Int) : List Nat → State → Res State
  | [], s => .ok s
  | i :: is, s => do
    let s ← adoptSlot pid i s
    adoptLoop pid is s

/-- `do_exit`, up to its call of `schedule`. Its argument `error_code` is not used. -/
def doExit (_errorCode : BitVec 32) (s : State) : Res State := do
  let t ← s.get s.current
  if t.pid ≠ 0 then
    let s ← adoptLoop t.pid slotsDown s
    let s ← s.modify s.current fun t =>
      -- `order = -1` in an unsigned `char`
      { t with state := .zombine, counter := 0, inQueue := false, order := 255 }
    let t ← s.get s.current
    tellFather t.fatherPid s
  else .error (.panic "Attempted to kill task 0\n")

/-- `release` -/
def release (p : Ptr) (s : State) : Res State :=
  if p = 0 then .ok s
  else
    match slotsUp.find? fun i => s.task i = p with
    | none => .error (.panic "error in releasing a task memory")
    | some i =>
      .ok { s with task := Function.update s.task i 0, tasks := Function.update s.tasks p none }

/-! ## `waitpid` -/

/-- What the loop of `sys_waitpid` over the table ends with. -/
inductive Scan where
  /-- a zombie child -/
  | zombine (p : Ptr) (t : Task)
  /-- a stopped child -/
  | stop (t : Task)
  /-- `flag` at the end of the table -/
  | done (flag : Bool)

/-- The argument `pid` of `sys_waitpid` admits the child `cpid`. -/
def pidMatches (pid cpid : Int) : Bool := if pid > 0 then pid = cpid else pid = -1

/-- The loop of `sys_waitpid`, called by `cur` with the given `pid`. -/
def scan (s : State) (cur : Task) (pid : Int) : List Nat → Bool → Res Scan
  | [], flag => .ok (.done flag)
  | i :: is, flag =>
    if s.task i = 0 ∨ s.task i = s.current then scan s cur pid is flag
    else do
      let t ← s.get (s.task i)
      if t.fatherPid ≠ cur.pid ∨ pidMatches pid t.pid = false then scan s cur pid is flag
      else if t.state = .zombine then .ok (.zombine (s.task i) t)
      else if t.state = .stop then .ok (.stop t)
      else scan s cur pid is true

/-- How a turn of `sys_waitpid` from label `repeat` ends. -/
inductive WaitEnd where
  /-- a zombie was released and its pid returned -/
  | reaped (child : Task)
  /-- another value is returned -/
  | ret (v : Int)
  /-- `schedule()` is called -/
  | block

/-- `EINTR`, `ECHILD` -/
def eintr : Int := 4
def echild : Int := 10

/-- `sys_waitpid(pid, stat, _)` from label `repeat`, up to a call of `schedule`. -/
def waitTurn (pid : Int) (stat : Nat) (s : State) : Res (WaitEnd × State) := do
  let cur ← s.get s.current
  match ← scan s cur pid slotsDown false with
  | .zombine p t =>
    let s := s.set s.current { cur with time := cur.time + t.time }
    -- an `int` stored through a `uint64_t *`
    let s := if stat ≠ 0 then { s with mem := Function.update s.mem stat (t.exitCode.signExtend 64) }
      else s
    let s ← release p s
    return (.reaped t, s)
  | .stop t => return (.ret t.pid, s)
  | .done true =>
    return (.block, s.set s.current { cur with state := .wait, inQueue := false })
  | .done false => return (.ret (-echild), s)

/-- `sys_waitpid` after `schedule()` has returned: whether it goes to `repeat`. -/
def waitResume (s : State) : Res (Bool × State) := do
  let cur ← s.get s.current
  let sig := cur.signal &&& ~~~sigChld
  return (sig = 0, s.set s.current { cur with signal := sig })

end Sched
