import OS404.Sched.Sys

/-!
# The system of tasks

One hart, interrupts off in the kernel: a system call or interrupt runs to its end or to its call
of `schedule()`. A state has, besides the scheduler's variables, whether the running task is at
such a call (`pend`), and for every task what it does when `schedule()` returns in it (`kont`). So
the states with `pend` are those just before `schedule()`, and `Op.schedule` leads to the state
just after it, in the task switched to.
-/

namespace Sched

/-- Where a task goes on. -/
inductive Kont where
  /-- in user mode -/
  | user
  /-- inside `sys_waitpid(pid, stat, _)`, after `schedule()` -/
  | waitpid (pid : Int) (stat : Nat)
  /-- nowhere: inside `do_exit` -/
  | dead
  deriving DecidableEq

structure Sys extends State where
  pend : Bool
  kont : Ptr → Kont

inductive Op where
  /-- `fork`, with the address of the new task structure -/
  | fork (p : Ptr)
  | exit (errorCode : BitVec 32)
  | waitpid (pid : Int) (stat : Nat)
  /-- going on in `sys_waitpid` after `schedule()` -/
  | resume
  | sleep
  | wakeup
  | tick
  /-- `schedule()`, with the addresses of the new queue nodes -/
  | schedule (fresh : List Ptr)

/-- What a step shows to the tasks. -/
inductive Event where
  | forked (pid child : Int)
  | exited (pid : Int) (errorCode : BitVec 32)
  /-- `sys_waitpid(_, stat, _)` of `pid` released `child` and returned its pid -/
  | reaped (pid child : Int) (stat : Nat)
  /-- `sys_waitpid` of `pid` returned another value -/
  | returned (pid v : Int)
  | slept (pid : Int)
  | quiet
  deriving DecidableEq

/-- What can happen next. -/
def Sys.Enabled (s : Sys) : Op → Prop
  | .schedule _ => s.pend = true
  | .resume => s.pend = false ∧ s.kont s.current ≠ .user
  | _ => s.pend = false ∧ s.kont s.current = .user

instance (s : Sys) : ∀ op, Decidable (s.Enabled op)
  | .schedule _ => inferInstanceAs (Decidable (_ = _))
  | .resume => inferInstanceAs (Decidable (_ ∧ _))
  | .fork _ => inferInstanceAs (Decidable (_ ∧ _))
  | .exit _ => inferInstanceAs (Decidable (_ ∧ _))
  | .waitpid _ _ => inferInstanceAs (Decidable (_ ∧ _))
  | .sleep => inferInstanceAs (Decidable (_ ∧ _))
  | .wakeup => inferInstanceAs (Decidable (_ ∧ _))
  | .tick => inferInstanceAs (Decidable (_ ∧ _))

/-- A turn of `sys_waitpid` from label `repeat`. -/
def Sys.wait (pid : Int) (stat : Nat) (s : Sys) : Res (Sys × Event) := do
  let cur ← s.get s.current
  let (e, st) ← waitTurn pid stat s.toState
  match e with
  | .reaped child =>
    return ({ s with toState := st, kont := Function.update s.kont s.current .user },
      .reaped cur.pid child.pid stat)
  | .ret v =>
    return ({ s with toState := st, kont := Function.update s.kont s.current .user },
      .returned cur.pid v)
  | .block =>
    return ({ s with
      toState := st, pend := true, kont := Function.update s.kont s.current (.waitpid pid stat) },
      .quiet)

/-- The effect of an operation. -/
def Sys.step (s : Sys) : Op → Res (Sys × Event)
  | .fork p => do
    let cur ← s.get s.current
    let (child, st) ← fork p s.toState
    return ({ s with toState := st, kont := Function.update s.kont p .user },
      .forked cur.pid child)
  | .exit errorCode => do
    let cur ← s.get s.current
    let st ← doExit errorCode s.toState
    return ({ s with toState := st, pend := true, kont := Function.update s.kont s.current .dead },
      .exited cur.pid errorCode)
  | .waitpid pid stat => s.wait pid stat
  | .resume =>
    match s.kont s.current with
    | .waitpid pid stat => do
      let cur ← s.get s.current
      let (again, st) ← waitResume s.toState
      if again then Sys.wait pid stat { s with toState := st }
      else
        return ({ s with toState := st, kont := Function.update s.kont s.current .user },
          .returned cur.pid (-eintr))
    | _ => .error .ub
  | .sleep => do
    let cur ← s.get s.current
    let st ← sleep s.toState
    return ({ s with toState := st, pend := true }, .slept cur.pid)
  | .wakeup => do
    let st ← wakeup s.toState
    return ({ s with toState := st }, .quiet)
  | .tick => do
    let (st, pend) ← timerInterrupt s.toState
    return ({ s with toState := st, pend := pend }, .quiet)
  | .schedule fresh => do
    let st ← schedule fresh s.toState
    return ({ s with toState := st, pend := false }, .quiet)

/-- One step of the system. -/
def SysStep (s : Sys) (e : Event) (s' : Sys) : Prop := ∃ op, s.Enabled op ∧ s.step op = .ok (s', e)

/-- One step of the system by the operation `op`. -/
def OpStep (s : Sys) (op : Op) (s' : Sys) : Prop := s.Enabled op ∧ ∃ e, s.step op = .ok (s', e)

/-- The system at boot, with `init_task` at `p`. -/
def Sys.boot (p : Ptr) : Sys := { State.boot p with pend := false, kont := fun _ => .user }

end Sched
