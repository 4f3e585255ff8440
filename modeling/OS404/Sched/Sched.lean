import OS404.Sched.Task

/-!
# The scheduler (`kernel/sched/sched.c`, `timer/timer.c`)

`schedule()` is `alterState`, then `setQueue`, then `dispatch`. `malloc` in `set_Queue` returns an
address that is not in use; which one is an argument, the next of the list `fresh`.
-/

namespace Sched

/-! ## `alter_state` -/

/-- One task in `alter_state`. -/
def alterTask (t : Task) : Task :=
  if t.state = .wait ∧ t.signal &&& ~~~sigStop ≠ 0 then { t with state := .ready, signal := 0 } else t

def alterState (s : State) : Res State := s.forTasks alterTask slotsDown

/-! ## `set_Queue` -/

/-- `malloc(sizeof(struct Queue))` -/
def mallocNode (s : State) : List Ptr → Res (Ptr × List Ptr)
  | [] => .error .ub
  | q :: fresh => if q ≠ 0 ∧ s.nodes q = none then .ok (q, fresh) else .error .ub

/-- The new last node `q` of queue `order`. -/
def linkTail (order : Nat) (q : Ptr) (n : QNode) (s : State) : Res State :=
  if s.head order = 0 then
    .ok { s.setNode q n with
      head := Function.update s.head order q, tail := Function.update s.tail order q }
  else do
    let last ← s.getNode (s.tail order)
    let s := s.setNode (s.tail order) { last with next := q }
    return { s.setNode q n with tail := Function.update s.tail order q }

/-- The queue that `set_Queue` puts `t` in: a task that used up its time goes one down. -/
def nextOrder (t : Task) : Nat :=
  if t.order < 4 ∧ t.state = .running then t.order + 1 else t.order

/-- The task that `set_Queue` has queued. -/
def queuedTask (t : Task) : Task :=
  { t with
    state := .ready, inQueue := true, order := nextOrder t, counter := counterOf (nextOrder t) }

/-- The branch of `set_Queue` that puts `*p` at the end of its queue. -/
def enqueue (p : Ptr) (fresh : List Ptr) (s : State) : Res (State × List Ptr) := do
  let t ← s.get p
  -- the arrays have five entries
  if 5 ≤ nextOrder t then .error .ub
  else
    let (q, fresh) ← mallocNode s fresh
    let s ← linkTail (nextOrder t) q ⟨t.pid, p, 0⟩ s
    return (s.set p (queuedTask t), fresh)

/-- The search of the removing branch: the node with `pid` and the one before it. -/
def findNode (s : State) (pid : Int) : Nat → Ptr → Ptr → Res (Ptr × Ptr)
  | 0, _, _ => .error .loop
  | fuel + 1, last, q => do
    let n ← s.getNode q
    if n.pid = pid then .ok (last, q)
    else if n.next ≠ 0 then findNode s pid fuel q n.next
    else .error (.panic "error in remove task from ready queue!?\n")

/-- The branch of `set_Queue` that takes the task of slot `i` off its queue. It compares with and
sets `tail[i]`. -/
def removeTask (i : Nat) (s : State) : Res State := do
  let t ← s.get (s.task i)
  if 5 ≤ t.order then .error .ub
  else
    let (last, q) ← findNode s t.pid maxTask 0 (s.head t.order)
    let n ← s.getNode q
    let s ← (if last = 0 then .ok { s with head := Function.update s.head t.order n.next }
      else do
        let l ← s.getNode last
        .ok (s.setNode last { l with next := n.next }) : Res State)
    if 5 ≤ i then .error .ub
    else
      let s := if q = s.tail i then { s with tail := Function.update s.tail i last } else s
      return { s with nodes := Function.update s.nodes q none }

/-- One turn of the loop of `set_Queue`, with the removing branch as an argument. The test
`order < 0` never holds of an unsigned `char`. -/
def setQueueSlot (remove : Nat → State → Res State) (i : Nat) (fresh : List Ptr) (s : State) :
    Res (State × List Ptr) :=
  if s.task i = 0 then .ok (s, fresh)
  else do
    let t ← s.get (s.task i)
    if t.inQueue = false then
      if t.state = .ready ∨ t.state = .running then enqueue (s.task i) fresh s else .ok (s, fresh)
    else if t.state = .running ∨ t.state = .ready then .ok (s, fresh)
    else do
      let s ← remove i s
      return (s, fresh)

def setQueueLoop (remove : Nat → State → Res State) :
    List Nat → List Ptr → State → Res (State × List Ptr)
  | [], fresh, s => .ok (s, fresh)
  | i :: is, fresh, s => do
    let (s, fresh) ← setQueueSlot remove i fresh s
    setQueueLoop remove is fresh s

/-- `set_Queue` with any code in the place of its removing branch. -/
def setQueueWith (remove : Nat → State → Res State) (fresh : List Ptr) (s : State) :
    Res (State × List Ptr) := setQueueLoop remove slotsDown fresh s

def setQueue : List Ptr → State → Res (State × List Ptr) := setQueueWith removeTask

/-! ## `schedule` -/

/-- The loop of `schedule` over the queues from `k` on, `n` of them. -/
def firstQueue (s : State) : Nat → Nat → Option Nat
  | 0, _ => none
  | n + 1, k => if s.head k = 0 then firstQueue s n (k + 1) else some k

/-- The rest of `schedule`: the first task of the first queue that has one, else task 0. -/
def dispatch (s : State) : Res State :=
  match firstQueue s 5 0 with
  | none => .ok { s with current := s.task 0 }
  | some k => do
    let q := s.head k
    let n ← s.getNode q
    let s := { s with head := Function.update s.head k n.next }
    let s ← s.modify n.task fun t => { t with inQueue := false, state := .running }
    return { s with nodes := Function.update s.nodes q none, current := n.task }

/-- `schedule()`, up to its return in the task it switches to. -/
def schedule (fresh : List Ptr) (s : State) : Res State := do
  let s ← alterState s
  let (s, _) ← setQueue fresh s
  dispatch s

/-! ## Sleeping and waking -/

/-- `sleep`, up to its call of `schedule`. -/
def sleep (s : State) : Res State :=
  s.modify s.current fun t => { t with state := .wait, signal := t.signal ||| sigStop }

/-- One task in `wakeup`. -/
def wakeTask (t : Task) : Task :=
  if t.signal &&& sigStop = sigStop then
    { t with signal := (t.signal &&& ~~~sigStop) ||| sigCont }
  else t

def wakeup (s : State) : Res State := s.forTasks wakeTask slotsDown

/-! ## The timer -/

/-- `timer_selfadd` -/
def timerSelfadd (s : State) : State := { s with jiffies := s.jiffies + 1 }

/-- `timer_interrupt_handler`, up to a call of `schedule`; the flag says whether it is made. -/
def timerInterrupt (s : State) : Res (State × Bool) := do
  let s := timerSelfadd s
  let t ← s.get s.current
  let t := { t with time := t.time + 1 }
  if t.pid ≠ 0 then
    let t := { t with counter := t.counter - 1 }
    let s := s.set s.current t
    if t.counter > 0 ∧ (t.state = .running ∨ t.state = .ready) then .ok (timerSelfadd s, false)
    else .ok (s, true)
  else .ok (s.set s.current t, true)

end Sched
