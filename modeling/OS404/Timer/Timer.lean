import OS404.Sched.Sched

/-!
# Software timers (`timer/timer.c`)

The entries of the timer list are pages that `add_timer` gets from `page_alloc` and never gives back.
`add_timer` does not set `next` of the page: it stays as it is in memory. A call of an entry's function
is put in a log with the address of the entry; the function itself changes nothing here. The loops over
the list are bounded by `fuel`.
-/

namespace Timer

open Sched (Ptr)

/-- `struct timer_list`; `fn` is an address. -/
structure TimerList where
  jiffies : UInt64
  fn : Nat
  delay : UInt64
  next : Ptr

/-- The variables of the scheduler and the timer list, which starts at `timer_head`. -/
structure Timers extends Sched.State where
  timerHead : Ptr
  timerHead_ne : timerHead ≠ 0
  list : Ptr → Option TimerList

/-- Reading `*p`. -/
def Timers.entry (s : Timers) (p : Ptr) : Res TimerList :=
  match s.list p with
  | some e => .ok e
  | none => .error .ub

/-- Writing `*p`. -/
def Timers.setEntry (s : Timers) (p : Ptr) (e : TimerList) : Timers :=
  { s with list := Function.update s.list p (some e) }

/-- The loop of `add_timer`: the last entry from `p` on. -/
def Timers.lastEntry (s : Timers) : Nat → Ptr → Res Ptr
  | 0, _ => .error .loop
  | fuel + 1, p => do
    let e ← s.entry p
    if e.next ≠ 0 then s.lastEntry fuel e.next else .ok p

/-- `add_timer(_jiffies, fn)`, where `page` is what `page_alloc(1)` returns and `raw` what is in it. -/
def addTimer (fuel : Nat) (delay : UInt64) (fn : Nat) (page : Ptr) (raw : TimerList) (s : Timers) :
    Res Timers :=
  if fn = 0 then .ok s
  else do
    let p ← s.lastEntry fuel s.timerHead
    let e ← s.entry p
    let s := s.setEntry p { e with next := page }
    if page = 0 then .error .ub
    else .ok (s.setEntry page { raw with jiffies := s.jiffies, delay := delay, fn := fn })

/-- The loop of `do_timer` over the entries behind `p`, at the time `now`: the calls in their order. -/
def Timers.callExpired (s : Timers) (now : UInt64) : Nat → Ptr → Res (List (Ptr × Nat))
  | 0, _ => .error .loop
  | fuel + 1, p => do
    let e ← s.entry p
    if e.next ≠ 0 then do
      let p := e.next
      let e ← s.entry p
      let calls ← s.callExpired now fuel p
      if e.fn = 0 then return calls
      else if e.jiffies + e.delay ≤ now then return (p, e.fn) :: calls
      else return calls
    else .ok []

/-- `timer_interrupt_handler`, up to a call of `schedule`: the state, the calls, and whether `schedule`
is called. The loop of `do_timer` is behind the first `timer_selfadd`, the rest of `do_timer` is the
scheduler's. -/
def timerInterruptHandler (fuel : Nat) (s : Timers) : Res (Timers × List (Ptr × Nat) × Bool) := do
  let calls ← s.callExpired (Sched.timerSelfadd s.toState).jiffies fuel s.timerHead
  let (st, sched) ← Sched.timerInterrupt s.toState
  return ({ s with toState := st }, calls, sched)

/-! ## The system -/

/-- What happens in the system. -/
inductive Event where
  | add (delay : UInt64) (fn : Nat) (page : Ptr)
  /-- a timer interrupt with its calls, and whether it calls `schedule` -/
  | tick (calls : List (Ptr × Nat)) (sched : Bool)
  /-- anything else that the kernel does between them -/
  | other

/-- A step of the system. The page for a new entry has no entry of the list in it. -/
inductive Step : Timers → Event → Timers → Prop
  | add {s s' : Timers} {delay : UInt64} {fn : Nat} {page : Ptr} (fuel : Nat) (raw : TimerList) :
      s.list page = none → addTimer fuel delay fn page raw s = .ok s' →
      Step s (.add delay fn page) s'
  | tick {s s' : Timers} {calls : List (Ptr × Nat)} {sched : Bool} (fuel : Nat) :
      timerInterruptHandler fuel s = .ok (s', calls, sched) → Step s (.tick calls sched) s'
  | other {s : Timers} (st : Sched.State) : st.jiffies = s.jiffies →
      Step s .other { s with toState := st }

/-- The timer interrupts of a run. -/
def ticks (es : List Event) : List (List (Ptr × Nat) × Bool) :=
  es.filterMap fun
    | .tick calls sched => some (calls, sched)
    | .add _ _ _ => none
    | .other => none

end Timer
