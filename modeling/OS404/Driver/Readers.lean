import OS404.Driver.Buffer
import OS404.Driver.Virtio

/-!
# Tasks in `bread`

Tasks call `bread` side by side. A call is cut where another task may run: it looks the buffer up
and, when it is not valid, submits a read; it tries again while there are too few descriptors
(`spinning`); it waits for `buf->disk` to be 0 and sleeps while it is not (`waiting`); it ends by
freeing the chain and marking the buffer valid. The interrupt handler's loop and the `wakeup` after
it are the step `interrupt`. `returned` records the calls that returned, with the `valid` that they
read and the request that they waited for. The contents of the sectors are left out.
-/

namespace Driver

/-- Where a task is: outside `bread`, without descriptors for buffer `i`, or waiting for the request
with head `i₀` on buffer `i`. -/
inductive Reader where
  | idle
  | spinning (i : Nat)
  | waiting (i₀ i : Nat) (asleep : Bool)
  deriving DecidableEq

/-- A call of `bread` that returned. -/
structure Return where
  task : Nat
  buf : Nat
  valid : Bool
  request : Option Request
  deriving DecidableEq

structure Readers where
  cache : BufferCache
  sys : DiskSystem
  task : Nat → Reader
  returned : List Return

inductive ReaderOp where
  | bread (t dev blockNo : Nat)
  | retry (t : Nat)
  | run (t : Nat)
  | take
  | complete (i₀ : Nat)
  | interrupt
  deriving DecidableEq

namespace Reader

/-- `wakeup` for one task. -/
def wakeup : Reader → Reader
  | .waiting i₀ i _ => .waiting i₀ i false
  | r => r

end Reader

namespace Readers

/-- After `Init_buffer` and `Init_virtio`, with every task outside `bread`. -/
def init (disk : Nat → Sector) : Readers :=
  { cache := .zeroed disk, sys := .init, task := fun _ => .idle, returned := [] }

/-- `disk_rw(buf, READ)` of task `t` before its wait. -/
def diskRw (s : Readers) (t i : Nat) : Res Readers := do
  let (r, sys) ← s.sys.rw i (s.cache.buf i).blockNo false
  match r with
  | some r => return { s with sys, task := Function.update s.task t (.waiting r.i₀ i false) }
  | none => return { s with sys, task := Function.update s.task t (.spinning i) }

/-- `bread` of task `t` up to its wait. -/
def bread (s : Readers) (t dev blockNo : Nat) : Res Readers := do
  let (i, cache) ← s.cache.bget dev blockNo
  if (cache.buf i).valid then
    return { s with
      cache, returned := s.returned ++ [{ task := t, buf := i, valid := true, request := none }] }
  else diskRw { s with cache } t i

/-- `bread` of task `t` after its wait for request `r` on buffer `i`. -/
def finish (s : Readers) (t i : Nat) (r : Request) : Res Readers := do
  let sys ← s.sys.resume r
  return { s with
    sys
    cache := s.cache.put i { s.cache.buf i with valid := true, dirty := false }
    task := Function.update s.task t .idle
    returned := s.returned ++ [{ task := t, buf := i, valid := false, request := some r }] }

/-- A step of the system; `none` when it is not possible. -/
def step (s : Readers) : ReaderOp → Option (Res Readers)
  | .bread t dev blockNo => if s.task t = .idle then some (s.bread t dev blockNo) else none
  | .retry t =>
    match s.task t with
    | .spinning i => some (s.diskRw t i)
    | _ => none
  | .run t =>
    match s.task t with
    | .waiting i₀ i false =>
      if s.sys.disk.bufDisk i then
        some (.ok { s with task := Function.update s.task t (.waiting i₀ i true) })
      else (s.sys.request i₀).map fun r => s.finish t i r
    | _ => none
  | .take => s.sys.take.map fun sys => .ok { s with sys }
  | .complete i₀ => (s.sys.complete i₀).map fun sys => .ok { s with sys }
  | .interrupt =>
    match s.sys.interrupt with
    | some res => some (res.map fun sys => { s with sys })
    | none => some (.ok { s with task := fun t => (s.task t).wakeup })

end Readers

end Driver
