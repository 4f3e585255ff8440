import OS404.Basic
import Mathlib.Logic.Function.Basic

/-!
# The virtio disk driver (`driver/virtio.c`)

The arrays of `struct virt_disk` are functions of the index; the code's own bounds check of
`free_desc` and the accesses outside `QUEUE_SIZE` are kept. A descriptor's `addr` names what it
points to. `bufDisk` has the `disk` fields of the buffers, which the driver shares with the waiting
requesters.

`virtio_disk_rw` is cut at its wait: `rwStart` is one try of `alloc_descs` and, when it succeeds,
everything up to the notification of the device; `rwEnd` is what follows the wait for `buf->disk`
to be 0.

`DiskSystem` puts the driver together with the device and the requesters. The device takes heads
from the available ring and reads their chains (`taken` has the head and where the status goes),
works on them in any order, and puts each into the used ring with status 0. `requests` are those whose requester has not resumed; `completed` and `consumed`
record the heads that the device put into the used ring and that the interrupt handler read from it,
and `freed` the requests whose chains were freed.
-/

namespace Driver

/-- `QUEUE_SIZE`. -/
def queueSize : Nat := 8

/-- `VIRTQ_DESC_F_NEXT`. -/
def descFNext : Nat := 1

/-- `VIRTQ_DESC_F_WRITE`. -/
def descFWrite : Nat := 2

/-- What the `addr` of a descriptor points to: nothing, `ops[i]`, the data of a buffer, or
`info[i].status`. -/
inductive DescAddr where
  | null
  | ops (i : Nat)
  | data (buf : Nat)
  | status (i : Nat)
  deriving DecidableEq

/-- `struct virtq_desc`. -/
structure VirtqDesc where
  addr : DescAddr
  len : Nat
  flags : Nat
  next : Nat

/-- `struct virtq_avail`. -/
structure VirtqAvail where
  idx : Nat
  ring : Nat → Nat

/-- `struct virtq_used`, with the `id` of each element. -/
structure VirtqUsed where
  idx : Nat
  ring : Nat → Nat

/-- `struct virtio_blk_req`. -/
structure VirtioBlkReq where
  type : Nat
  reserved : Nat
  sector : Nat

/-- An entry of `info`. -/
structure Info where
  buf : Option Nat
  status : Nat

/-- `struct virt_disk`, and `buf->disk` of every buffer. -/
structure VirtDisk where
  desc : Nat → VirtqDesc
  avail : VirtqAvail
  used : VirtqUsed
  free : Nat → Bool
  usedIdx : Nat
  info : Nat → Info
  ops : Nat → VirtioBlkReq
  bufDisk : Nat → Bool

namespace VirtDisk

/-- A descriptor with all fields 0. -/
def noDesc : VirtqDesc := { addr := .null, len := 0, flags := 0, next := 0 }

/-- After `Init_virtio`. -/
def init : VirtDisk where
  desc _ := noDesc
  avail := { idx := 0, ring := fun _ => 0 }
  used := { idx := 0, ring := fun _ => 0 }
  free _ := true
  usedIdx := 0
  info _ := { buf := none, status := 0 }
  ops _ := { type := 0, reserved := 0, sector := 0 }
  bufDisk _ := false

/-! ## Descriptors -/

/-- `free_desc`. -/
def freeDesc (d : VirtDisk) (i : Nat) : Res VirtDisk :=
  if queueSize < i then .error (.panic "free descriptor overflow\n")
  -- The bound lets `free[QUEUE_SIZE]` through, one past the array.
  else if i = queueSize then .error .ub
  else if d.free i then .error (.panic "free descriptor error\n")
  else .ok { d with
    desc := Function.update d.desc i noDesc
    free := Function.update d.free i true }

/-- `free_chain`; a chain visits a descriptor once, since `free_desc` panics on a free one. -/
def freeChain : Nat → VirtDisk → Nat → Res VirtDisk
  | 0, _, _ => .error .loop
  | fuel + 1, d, i =>
    let flag := (d.desc i).flags
    let next := (d.desc i).next
    match d.freeDesc i with
    | .error e => .error e
    | .ok d => if flag &&& descFNext ≠ 0 then freeChain fuel d next else .ok d

/-- `alloc_desc`. -/
def allocDesc (d : VirtDisk) : Option (Nat × VirtDisk) :=
  match (List.range queueSize).find? d.free with
  | some i => some (i, { d with free := Function.update d.free i false })
  | none => none

/-- The loop of `alloc_descs`, with the descriptors it has in `index`. -/
def allocDescsLoop : Nat → List Nat → VirtDisk → Res (Option (List Nat) × VirtDisk)
  | 0, index, d => .ok (some index, d)
  | n + 1, index, d =>
    match d.allocDesc with
    | some (i, d) => allocDescsLoop n (index ++ [i]) d
    | none => do
      let d ← index.foldlM freeDesc d
      return (none, d)

/-- `alloc_descs`. -/
def allocDescs (d : VirtDisk) : Res (Option (List Nat) × VirtDisk) := allocDescsLoop 3 [] d

end VirtDisk

/-! ## Requests -/

/-- A request for a buffer, with its three descriptors, and whether the device has completed it. -/
structure Request where
  buf : Nat
  i₀ : Nat
  i₁ : Nat
  i₂ : Nat
  completed : Bool
  deriving DecidableEq

namespace Request

def descs (r : Request) : List Nat := [r.i₀, r.i₁, r.i₂]

end Request

namespace VirtDisk

/-- `virtio_disk_rw` between `alloc_descs` and the wait. -/
def submit (d : VirtDisk) (buf blockNo : Nat) (rw : Bool) (i₀ i₁ i₂ : Nat) : VirtDisk :=
  let header : VirtqDesc := { addr := .ops i₀, len := 16, flags := descFNext, next := i₁ }
  let data : VirtqDesc :=
    { addr := .data buf, len := 512, flags := (if rw then 0 else descFWrite) ||| descFNext, next := i₂ }
  let status : VirtqDesc := { addr := .status i₀, len := 1, flags := descFWrite, next := 0 }
  { d with
    ops := Function.update d.ops i₀
      { type := if rw then 1 else 0, reserved := 0, sector := blockNo * (512 / 512) }
    desc := Function.update (Function.update (Function.update d.desc i₀ header) i₁ data) i₂ status
    info := Function.update d.info i₀ { buf := some buf, status := 0xff }
    bufDisk := Function.update d.bufDisk buf true
    avail := {
      idx := (d.avail.idx + 1) % 2 ^ 16
      ring := Function.update d.avail.ring (d.avail.idx % queueSize) i₀ } }

/-- One turn of `virtio_disk_rw` before the wait: `none` when `alloc_descs` failed. -/
def rwStart (d : VirtDisk) (buf blockNo : Nat) (rw : Bool) : Res (Option Request × VirtDisk) := do
  match ← d.allocDescs with
  | (some [i₀, i₁, i₂], d) =>
    return (some { buf, i₀, i₁, i₂, completed := false }, d.submit buf blockNo rw i₀ i₁ i₂)
  | (_, d) => return (none, d)

/-- `virtio_disk_rw` after the wait. -/
def rwEnd (d : VirtDisk) (i₀ : Nat) : Res VirtDisk :=
  freeChain (queueSize + 1)
    { d with info := Function.update d.info i₀ { d.info i₀ with buf := none } } i₀

/-- One turn of the loop of `virtio_disk_interrupt_handler`, with the `id` it read. -/
def handle (d : VirtDisk) : Res (Nat × VirtDisk) :=
  let id := d.used.ring (d.usedIdx % queueSize)
  if queueSize ≤ id then .error .ub
  else if (d.info id).status ≠ 0 then .error (.panic "disk interrupt status\n")
  else
    match (d.info id).buf with
    | none => .error .ub
    | some buf => .ok (id, { d with
        bufDisk := Function.update d.bufDisk buf false
        usedIdx := (d.usedIdx + 1) % 2 ^ 16 })

/-- `virtio_disk_interrupt_handler` up to its `wakeup`. -/
def virtioDiskInterruptHandler : Nat → VirtDisk → Res VirtDisk
  | 0, _ => .error .loop
  | fuel + 1, d =>
    if d.usedIdx = d.used.idx then .ok d
    else
      match d.handle with
      | .error e => .error e
      | .ok (_, d) => virtioDiskInterruptHandler fuel d

/-- Where the device will write the status of the chain from `i₀`: it follows two links. -/
def statusAddr (d : VirtDisk) (i₀ : Nat) : DescAddr := (d.desc (d.desc (d.desc i₀).next).next).addr

/-- The device completes the chain from `i₀`: it writes 0 to its status and puts the head into the
used ring. -/
def complete (d : VirtDisk) (i₀ : Nat) (status : DescAddr) : VirtDisk :=
  { d with
    info :=
      match status with
      | .status i => Function.update d.info i { d.info i with status := 0 }
      | _ => d.info
    used := {
      idx := (d.used.idx + 1) % 2 ^ 16
      ring := Function.update d.used.ring (d.used.idx % queueSize) i₀ } }

end VirtDisk

/-! ## The driver, the device and the requesters -/

/-- The driver with the device and the requests (module doc). -/
structure DiskSystem where
  disk : VirtDisk
  seen : Nat
  taken : List (Nat × DescAddr)
  requests : List Request
  completed : List Nat
  consumed : List Nat
  freed : List Request

inductive DiskOp where
  | rw (buf blockNo : Nat) (rw : Bool)
  | take
  | complete (i₀ : Nat)
  | interrupt
  | resume (i₀ : Nat)
  deriving DecidableEq

namespace DiskSystem

/-- After `Init_virtio`, with nothing requested. -/
def init : DiskSystem :=
  { disk := .init, seen := 0, taken := [], requests := [], completed := [], consumed := [],
    freed := [] }

/-- A turn of a requester in `virtio_disk_rw` before the wait. -/
def rw (s : DiskSystem) (buf blockNo : Nat) (rw : Bool) : Res (Option Request × DiskSystem) := do
  let (r, disk) ← s.disk.rwStart buf blockNo rw
  return (r, { s with disk, requests := s.requests ++ r.toList })

/-- The device takes the next head from the available ring. -/
def take (s : DiskSystem) : Option DiskSystem :=
  if s.seen = s.disk.avail.idx then none
  else
    let i₀ := s.disk.avail.ring (s.seen % queueSize)
    some { s with
      seen := (s.seen + 1) % 2 ^ 16
      taken := s.taken ++ [(i₀, s.disk.statusAddr i₀)] }

/-- The device completes a request that it has taken. -/
def complete (s : DiskSystem) (i₀ : Nat) : Option DiskSystem :=
  match s.taken.find? (·.1 == i₀) with
  | none => none
  | some t =>
    some { s with
      disk := s.disk.complete i₀ t.2
      taken := s.taken.erase t
      requests := s.requests.map fun r => if r.i₀ = i₀ then { r with completed := true } else r
      completed := s.completed ++ [i₀] }

/-- A turn of the interrupt handler's loop, while the loop goes on. -/
def interrupt (s : DiskSystem) : Option (Res DiskSystem) :=
  if s.disk.usedIdx = s.disk.used.idx then none
  else some do
    let (id, disk) ← s.disk.handle
    return { s with disk, consumed := s.consumed ++ [id] }

/-- The requester of `r` goes on after its wait. -/
def resume (s : DiskSystem) (r : Request) : Res DiskSystem := do
  let disk ← s.disk.rwEnd r.i₀
  return { s with disk, requests := s.requests.erase r, freed := s.freed ++ [r] }

/-- The request with head `i₀`. -/
def request (s : DiskSystem) (i₀ : Nat) : Option Request := s.requests.find? (·.i₀ == i₀)

/-- A step of the system; `none` when it is not possible. A requester resumes when its buffer's
`disk` is 0. -/
def step (s : DiskSystem) : DiskOp → Option (Res DiskSystem)
  | .rw buf blockNo rw => some ((s.rw buf blockNo rw).map Prod.snd)
  | .take => s.take.map .ok
  | .complete i₀ => (s.complete i₀).map .ok
  | .interrupt => s.interrupt
  | .resume i₀ =>
    match s.request i₀ with
    | none => none
    | some r => if s.disk.bufDisk r.buf then none else some (s.resume r)

end DiskSystem

end Driver
