import OS404.Driver.Buffer
import OS404.Driver.Virtio

/-!
# The data that the virtio driver moves

`DataSystem` is `DiskSystem` with the contents of the buffers and of the disk. When the device takes
a head, it reads the request that the chain's header points to (`fetched`). Before it completes the
chain, it moves a sector between the disk and the buffer that the next descriptor points to, in the
direction that the request and the descriptor's flag agree on. Tasks write to the buffers at any time.

`AtomicDisk` says what `virtio_disk_rw` is for. It has no descriptors and no rings: a call asks for a
transfer, the transfer is made at one moment, and then the call returns. A call is named by the head
of its chain.

Both show their steps as a `DataEvent`.
-/

namespace Driver

instance : DecidableEq Sector := fun v w =>
  decidable_of_iff (∀ i, v i = w i) funext_iff.symm

/-- The contents of the buffers and of the disk. -/
structure Contents where
  data : Nat → Sector
  sectors : Nat → Sector

/-- A transfer of a sector: to the disk if `write`, else to the buffer. -/
structure Transfer where
  buf : Nat
  sector : Nat
  write : Bool
  deriving DecidableEq

def Transfer.apply (t : Transfer) (m : Contents) : Contents :=
  if t.write then { m with sectors := Function.update m.sectors t.sector (m.data t.buf) }
  else { m with data := Function.update m.data t.buf (m.sectors t.sector) }

/-- A task writes to the data of buffer `buf`. -/
def Contents.fill (m : Contents) (buf : Nat) (v : Sector) : Contents :=
  { m with data := Function.update m.data buf v }

/-- The transfer that the device reads from the chain with head `i₀`: `VIRTIO_BLK_T_IN` goes to memory
that the device may write, `VIRTIO_BLK_T_OUT` comes from memory that it may only read. -/
def VirtDisk.transfer (d : VirtDisk) (i₀ : Nat) : Option Transfer :=
  let data := d.desc (d.desc i₀).next
  match (d.desc i₀).addr, data.addr with
  | .ops i, .data buf =>
    let req := d.ops i
    if req.type = 0 ∧ data.flags &&& descFWrite ≠ 0 then
      some { buf, sector := req.sector, write := false }
    else if req.type = 1 ∧ data.flags &&& descFWrite = 0 then
      some { buf, sector := req.sector, write := true }
    else none
  | _, _ => none

/-- What a step shows. -/
inductive DataEvent where
  /-- a call of `virtio_disk_rw` has submitted its request -/
  | asked (i₀ : Nat) (t : Transfer)
  /-- the device has made the transfer that it read from a chain -/
  | moved (i₀ : Nat) (t : Option Transfer)
  /-- a call of `virtio_disk_rw` has returned -/
  | returned (i₀ : Nat)
  | filled (buf : Nat) (v : Sector)
  | quiet
  deriving DecidableEq

/-! ## The driver and the device -/

structure DataSystem where
  sys : DiskSystem
  mem : Contents
  fetched : Nat → Option Transfer

inductive DataOp where
  | disk (op : DiskOp)
  | fill (buf : Nat) (v : Sector)

namespace DataSystem

/-- After `Init_virtio`, with the given contents. -/
def init (m : Contents) : DataSystem := { sys := .init, mem := m, fetched := fun _ => none }

/-- The contents after a step of the driver or the device. -/
def memAfter (s : DataSystem) : DiskOp → Contents
  | .complete i₀ =>
    match s.fetched i₀ with
    | some t => t.apply s.mem
    | none => s.mem
  | _ => s.mem

/-- What the device has read after a step. -/
def fetchedAfter (s : DataSystem) : DiskOp → Nat → Option Transfer
  | .take =>
    let i₀ := s.sys.disk.avail.ring (s.sys.seen % queueSize)
    Function.update s.fetched i₀ (s.sys.disk.transfer i₀)
  | _ => s.fetched

/-- What a step of the driver or the device shows. -/
def event (s : DataSystem) : DiskOp → DataEvent
  | .rw buf blockNo rw =>
    match s.sys.rw buf blockNo rw with
    | .ok (some r, _) => .asked r.i₀ { buf, sector := blockNo, write := rw }
    | _ => .quiet
  | .complete i₀ => .moved i₀ (s.fetched i₀)
  | .resume i₀ => .returned i₀
  | _ => .quiet

/-- A step; `none` when it is not possible. -/
def step (s : DataSystem) : DataOp → Option (Res (DataEvent × DataSystem))
  | .disk op => (s.sys.step op).map fun res =>
      res.map fun sys => (s.event op, { sys, mem := s.memAfter op, fetched := s.fetchedAfter op })
  | .fill buf v => some (.ok (.filled buf v, { s with mem := s.mem.fill buf v }))

end DataSystem

/-! ## The atomic disk -/

/-- Where a call is. -/
inductive Phase where
  | idle
  | asked (t : Transfer)
  | moved

structure AtomicDisk where
  mem : Contents
  phase : Nat → Phase

namespace AtomicDisk

def init (m : Contents) : AtomicDisk := { mem := m, phase := fun _ => .idle }

inductive Step (a : AtomicDisk) : DataEvent → AtomicDisk → Prop
  | asked {i₀ : Nat} {t : Transfer} (h : a.phase i₀ = .idle) :
      Step a (.asked i₀ t) { a with phase := Function.update a.phase i₀ (.asked t) }
  | moved {i₀ : Nat} {t : Transfer} (h : a.phase i₀ = .asked t) :
      Step a (.moved i₀ (some t)) { mem := t.apply a.mem, phase := Function.update a.phase i₀ .moved }
  | returned {i₀ : Nat} (h : a.phase i₀ = .moved) :
      Step a (.returned i₀) { a with phase := Function.update a.phase i₀ .idle }
  | filled {buf : Nat} {v : Sector} : Step a (.filled buf v) { a with mem := a.mem.fill buf v }
  | quiet : Step a .quiet a

end AtomicDisk

end Driver
