import OS404.Basic
import OS404.Lib.BlockProg
import OS404.Lib.ByteMem

/-!
# The buffer cache (`driver/buffer.c`)

A buffer is named by its index in `buffer_cache.buf`. `virtio_disk_rw` is one transfer of a whole
sector between the buffer and the disk; it looks only at the buffer's `block_no`. The links `next`
and `last` are not part of a buffer: `brelse` moves them for a buffer with `refcnt` 0 and nothing
follows them.

`refcnt` is a 64-bit counter that only `bget` changes, by one.
-/

namespace Driver

/-- `BUFFER_NUM`. -/
def bufferNum : Nat := 30

/-- The 512 bytes of a sector (`BLOCK_SIZE`, `BUFFER_SIZE`). -/
abbrev Sector := BitVec 9 → BitVec 8

/-- `struct buffer`. -/
structure Buffer where
  valid : Bool
  dev : Nat
  blockNo : Nat
  refcnt : Nat
  data : Sector
  dirty : Bool

/-- `buffer_cache`, and the disk behind it. -/
structure BufferCache where
  buf : Nat → Buffer
  disk : Nat → Sector

namespace BufferCache

/-- Replacing buffer `i`. -/
def put (c : BufferCache) (i : Nat) (b : Buffer) : BufferCache :=
  { c with buf := Function.update c.buf i b }

/-- The first buffer of `is` with `p`. -/
def search (c : BufferCache) (p : Buffer → Bool) (is : List Nat) : Option Nat :=
  is.find? fun i => p (c.buf i)

/-- `bget`. The first search stops before the last buffer, the second goes down from it. -/
def bget (c : BufferCache) (dev blockNo : Nat) : Res (Nat × BufferCache) :=
  match c.search (fun b => b.dev == dev && b.blockNo == blockNo) (List.range (bufferNum - 1)) with
  | some i => .ok (i, c.put i { c.buf i with refcnt := (c.buf i).refcnt + 1 })
  | none =>
    match c.search (fun b => b.refcnt == 0) (List.range bufferNum).reverse with
    | some i =>
      let b := { c.buf i with dev, blockNo, valid := false, refcnt := (c.buf i).refcnt + 1 }
      .ok (i, c.put i b)
    | none => .error (.panic "no free buffer to get\n")

/-- `virtio_disk_rw(buf, READ)`. -/
def diskRead (c : BufferCache) (i : Nat) : BufferCache :=
  c.put i { c.buf i with data := c.disk (c.buf i).blockNo }

/-- `virtio_disk_rw(buf, WRITE)`. -/
def diskWrite (c : BufferCache) (i : Nat) : BufferCache :=
  { c with disk := Function.update c.disk (c.buf i).blockNo (c.buf i).data }

/-- `bread`. -/
def bread (c : BufferCache) (dev blockNo : Nat) : Res (Nat × BufferCache) := do
  let (i, c) ← c.bget dev blockNo
  if (c.buf i).valid then
    return (i, c)
  let c := c.diskRead i
  return (i, c.put i { c.buf i with valid := true, dirty := false })

/-- `bwrite`. -/
def bwrite (c : BufferCache) (i : Nat) : BufferCache := c.put i { c.buf i with dirty := true }

/-- `brelse`. -/
def brelse (c : BufferCache) (i : Nat) : BufferCache :=
  if (c.buf i).dirty then
    let c := c.diskWrite i
    c.put i { c.buf i with dirty := false }
  else c

/-- `bread`, a look at the data, `brelse`. -/
def readBlock (c : BufferCache) (dev blockNo : Nat) : Res (Sector × BufferCache) := do
  let (i, c) ← c.bread dev blockNo
  return ((c.buf i).data, c.brelse i)

/-- `bread`, a change of the data, `bwrite`, `brelse`. -/
def modifyBlock (c : BufferCache) (dev blockNo : Nat) (f : Sector → Sector) : Res BufferCache := do
  let (i, c) ← c.bread dev blockNo
  let c := c.put i { c.buf i with data := f (c.buf i).data }
  return (c.bwrite i).brelse i

/-- The cache as a handler of the block requests to device `dev`. -/
def handler (dev : Nat) : Lib.Handler Fault Sector BufferCache where
  read b c := c.readBlock dev b
  modify b f c := c.modifyBlock dev b f

/-- The cache after `Init_buffer`, which sets only the links in zeroed memory. -/
def zeroed (disk : Nat → Sector) : BufferCache where
  buf _ := { valid := false, dev := 0, blockNo := 0, refcnt := 0, data := fun _ => 0, dirty := false }
  disk

end BufferCache

end Driver
