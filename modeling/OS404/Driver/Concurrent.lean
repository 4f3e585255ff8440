import OS404.Driver.Buffer
import OS404.Lock.Spin

/-!
# `bget` on several harts (`driver/buffer.c`)

`bget` one access to `buffer_cache` at a time, between its `spin_lock` and its `spin_unlock`. The
accesses of the callers, on any number of harts and in any tasks, are interleaved in any order.
-/

namespace Driver

open BufferCache

/-- Where a call of `bget` is. -/
inductive BgetAt where
  /-- the first loop at buffer `i`, in front of `buf->dev == dev` -/
  | first (dev blockNo i : Nat)
  /-- in front of `buf->block_no == block_no` -/
  | sameBlock (dev blockNo i : Nat)
  /-- the second loop, with the buffers below `n` left -/
  | second (dev blockNo n : Nat)
  | setDev (dev blockNo i : Nat)
  | setBlockNo (blockNo i : Nat)
  | setValid (i : Nat)
  /-- `buf->refcnt++`, in front of the load -/
  | loadRefcnt (i : Nat)
  | storeRefcnt (i v : Nat)
  /-- at the `spin_unlock`, with the buffer that will be returned -/
  | unlock (i : Nat)
  /-- in `panic`, which does not return -/
  | panic
  deriving DecidableEq

/-- One access of `bget`; `none` at its `spin_unlock`. -/
def bgetWork : BgetAt → BufferCache → Option (BgetAt × BufferCache)
  | .first dev b i, c =>
    if i < bufferNum - 1 then
      if (c.buf i).dev == dev then some (.sameBlock dev b i, c) else some (.first dev b (i + 1), c)
    else some (.second dev b bufferNum, c)
  | .sameBlock dev b i, c =>
    if (c.buf i).blockNo == b then some (.loadRefcnt i, c) else some (.first dev b (i + 1), c)
  | .second _ _ 0, c => some (.panic, c)
  | .second dev b (n + 1), c =>
    if (c.buf n).refcnt == 0 then some (.setDev dev b n, c) else some (.second dev b n, c)
  | .setDev dev b i, c => some (.setBlockNo b i, c.put i { c.buf i with dev })
  | .setBlockNo b i, c => some (.setValid i, c.put i { c.buf i with blockNo := b })
  | .setValid i, c => some (.loadRefcnt i, c.put i { c.buf i with valid := false })
  | .loadRefcnt i, c => some (.storeRefcnt i ((c.buf i).refcnt + 1), c)
  | .storeRefcnt i v, c => some (.unlock i, c.put i { c.buf i with refcnt := v })
  | .unlock _, _ => none
  | .panic, c => some (.panic, c)

/-- The calls `bget(dev, block_no)`. -/
def BgetAt.IsCall (k : BgetAt) : Prop := ∃ dev b, k = .first dev b 0

/-- The sections of `bget`, for callers `ι`. -/
def bgetSections (ι : Type) : Lib.Sections ι BgetAt BufferCache where
  entry _ := BgetAt.IsCall
  began _ := BgetAt.IsCall
  work := bgetWork
  entry_began _ _ h := h

/-- The callers of `bget`, with the lock of the cache. -/
abbrev Callers (ι : Type) := Lib.Threads ι (BitVec 32) BgetAt BufferCache

/-- Nobody is in `bget`, and the lock is free. -/
def Callers.init (ι : Type) (c : BufferCache) : Callers ι :=
  { word := 0, shared := c, pos := fun _ => .out }

/-- A call of `bget` that is one step. -/
inductive BgetStep {ι : Type} (c : BufferCache) : Lib.SectionEvent ι BgetAt → BufferCache → Prop
  | quiet : BgetStep c .quiet c
  | bget {i : ι} {dev b n : Nat} {c' : BufferCache} (h : c.bget dev b = .ok (n, c')) :
      BgetStep c (.done i (.first dev b 0) (.unlock n)) c'

end Driver
