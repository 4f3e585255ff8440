import OS404.Driver.Buffer

/-!
# The users of the buffer cache

Two systems around the cache. In `Users` any buffers are taken and given back in any order; `held`
counts the `bread` calls without a `brelse` yet. In `Transactions` a user takes a block, may change
its data and mark it with `bwrite`, and gives it back; `raw` has the contents that the last finished
transaction of each block left, and `cur` those of the open transaction. A call that panics is no
step.
-/

namespace Driver

/-- The cache, and how often each buffer is held. -/
structure Users where
  cache : BufferCache
  held : Nat → Nat

inductive UserOp where
  | bread (dev blockNo : Nat)
  | brelse (i : Nat)
  deriving DecidableEq

namespace Users

/-- After `Init_buffer`. -/
def init (disk : Nat → Sector) : Users := { cache := .zeroed disk, held := fun _ => 0 }

def step (s : Users) : UserOp → Option Users
  | .bread dev blockNo =>
    match s.cache.bread dev blockNo with
    | .ok (i, cache) => some { cache, held := Function.update s.held i (s.held i + 1) }
    | .error _ => none
  | .brelse i =>
    if 0 < s.held i then
      some { cache := s.cache.brelse i, held := Function.update s.held i (s.held i - 1) }
    else none

end Users

/-- The cache, the buffers of the open transactions by block, and the contents of the blocks. -/
structure Transactions where
  cache : BufferCache
  slot : Nat → Option Nat
  raw : Nat → Sector
  cur : Nat → Sector

inductive TransOp where
  | start (dev blockNo : Nat)
  | write (blockNo : Nat) (v : Sector)
  | finish (blockNo : Nat)

namespace Transactions

/-- After `Init_buffer`, with nothing open. -/
def init (disk : Nat → Sector) : Transactions :=
  { cache := .zeroed disk, slot := fun _ => none, raw := disk, cur := disk }

def step (s : Transactions) : TransOp → Option Transactions
  | .start dev b =>
    match s.slot b with
    | some _ => none
    | none =>
      match s.cache.bread dev b with
      | .ok (i, cache) => some { s with
          cache, slot := Function.update s.slot b (some i), cur := Function.update s.cur b (s.raw b) }
      | .error _ => none
  | .write b v =>
    match s.slot b with
    | none => none
    | some i => some { s with
        cache := (s.cache.put i { s.cache.buf i with data := v }).bwrite i
        cur := Function.update s.cur b v }
  | .finish b =>
    match s.slot b with
    | none => none
    | some i => some { s with
        cache := s.cache.brelse i
        slot := Function.update s.slot b none
        raw := Function.update s.raw b (s.cur b) }

end Transactions

end Driver
