import OS404.Basic
import Mathlib.Logic.Function.Basic

/-!
# The page allocator (`mm/page.c`)

The page descriptors are the bytes at `HEAP_START`, one for each page of the pool
`[_alloc_start, _alloc_end)`. `PageState.flags i` is the byte at `HEAP_START + i`; the index is an
`Int` because `page_alloc` moves a descriptor pointer down before it sets `PAGE_LAST`. The pool
itself is `PageState.mem`, one cell for each object or field that is stored in it.
-/

namespace Mm

/-- `PAGE_SIZE`. -/
def pageSize : Nat := 4096

/-- `PAGE_TAKEN`. -/
def pageTaken : UInt8 := 1

/-- `PAGE_LAST`. -/
def pageLast : UInt8 := 2

/-- The globals of `mm/page.c`, the descriptors and the memory of the pool. -/
structure PageState where
  allocStart : Nat
  allocEnd : Nat
  numPages : Nat
  flags : Int → UInt8
  mem : Nat → Nat

/-- `_is_free`. -/
def isFree (flags : UInt8) : Bool := flags &&& pageTaken == 0

/-- `_is_last`. -/
def isLast (flags : UInt8) : Bool := flags &&& pageLast != 0

/-- `_set_flag` on descriptor `i`. -/
def setFlag (flags : Int → UInt8) (i : Int) (f : UInt8) : Int → UInt8 :=
  Function.update flags i (flags i ||| f)

/-- `_clear` on descriptor `i`. -/
def clear (flags : Int → UInt8) (i : Int) : Int → UInt8 := Function.update flags i 0

/-- The bits of an address that name its page (`~order` in `_align_page`). -/
def pageMask : Nat := 0xfffff000

/-- `_align_page`. -/
def alignPage (address : Nat) : Nat := u32 (address + 4095) &&& pageMask

/-- The loop of `Init_page` over the descriptors `i`, `i + 1`, …. -/
def clearFrom (flags : Int → UInt8) : Nat → Int → Int → UInt8
  | 0, _ => flags
  | n + 1, i => clearFrom (clear flags i) n (i + 1)

/-- `Init_page`, on whatever the memory holds before it. -/
def initPage (heapStart heapSize : Nat) (s : PageState) : PageState :=
  let numPages := subU32 (heapSize / pageSize) 8
  let allocStart := alignPage (u32 (heapStart + 8 * pageSize))
  { s with
    numPages, allocStart
    allocEnd := u32 (allocStart + u32 (pageSize * numPages))
    flags := clearFrom s.flags numPages 0 }

/-- The loop over `j` of `page_alloc`: the next `n` pages from `j` are free. -/
def restFree (flags : Int → UInt8) : Nat → Int → Bool
  | 0, _ => true
  | n + 1, j => isFree (flags j) && restFree flags n (j + 1)

/-- The loop over `i` of `page_alloc`, with the iterations left. -/
def pageSearch (flags : Int → UInt8) (npages : Int) : Nat → Nat → Option Nat
  | 0, _ => none
  | n + 1, i =>
    if isFree (flags i) && restFree flags (npages - 1).toNat (i + 1) then some i
    else pageSearch flags npages n (i + 1)

/-- The loop over `k` of `page_alloc`. -/
def takePages (flags : Int → UInt8) : Nat → Int → Int → UInt8
  | 0, _ => flags
  | n + 1, k => takePages (setFlag flags k pageTaken) n (k + 1)

/-- `i <= (_num_pages - npages)`, an unsigned comparison: the number of iterations. -/
def searchBound (s : PageState) (npages : Int) : Nat :=
  (((s.numPages : Int) - npages) % 2 ^ 32).toNat + 1

/-- `page_alloc`: the address (0 for `NULL`) and the state after it. -/
def pageAlloc (npages : Int) (s : PageState) : Nat × PageState :=
  match pageSearch s.flags npages (searchBound s npages) 0 with
  | some i =>
    -- `page_k` stands one past the block here, so `PAGE_LAST` goes one down
    (u32 (s.allocStart + i * pageSize),
      { s with flags := setFlag (takePages s.flags npages.toNat i) (i + npages.toNat - 1) pageLast })
  | none => (0, s)

/-! ## `page_alloc` with its accesses checked

The same loops, where reading or writing a descriptor that does not exist is an error. -/

/-- Reading descriptor `i`. -/
def PageState.desc (s : PageState) (i : Int) : Res UInt8 :=
  if 0 ≤ i ∧ i < s.numPages then .ok (s.flags i) else .error .ub

/-- `_set_flag` on descriptor `i`. -/
def PageState.setDesc (s : PageState) (i : Int) (f : UInt8) : Res PageState :=
  if 0 ≤ i ∧ i < s.numPages then .ok { s with flags := setFlag s.flags i f } else .error .ub

/-- The loop over `j`. -/
def restFreeIn (s : PageState) : Nat → Int → Res Bool
  | 0, _ => .ok true
  | n + 1, j => do
    let f ← s.desc j
    if isFree f then restFreeIn s n (j + 1) else return false

/-- The loop over `i`, with the iterations left. -/
def pageSearchIn (s : PageState) (npages : Int) : Nat → Nat → Res (Option Nat)
  | 0, _ => .ok none
  | n + 1, i => do
    let f ← s.desc i
    let found ← (if isFree f then restFreeIn s (npages - 1).toNat (i + 1) else .ok false : Res Bool)
    if found then return some i else pageSearchIn s npages n (i + 1)

/-- The loop over `k`. -/
def takePagesIn : Nat → Int → PageState → Res PageState
  | 0, _, s => .ok s
  | n + 1, k, s => do
    let s ← s.setDesc k pageTaken
    takePagesIn n (k + 1) s

/-- `page_alloc`. -/
def pageAllocIn (npages : Int) (s : PageState) : Res (Nat × PageState) := do
  match ← pageSearchIn s npages (searchBound s npages) 0 with
  | some i =>
    let s' ← takePagesIn npages.toNat i s
    let s' ← s'.setDesc (i + npages.toNat - 1) pageLast
    return (u32 (s.allocStart + i * pageSize), s')
  | none => return (0, s)

/-! ## `page_free` -/

/-- The loop of `page_free`, with a bound on its iterations. -/
def freePages : Nat → Int → (Int → UInt8) → Res (Int → UInt8)
  | 0, _, _ => .error .loop
  | n + 1, i, flags =>
    if isFree (flags i) then .ok flags
    else if isLast (flags i) then .ok (clear flags i)
    else freePages n (i + 1) (clear flags i)

/-- `page_free`. -/
def pageFree (p : Nat) (s : PageState) : Res PageState := do
  -- the first word of the block is cleared before the pointer is checked
  let s := { s with mem := Function.update s.mem p 0 }
  if p = 0 ∨ s.allocEnd ≤ u32 p then
    return s
  let flags ← freePages s.numPages (subU32 (u32 p) s.allocStart / pageSize : Nat) s.flags
  return { s with flags }

end Mm
