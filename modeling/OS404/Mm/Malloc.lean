import OS404.Mm.Page

/-!
# The bucket allocator (`mm/malloc.c`)

`block_dir` has one bucket for each object size 8, 16, …, 4096. A bucket is a singly linked list
of block descriptors, each describing one page cut into objects of the bucket's size; the free
objects of a page form a list through their own first words. Descriptors come from pages of their
own and, when unused, sit on `free_block_desc`.

A descriptor is addressed by its fields' cells in `PageState.mem`: `block` at offset 0, `next` at
8, `freeptr` at 16, `blocnt` at 24 and `block_size` at 26 of the 32 bytes of a `struct block_desc`.
-/

namespace Mm

/-- The page allocator, `block_dir[b].list` and `free_block_desc`. -/
structure HeapState extends PageState where
  list : Nat → Nat
  freeBlockDesc : Nat

/-- `block_dir[b].size`, up to the end mark of size 0. -/
def blockDir : List Nat := [8, 16, 32, 64, 128, 256, 512, 1024, 2048, 4096]

/-- `block_dir[b].size`. -/
def bdirSize (b : Nat) : Nat := blockDir.getD b 0

/-- `sizeof(struct block_desc)`. -/
def sizeofDesc : Nat := 32

/-- The heap with memory `m`. -/
def HeapState.setMem (s : HeapState) (m : Nat → Nat) : HeapState := { s with mem := m }

/-- Storing `v` in the cell at `a`. -/
def HeapState.store (s : HeapState) (a v : Nat) : HeapState :=
  s.setMem (Function.update s.mem a v)

/-- `bdesc->block`. -/
def HeapState.block (s : HeapState) (d : Nat) : Nat := s.mem d

/-- `bdesc->next`. -/
def HeapState.next (s : HeapState) (d : Nat) : Nat := s.mem (d + 8)

/-- `bdesc->freeptr`. -/
def HeapState.freeptr (s : HeapState) (d : Nat) : Nat := s.mem (d + 16)

/-- `bdesc->blocnt`. -/
def HeapState.blocnt (s : HeapState) (d : Nat) : Nat := s.mem (d + 24)

/-- `bdesc->block_size`. -/
def HeapState.blockSize (s : HeapState) (d : Nat) : Nat := s.mem (d + 26)

/-- The loop of `Init_block_desc`: the last descriptor reached and the state. -/
def linkDescs : Nat → Nat → HeapState → Nat × HeapState
  | 0, bdesc, s => (bdesc, s)
  | n + 1, bdesc, s =>
    let s := s.store (bdesc + 8) (bdesc + sizeofDesc)
    linkDescs n (s.next bdesc) s

/-- `Init_block_desc`. -/
def initBlockDesc (s : HeapState) : Res HeapState :=
  let (first, ps) := pageAlloc 1 s.toPageState
  let s := { s with toPageState := ps }
  if first = 0 then .error (.panic "Out of bolck_buket_desc[]!")
  else
    let (bdesc, s) := linkDescs (pageSize / sizeofDesc - 1) first s
    .ok { s.store (bdesc + 8) s.freeBlockDesc with freeBlockDesc := first }

/-- The first bucket whose objects are long enough. -/
def bdirFor (length : Nat) : Option Nat := blockDir.findIdx? fun size => length ≤ size

/-- The first descriptor from `bdesc` on with a free object, 0 if there is none. -/
def findFree (s : HeapState) : Nat → Nat → Res Nat
  | 0, _ => .error .loop
  | n + 1, bdesc =>
    if bdesc = 0 then .ok 0
    else if s.freeptr bdesc ≠ 0 then .ok bdesc
    else findFree s n (s.next bdesc)

/-- Cutting a page into objects of `size` bytes, `n` more after the one at `cp`. -/
def splitPage (size : Nat) : Nat → Nat → HeapState → HeapState
  | 0, cp, s => s.store cp 0
  | n + 1, cp, s => splitPage size n (cp + size) (s.store cp (cp + size))

/-- Cutting the new page `cp` for `bdesc` and putting `bdesc` in front of bucket `b`. -/
def fillPage (b bdesc cp : Nat) (s : HeapState) : HeapState :=
  let s := (s.store (bdesc + 16) cp).store bdesc cp
  let s := splitPage (bdirSize b) (pageSize / s.blockSize bdesc - 1) cp s
  let s := s.store (bdesc + 8) (s.list b)
  { s with list := Function.update s.list b bdesc }

/-- A descriptor off `free_block_desc`, with a new page for bucket `b`. -/
def takeDesc (b : Nat) (s : HeapState) : Res (Nat × HeapState) :=
  let bdesc := s.freeBlockDesc
  let s := { s with freeBlockDesc := s.next bdesc }
  let s := (s.store (bdesc + 24) 0).store (bdesc + 26) (bdirSize b)
  match pageAlloc 1 s.toPageState with
  | (cp, ps) =>
    if cp = 0 then .error (.panic "out of memory in malloc ")
    else .ok (bdesc, fillPage b bdesc cp { s with toPageState := ps })

/-- The branch of `_malloc_` for a bucket without a free object: the new page's descriptor. -/
def newDesc (b : Nat) (s : HeapState) : Res (Nat × HeapState) := do
  let s ← (if s.freeBlockDesc = 0 then initBlockDesc s else .ok s : Res HeapState)
  takeDesc b s

/-- The end of `_malloc_`: taking the first free object of `bdesc`. -/
def takeObj (bdesc : Nat) (s : HeapState) : Nat × HeapState :=
  let retval := s.freeptr bdesc
  let s := s.store (bdesc + 16) (s.mem retval)
  -- `blocnt` has 16 bits
  (retval, s.store (bdesc + 24) ((s.blocnt bdesc + 1) % 2 ^ 16))

/-- `_malloc_`. -/
def malloc (length : Nat) (s : HeapState) : Res (Nat × HeapState) :=
  match bdirFor length with
  | none => .error (.panic "malloc : bad arg")
  | some b => do
    let bdesc ← findFree s (s.numPages + 1) (s.list b)
    let (bdesc, s) ← (if bdesc = 0 then newDesc b s else .ok (bdesc, s) : Res (Nat × HeapState))
    return takeObj bdesc s

/-- The search of one bucket of `_free_`: the descriptor of `page` and the one before it. -/
def findPage (s : HeapState) (page : Nat) : Nat → Nat → Nat → Res (Option (Nat × Nat))
  | 0, _, _ => .error .loop
  | n + 1, prev, bdesc =>
    if bdesc = 0 then .ok none
    else if s.block bdesc = page then .ok (some (prev, bdesc))
    else findPage s page n bdesc (s.next bdesc)

/-- The search of `_free_` over the buckets: the bucket, the descriptor before and the page's. -/
def findBlock (s : HeapState) (page : Nat) (size : Int) : List Nat → Res (Nat × Nat × Nat)
  | [] => .error (.panic "error adress passed to _free_ ()")
  | b :: bs =>
    if (bdirSize b : Int) < size then findBlock s page size bs
    else do
      match ← findPage s page (s.numPages + 1) 0 (s.list b) with
      | some (prev, bdesc) => return (b, prev, bdesc)
      | none => findBlock s page size bs

/-- The loop of `_free_` that looks for the predecessor again. Its condition
`prev->next = bdesc` assigns, and it goes on along `block`. -/
def relink (bdesc : Nat) : Nat → Nat → HeapState → Res (Nat × HeapState)
  | 0, _, _ => .error .loop
  | n + 1, prev, s =>
    if prev = 0 then .ok (0, s)
    else
      let s := s.store (prev + 8) bdesc
      if bdesc ≠ 0 then .ok (prev, s) else relink bdesc n (s.block prev) s

/-- The part of `_free_` that takes the emptied page's descriptor off its list. -/
def unlink (b prev bdesc : Nat) (s : HeapState) : Res HeapState := do
  let (prev, s) ←
    (if (prev ≠ 0 ∧ s.block prev ≠ bdesc) ∨ (prev = 0 ∧ s.list b ≠ bdesc) then
      relink bdesc (s.numPages + 1) (s.list b) s
    else .ok (prev, s) : Res (Nat × HeapState))
  if prev ≠ 0 then
    return s.store (prev + 8) (s.next bdesc)
  else if s.list b ≠ bdesc then
    .error (.panic "malloc block list corrupted")
  else
    return { s with list := Function.update s.list b (s.next bdesc) }

/-- The stores of `_free_` that put the object back in front of its page's free list. -/
def putObj (obj bdesc : Nat) (s : HeapState) : HeapState :=
  let s := s.store obj (s.freeptr bdesc)
  let s := s.store (bdesc + 16) obj
  -- `blocnt` has 16 bits
  s.store (bdesc + 24) ((s.blocnt bdesc + (2 ^ 16 - 1)) % 2 ^ 16)

/-- The branch of `_free_` for an emptied page: page and descriptor are given back. -/
def releasePage (b prev bdesc : Nat) (s : HeapState) : Res HeapState := do
  let s ← unlink b prev bdesc s
  let ps ← pageFree (s.block bdesc) s.toPageState
  let s := { s with toPageState := ps }
  return { s.store (bdesc + 8) s.freeBlockDesc with freeBlockDesc := bdesc }

/-- `_free_`. -/
def free (obj : Nat) (size : Int) (s : HeapState) : Res HeapState := do
  let page := u32 obj &&& pageMask
  let (b, prev, bdesc) ← findBlock s page size (List.range blockDir.length)
  let s := putObj obj bdesc s
  if s.blocnt bdesc = 0 then releasePage b prev bdesc s else .ok s

end Mm
