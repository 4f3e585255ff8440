import OS404.Basic
import Mathlib.Logic.Function.Basic

/-!
# The kernel's page table (`mm/pg.c`)

`kernel_page_table` is one page of 512 entries. `map` is called with it as its `table`, so the model
has one table. An entry is written through the pointer that `virt_to_phys` returns: the entry of the
address when it is present, and otherwise the entry that `kalloc` counts up to.
-/

namespace Pg

/-- `PTE_V` -/
def pteV : UInt64 := 1

/-- `PTE_R` -/
def pteR : UInt64 := 2

/-- `PTE_X` -/
def pteX : UInt64 := 8

/-- `PAGE_SIZE` -/
def pageSize : UInt64 := 4096

/-- The entries of a page table. -/
def entries : Nat := 512

/-- `kernel_page_table` and `page_num`. -/
structure Table where
  entry : Nat → UInt64
  pageNum : UInt32

/-- `PAGE_ALIGN` -/
def pageAlign (addr : UInt64) : UInt64 := addr &&& 0xfffffffffffff000

/-- `kalloc` -/
def kalloc (t : Table) : Nat × Table := (t.pageNum.toNat, { t with pageNum := t.pageNum + 1 })

/-- `get_pagenum` -/
def getPagenum (va : UInt64) : Nat := ((va >>> 12) &&& 0x1ff).toNat

/-- `virt_to_phys`: the index of the entry, or `NULL`. -/
def virtToPhys (t : Table) (va : UInt64) : Option Nat × Table :=
  let pte := t.entry (getPagenum va)
  if pte &&& pteV ≠ 0 then
    if pte &&& pteR ≠ 0 ∨ pte &&& pteX ≠ 0 then (some (getPagenum va), t) else (none, t)
  else
    let (i, t) := kalloc t
    (some i, t)

/-- The entry for physical address `pa`. -/
def pte (pa mode : UInt64) : UInt64 := ((pa >>> 12) <<< 10) ||| pteV ||| pteX ||| mode

/-- `*p = e`, through `NULL` or outside of the table undefined. -/
def store (p : Option Nat) (e : UInt64) (t : Table) : Res Table :=
  match p with
  | none => .error .ub
  | some i => if i < entries then .ok { t with entry := Function.update t.entry i e } else .error .ub

/-- The body of the loop of `map`. -/
def mapPage (va pa mode : UInt64) (t : Table) : Res Table :=
  let (p, t) := virtToPhys t va
  store p (pte pa mode) t

/-- The loop of `map`. -/
def mapLoop : Nat → UInt64 → UInt64 → UInt64 → UInt64 → Table → Res Table
  | 0, _, _, _, _, _ => .error .loop
  | fuel + 1, pgstart, pglast, pa, mode, t =>
    if pgstart ≤ pglast then do
      let t ← mapPage pgstart pa mode t
      mapLoop fuel (pgstart + pageSize) pglast (pa + pageSize) mode t
    else .ok t

/-- `map`, for at most `fuel` tests of the loop's condition. -/
def map (fuel : Nat) (va pa size mode : UInt64) (t : Table) : Res Table :=
  mapLoop fuel (pageAlign va) (pageAlign (va + size - 1)) pa mode t

/-- The table that `Init_page_table` clears, with `page_num = 0`. -/
def cleared : Table := ⟨fun _ => 0, 0⟩

end Pg
