import Mathlib.Logic.Function.Basic
import Mathlib.Data.List.Basic
import Mathlib.Data.List.Range

/-!
# Copying cells one by one

`copyCells` assigns `m d := m s` for the pairs `(d, s)` of a list, in its order. What a later pair reads
may be what an earlier one wrote; if no pair reads or writes what one before it wrote, the result is a
copy of the cells of `m` (`copyCells_mem`). A block of `n` cells may be copied upwards when no cell of
the destination is a higher one of the source (`copied_up`), and downwards when none is a lower one
(`copied_down`).
-/

namespace Lib

section
variable {α : Type*}

/-- The pairs of a block of `n` cells. -/
def blockCells (dst src : Nat → α) (n : Nat) : List (α × α) :=
  (List.range n).map fun i => (dst i, src i)

theorem blockCells_succ (dst src : Nat → α) (n : Nat) :
    blockCells dst src (n + 1) = (dst 0, src 0) :: blockCells (dst <| · + 1) (src <| · + 1) n := by
  unfold blockCells
  rw [List.range_succ_eq_map, List.map_cons, List.map_map]
  rfl

theorem blockCells_succ_reverse (dst src : Nat → α) (n : Nat) :
    (blockCells dst src (n + 1)).reverse = (dst n, src n) :: (blockCells dst src n).reverse := by
  simp [blockCells, List.range_succ]

end

section
variable {α β : Type*} [DecidableEq α] {m : α → β} {cells : List (α × α)}

/-- The assignments `m d := m s` for the pairs `(d, s)`. -/
def copyCells : List (α × α) → (α → β) → α → β
  | [], m => m
  | (d, s) :: cells, m => copyCells cells (Function.update m d (m s))

theorem copyCells_of_ne {a : α} (h : ∀ x ∈ cells, a ≠ x.1) : copyCells cells m a = m a := by
  induction cells generalizing m with
  | nil => rfl
  | cons x cells ih =>
    obtain ⟨hx, hcells⟩ := List.forall_mem_cons.1 h
    rw [copyCells, ih hcells, Function.update_of_ne hx]

/-- Every cell that is written gets what its source held at the start. -/
theorem copyCells_mem (h : cells.Pairwise fun x y => x.1 ≠ y.1 ∧ x.1 ≠ y.2) {x : α × α}
    (hx : x ∈ cells) : copyCells cells m x.1 = m x.2 := by
  induction cells generalizing m with
  | nil => cases hx
  | cons y cells ih =>
    obtain ⟨hy, hcells⟩ := List.pairwise_cons.1 h
    rw [copyCells]
    rcases List.mem_cons.1 hx with rfl | hx
    · rw [copyCells_of_ne fun z hz => (hy z hz).1, Function.update_self]
    · rw [ih hcells hx, Function.update_of_ne (hy x hx).2.symm]

/-! ## Blocks -/

/-- `m'` is `m` with the cells `src 0, …, src (n - 1)` copied to `dst 0, …, dst (n - 1)`. -/
structure Copied (dst src : Nat → α) (n : Nat) (m m' : α → β) : Prop where
  copied : ∀ i < n, m' (dst i) = m (src i)
  kept : ∀ a, (∀ i < n, a ≠ dst i) → m' a = m a

variable {dst src : Nat → α} {n : Nat}

/-- A list of the pairs of a block, in an order in which no pair reads or writes what one before it
wrote. -/
theorem copied_of_pairwise (hmem : ∀ x, x ∈ cells ↔ x ∈ blockCells dst src n)
    (h : cells.Pairwise fun x y => x.1 ≠ y.1 ∧ x.1 ≠ y.2) :
    Copied dst src n m (copyCells cells m) where
  copied i hi := by
    have hx : (dst i, src i) ∈ cells := by
      rw [hmem]
      exact List.mem_map_of_mem (List.mem_range.2 hi)
    exact copyCells_mem h hx
  kept a ha := by
    apply copyCells_of_ne
    intro x hx
    obtain ⟨i, hi, rfl⟩ := List.mem_map.1 ((hmem x).1 hx)
    exact ha i (List.mem_range.1 hi)

/-- From the first cell to the last. -/
theorem copied_up (h : ∀ i j, i < j → j < n → dst i ≠ dst j ∧ dst i ≠ src j) :
    Copied dst src n m (copyCells (blockCells dst src n) m) := by
  apply copied_of_pairwise fun _ => Iff.rfl
  unfold blockCells
  rw [List.pairwise_map]
  apply List.pairwise_lt_range.imp_of_mem
  intro i j _ hj hij
  exact h i j hij (List.mem_range.1 hj)

/-- From the last cell to the first. -/
theorem copied_down (h : ∀ i j, i < j → j < n → dst i ≠ dst j ∧ dst j ≠ src i) :
    Copied dst src n m (copyCells (blockCells dst src n).reverse m) := by
  apply copied_of_pairwise fun _ => List.mem_reverse
  rw [List.pairwise_reverse]
  unfold blockCells
  rw [List.pairwise_map]
  apply List.pairwise_lt_range.imp_of_mem
  intro i j _ hj hij
  obtain ⟨hdst, hsrc⟩ := h i j hij (List.mem_range.1 hj)
  exact ⟨hdst.symm, hsrc⟩

end

end Lib
