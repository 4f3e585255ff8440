import Mathlib.Algebra.Order.Pi
import Mathlib.Algebra.Order.Group.Int
import Mathlib.Tactic.Abel

/-!
# Reference counts

A ledger gives in every state the number of references to each cell, and the identity of the object
that is in it. `Moves s s' δ` says that from `s` to `s'` the counts changed by `δ`, and that cells
with a reference in `s` kept their objects. Moves compose as long as the first one takes no reference
away (`Moves.trans`): then a cell in use is in use all the time, and is not given to another object.
-/

namespace Lib

/-- The references to the cells, and the objects in them. -/
structure Ledger (S P I : Type*) where
  count : S → P → Int
  ident : S → P → I

namespace Ledger

section
variable {S P I : Type*} {L : Ledger S P I} {s s₁ s' : S} {δ δ' : P → Int}

/-- The counts change by `δ`, and cells in use keep their objects. -/
structure Moves (L : Ledger S P I) (s s' : S) (δ : P → Int) : Prop where
  count : ∀ p, L.count s' p = L.count s p + δ p
  ident : ∀ p, 0 < L.count s p → L.ident s' p = L.ident s p

theorem Moves.refl (s : S) : L.Moves s s 0 := ⟨fun p => by simp, fun _ _ => rfl⟩

theorem Moves.trans (h : L.Moves s s₁ δ) (hδ : 0 ≤ δ) (h' : L.Moves s₁ s' δ') :
    L.Moves s s' (δ + δ') := by
  refine ⟨fun p => ?_, fun p hp => ?_⟩
  · rw [h'.count p, h.count p, Pi.add_apply, add_assoc]
  · have hp₁ : 0 < L.count s₁ p := by
      rw [h.count p]
      exact add_pos_of_pos_of_nonneg hp (hδ p)
    rw [h'.ident p hp₁, h.ident p hp]

/-- A move that leaves the counts. -/
theorem Moves.same (h : L.Moves s s₁ δ) (hδ : 0 ≤ δ) (h' : L.Moves s₁ s' 0) : L.Moves s s' δ := by
  have := h.trans hδ h'
  rwa [add_zero] at this

variable [DecidableEq P]

/-- The reference that is held to a cell, if any. -/
def held : Option P → P → Int
  | none => 0
  | some p => Pi.single p 1

theorem held_nonneg (o : Option P) : 0 ≤ (held o : P → Int) := by
  cases o with
  | none => exact le_refl _
  | some p => exact Pi.single_nonneg.2 zero_le_one

theorem held_apply (o : Option P) (p : P) : held o p = if o = some p then 1 else 0 := by
  cases o with
  | none => simp [held]
  | some q => simp [held, Pi.single_apply, eq_comm]

/-- A reference that was held is dropped. -/
theorem Moves.drop {p : P} (h : L.Moves s s₁ (held (some p) + δ)) (hδ : 0 ≤ δ)
    (h' : L.Moves s₁ s' (-held (some p))) : L.Moves s s' δ := by
  have h₁ := h.trans (add_nonneg (held_nonneg _) hδ) h'
  rwa [show held (some p) + δ + -held (some p) = δ by abel] at h₁

end

end Ledger

end Lib
