import Mathlib.Order.Bounds.Defs
import Mathlib.Tactic.Common

/-!
# First fit

Places `0, 1, …, T - 1`, of which those with `p` are free. `Fits p T n o`: from place `o` on, `n`
places are free, or all up to the end when fewer are left. A search looks at the places in order and
counts the free ones that it has seen last. `FreeTail p n idx cnt` is its invariant: `cnt` places
before `idx` are free, and no place before them fits.

* `FreeTail.found`, `FreeTail.finish`: where the search stops, the first of the counted places is the
  least that fits.
* `le_of_isLeast_fits`: it is at most the first place from which on all are free.
-/

namespace Lib

section
variable {p : Nat → Prop} {T n idx cnt : Nat}

/-- The `n` places from `o` on, or those up to the end, are free. -/
def Fits (p : Nat → Prop) (T n o : Nat) : Prop := o ≤ T ∧ ∀ i, o ≤ i → i < o + n → i < T → p i

/-- The `cnt` places before `idx` are free, fewer than `n`, and no place before them fits. -/
structure FreeTail (p : Nat → Prop) (n idx cnt : Nat) : Prop where
  le : cnt ≤ idx
  lt : cnt < n
  free : ∀ i, idx - cnt ≤ i → i < idx → p i
  blocked : ∀ o < idx - cnt, ∃ i, o ≤ i ∧ i < o + n ∧ i < idx ∧ ¬ p i

namespace FreeTail

theorem start (h : 0 < n) : FreeTail p n 0 0 where
  le := Nat.le_refl 0
  lt := h
  free := fun i _ hi => absurd hi (Nat.not_lt_zero i)
  blocked := fun o ho => absurd ho (Nat.not_lt_zero o)

/-- A place that is not free blocks all the places that were counted. -/
theorem busy (h : FreeTail p n idx cnt) (hb : ¬ p idx) : FreeTail p n (idx + 1) 0 where
  le := Nat.zero_le _
  lt := Nat.zero_lt_of_lt h.lt
  free := by
    intro i h1 h2
    omega
  blocked := by
    intro o ho
    have hlt := h.lt
    by_cases hold : o < idx - cnt
    · obtain ⟨i, h1, h2, h3, h4⟩ := h.blocked o hold
      exact ⟨i, h1, h2, by omega, h4⟩
    · exact ⟨idx, by omega, by omega, by omega, hb⟩

theorem more (h : FreeTail p n idx cnt) (hf : p idx) (hn : cnt + 1 < n) :
    FreeTail p n (idx + 1) (cnt + 1) where
  le := Nat.succ_le_succ h.le
  lt := hn
  free := by
    intro i h1 h2
    by_cases hi : i = idx
    · rw [hi]
      exact hf
    · exact h.free i (by omega) (by omega)
  blocked := by
    intro o ho
    obtain ⟨i, h1, h2, h3, h4⟩ := h.blocked o (by omega)
    exact ⟨i, h1, h2, by omega, h4⟩

theorem le_of_fits (h : FreeTail p n idx cnt) (hT : idx ≤ T) {o : Nat} (ho : Fits p T n o) :
    idx - cnt ≤ o := by
  by_contra hlt
  obtain ⟨i, h1, h2, h3, h4⟩ := h.blocked o (by omega)
  exact h4 (ho.2 i h1 h2 (by omega))

/-- The search has counted `n` places. -/
theorem found (h : FreeTail p n idx cnt) (hf : p idx) (hn : cnt + 1 = n) (hT : idx < T) :
    IsLeast {o | Fits p T n o} (idx - cnt) := by
  have hle := h.le
  refine ⟨⟨by omega, fun i h1 h2 _ => ?_⟩, fun o ho => h.le_of_fits (Nat.le_of_lt hT) ho⟩
  by_cases hi : i = idx
  · rw [hi]
    exact hf
  · exact h.free i h1 (by omega)

/-- The search has come to the end. -/
theorem finish (h : FreeTail p n T cnt) : IsLeast {o | Fits p T n o} (T - cnt) :=
  ⟨⟨Nat.sub_le .., fun i h1 _ h3 => h.free i h1 h3⟩, fun _ ho => h.le_of_fits (Nat.le_refl T) ho⟩

end FreeTail

theorem le_of_isLeast_fits {o i : Nat} (h : IsLeast {o | Fits p T n o} o) (hi : i ≤ T)
    (hf : ∀ j, i ≤ j → j < T → p j) : o ≤ i :=
  h.2 ⟨hi, fun j h1 _ h3 => hf j h1 h3⟩

end

end Lib
