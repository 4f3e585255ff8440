import Mathlib.Data.Nat.ModEq
import Mathlib.Logic.Function.Basic
import Mathlib.Tactic.Common

/-!
# Rings with wrapping counters

A producer and a consumer share an array of `cap` slots. Each counts with its own counter modulo
`m`, a multiple of `cap`, and reaches the slot of a count through its remainder by `cap`.
`RingHolds cap m ring lo hi L`: between the consumer's counter `lo` and the producer's counter `hi`
lie the elements `L`, oldest first. Producing appends to `L` (`RingHolds.push`), consuming takes its
head (`RingHolds.pop`), and the counters agree exactly when nothing is left (`RingHolds.eq_iff`),
also when they wrap.
-/

namespace Lib

variable {α : Type*} {cap m lo hi : Nat} {ring : Nat → α} {L : List α} {a : α}

/-- The elements produced and not yet consumed (module doc). -/
structure RingHolds (cap m : Nat) (ring : Nat → α) (lo hi : Nat) (L : List α) : Prop where
  lo_lt : lo < m
  hi_eq : hi = (lo + L.length) % m
  len : L.length ≤ cap
  get : ∀ k a, L[k]? = some a → ring ((lo + k) % cap) = a

namespace RingHolds

theorem nil (h : lo < m) : RingHolds cap m ring lo lo [] where
  lo_lt := h
  hi_eq := (Nat.mod_eq_of_lt h).symm
  len := Nat.zero_le _
  get k a hk := by simp at hk

theorem eq_iff (h : RingHolds cap m ring lo hi L) (hm : cap < m) : lo = hi ↔ L = [] := by
  have hlen := h.len
  have hlo := h.lo_lt
  rw [h.hi_eq]
  constructor
  · intro heq
    apply List.eq_nil_of_length_eq_zero
    by_cases hw : lo + L.length < m
    · rw [Nat.mod_eq_of_lt hw] at heq
      omega
    · rw [Nat.mod_eq_sub_mod (by omega), Nat.mod_eq_of_lt (by omega)] at heq
      omega
  · intro hL
    rw [hL, List.length_nil, Nat.add_zero, Nat.mod_eq_of_lt hlo]

/-- The slot of the producer's counter is the one after the last element. -/
theorem slot (h : RingHolds cap m ring lo hi L) (hd : cap ∣ m) :
    hi % cap = (lo + L.length) % cap := by
  rw [h.hi_eq, Nat.mod_mod_of_dvd _ hd]

theorem push (h : RingHolds cap m ring lo hi L) (hd : cap ∣ m) (hlen : L.length < cap) (a : α) :
    RingHolds cap m (Function.update ring (hi % cap) a) lo ((hi + 1) % m) (L ++ [a]) where
  lo_lt := h.lo_lt
  hi_eq := by
    rw [h.hi_eq, Nat.mod_add_mod, List.length_append, List.length_singleton, Nat.add_assoc]
  len := by
    rw [List.length_append, List.length_singleton]
    exact hlen
  get k b hk := by
    rw [h.slot hd]
    by_cases hkL : k < L.length
    · rw [List.getElem?_append_left hkL] at hk
      have hne : (lo + k) % cap ≠ (lo + L.length) % cap := by
        intro heq
        have hmod : k ≡ L.length [MOD cap] := Nat.ModEq.add_left_cancel' lo heq
        have := Nat.ModEq.eq_of_lt_of_lt hmod (by omega) hlen
        omega
      rw [Function.update_of_ne hne]
      exact h.get k b hk
    · rw [List.getElem?_append_right (by omega)] at hk
      have hk0 : k - L.length = 0 := by
        by_contra h0
        rw [List.getElem?_eq_none (by simp only [List.length_singleton]; omega)] at hk
        cases hk
      rw [hk0] at hk
      cases hk
      rw [show k = L.length by omega, Function.update_self]

theorem head (h : RingHolds cap m ring lo hi (a :: L)) : ring (lo % cap) = a :=
  h.get 0 a rfl

theorem pop (h : RingHolds cap m ring lo hi (a :: L)) (hd : cap ∣ m) (hm : 0 < m) :
    RingHolds cap m ring ((lo + 1) % m) hi L where
  lo_lt := Nat.mod_lt _ hm
  hi_eq := by
    rw [h.hi_eq, List.length_cons, Nat.mod_add_mod, Nat.add_assoc, Nat.add_comm 1]
  len := Nat.le_of_succ_le h.len
  get k b hk := by
    have hb := h.get (k + 1) b (by simpa using hk)
    have hslot : ((lo + 1) % m + k) % cap = (lo + (k + 1)) % cap := by
      rw [Nat.add_mod, Nat.mod_mod_of_dvd _ hd, ← Nat.add_mod, Nat.add_assoc, Nat.add_comm 1]
    rw [hslot]
    exact hb

end RingHolds

end Lib
