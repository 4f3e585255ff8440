import Mathlib.Tactic.Common
import Mathlib.Data.Nat.Basic
import Mathlib.Algebra.Group.Nat.Defs

/-!
# Little-endian byte memory

A memory is a function from `w`-bit addresses to bytes; addresses wrap. `loadNat m a n` is the
number in the `n` bytes from `a`, `storeNat m a n v` puts the low `n` bytes of `v` there.

* `loadNat_storeNat`: a load reads back what a store put there.
* `storeNat_of_le`, `loadNat_storeNat_ne`: a store changes nothing outside its `n` bytes.
* `storeNat_self`: storing what is there already changes nothing.
* `loadNat_inj`: the number determines the bytes.
-/

namespace Lib

section
variable {w : Nat}

/-- The number in the `n` bytes from `a`. -/
def loadNat (m : BitVec w → BitVec 8) (a : BitVec w) : Nat → Nat
  | 0 => 0
  | n + 1 => (m a).toNat + 256 * loadNat m (a + 1) n

/-- `m` with the low `n` bytes of `v` from `a` on. -/
def storeNat (m : BitVec w → BitVec 8) (a : BitVec w) (n v : Nat) : BitVec w → BitVec 8 := fun b =>
  if (b - a).toNat < n then BitVec.ofNat 8 (v / 256 ^ (b - a).toNat) else m b

variable {m m' : BitVec w → BitVec 8} {a b : BitVec w} {n k v : Nat}

theorem storeNat_of_le (h : n ≤ (b - a).toNat) : storeNat m a n v b = m b :=
  if_neg (by omega)

theorem loadNat_lt (m : BitVec w → BitVec 8) : ∀ (n : Nat) (a : BitVec w), loadNat m a n < 256 ^ n
  | 0, _ => Nat.one_pos
  | n + 1, a => by
    have h1 := (m a).isLt
    have h2 := loadNat_lt m n (a + 1)
    rw [loadNat, Nat.pow_succ]
    omega

theorem add_ofNat_succ (a : BitVec w) (i : Nat) :
    a + BitVec.ofNat w (i + 1) = a + 1 + BitVec.ofNat w i := by
  rw [BitVec.ofNat_add, BitVec.add_assoc, BitVec.add_comm (BitVec.ofNat w i)]
  rfl

theorem add_ofNat_succ_sub (a : BitVec w) (i : Nat) :
    a + BitVec.ofNat w (i + 1) - 1 = a + BitVec.ofNat w i := by
  rw [BitVec.ofNat_add, ← BitVec.add_assoc]
  exact BitVec.add_sub_cancel _ _

theorem loadNat_congr : ∀ {n : Nat} {a : BitVec w},
    (∀ i < n, m (a + BitVec.ofNat w i) = m' (a + BitVec.ofNat w i)) → loadNat m a n = loadNat m' a n
  | 0, _, _ => rfl
  | n + 1, a, h => by
    have h0 := h 0 (Nat.succ_pos n)
    rw [BitVec.add_zero] at h0
    rw [loadNat, loadNat, h0, loadNat_congr fun i hi => ?_]
    rw [← add_ofNat_succ]
    exact h (i + 1) (by omega)

theorem loadNat_inj : ∀ {n : Nat} {a : BitVec w}, loadNat m a n = loadNat m' a n →
    ∀ i < n, m (a + BitVec.ofNat w i) = m' (a + BitVec.ofNat w i)
  | 0, _, _, i, hi => absurd hi (Nat.not_lt_zero i)
  | n + 1, a, h, i, hi => by
    have h1 := (m a).isLt
    have h2 := (m' a).isLt
    rw [loadNat, loadNat] at h
    cases i with
    | zero =>
      rw [BitVec.add_zero]
      exact BitVec.eq_of_toNat_eq (by omega)
    | succ i =>
      have hr : loadNat m (a + 1) n = loadNat m' (a + 1) n := by omega
      rw [add_ofNat_succ]
      exact loadNat_inj hr i (by omega)

/-- The bytes from `a + k` of a store at `a`. -/
theorem loadNat_storeNat_from (hn : n ≤ 2 ^ w) : ∀ {j k : Nat}, k + j ≤ n →
    loadNat (storeNat m a n v) (a + BitVec.ofNat w k) j = v / 256 ^ k % 256 ^ j
  | 0, k, _ => by simp [loadNat, Nat.mod_one]
  | j + 1, k, h => by
    have hoff : (a + BitVec.ofNat w k - a).toNat = k := by
      rw [BitVec.add_comm, BitVec.add_sub_cancel, BitVec.toNat_ofNat, Nat.mod_eq_of_lt (by omega)]
    have hsucc : a + BitVec.ofNat w k + 1 = a + BitVec.ofNat w (k + 1) := by
      rw [BitVec.ofNat_add, BitVec.add_assoc]
      rfl
    rw [loadNat, hsucc, loadNat_storeNat_from hn (by omega), storeNat, hoff, if_pos (by omega),
      BitVec.toNat_ofNat, Nat.pow_succ 256 k, ← Nat.div_div_eq_div_mul,
      show 256 ^ (j + 1) = 256 * 256 ^ j from Nat.pow_succ']
    exact Nat.mod_mul.symm

theorem loadNat_storeNat_mod (hn : n ≤ 2 ^ w) : loadNat (storeNat m a n v) a n = v % 256 ^ n := by
  have h := loadNat_storeNat_from (m := m) (a := a) (v := v) hn (j := n) (k := 0) (by omega)
  rw [BitVec.add_zero] at h
  rw [h, Nat.pow_zero, Nat.div_one]

theorem loadNat_storeNat (hn : n ≤ 2 ^ w) (hv : v < 256 ^ n) :
    loadNat (storeNat m a n v) a n = v := by
  rw [loadNat_storeNat_mod hn, Nat.mod_eq_of_lt hv]

/-- Storing what is there already. -/
theorem storeNat_self (hn : n ≤ 2 ^ w) (h : v % 256 ^ n = loadNat m a n) : storeNat m a n v = m := by
  have hload : loadNat (storeNat m a n v) a n = loadNat m a n := by rw [loadNat_storeNat_mod hn, h]
  funext b
  by_cases hb : (b - a).toNat < n
  · have hadd : a + BitVec.ofNat w (b - a).toNat = b := by
      rw [BitVec.ofNat_toNat, BitVec.setWidth_eq, BitVec.add_comm, BitVec.sub_add_cancel]
    have := loadNat_inj hload (b - a).toNat hb
    rwa [hadd] at this
  · exact storeNat_of_le (by omega)

theorem loadNat_storeNat_ne (h : ∀ i < n, k ≤ (b + BitVec.ofNat w i - a).toNat) :
    loadNat (storeNat m a k v) b n = loadNat m b n :=
  loadNat_congr fun i hi => storeNat_of_le (h i hi)

end

end Lib
