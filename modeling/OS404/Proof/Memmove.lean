import OS404.Memmove
import OS404.Lib.ByteMem
import OS404.Lib.Copy

/-!
# `memmove` copies

Either loop of `memmove` is a copy of a block cell by cell (`moveUp_eq`, `moveDown_eq`). The test of the
addresses chooses the loop that reads no byte that it has written: upwards unless the destination
starts inside the source and behind its start.
-/

namespace Str

open Lib

/-- The bytes from an address on. -/
def bytesAt (a : BitVec 64) (i : Nat) : BitVec 64 := a + BitVec.ofNat 64 i

theorem bytesAt_zero (a : BitVec 64) : bytesAt a 0 = a := BitVec.add_zero a

theorem bytesAt_succ (a : BitVec 64) : (bytesAt a <| · + 1) = bytesAt (a + 1) := by
  funext i
  exact add_ofNat_succ a i

theorem bytesAt_succ_sub (a : BitVec 64) (n : Nat) : bytesAt a (n + 1) - 1 = bytesAt a n :=
  add_ofNat_succ_sub a n

/-- A byte of a range that ends before the addresses wrap. -/
theorem bytesAt_toNat {a : BitVec 64} {n i : Nat} (h : a.toNat + n ≤ 2 ^ 64) (hi : i < n) :
    (bytesAt a i).toNat = a.toNat + i := by
  unfold bytesAt
  rw [BitVec.toNat_add, BitVec.toNat_ofNat]
  omega

theorem moveUp_eq (n : Nat) (d s : BitVec 64) (m : BitVec 64 → BitVec 8) :
    moveUp n d s m = copyCells (blockCells (bytesAt d) (bytesAt s) n) m := by
  induction n generalizing d s m with
  | zero => rfl
  | succ n ih =>
    rw [moveUp, ih, blockCells_succ, bytesAt_succ, bytesAt_succ, bytesAt_zero, bytesAt_zero]
    rfl

theorem moveDown_eq (n : Nat) (d s : BitVec 64) (m : BitVec 64 → BitVec 8) :
    moveDown n (bytesAt d n) (bytesAt s n) m =
      copyCells (blockCells (bytesAt d) (bytesAt s) n).reverse m := by
  induction n generalizing m with
  | zero => rfl
  | succ n ih =>
    rw [moveDown, bytesAt_succ_sub, bytesAt_succ_sub, ih, blockCells_succ_reverse]
    rfl

/-- `memmove` on ranges inside the memory. -/
theorem memmove_spec {dst src : BitVec 64} {n : Nat} (hdst : dst.toNat + n ≤ 2 ^ 64)
    (hsrc : src.toNat + n ≤ 2 ^ 64) (m : BitVec 64 → BitVec 8) :
    ∃ m', memmove dst src n m = (dst, m') ∧ Copied (bytesAt dst) (bytesAt src) n m m' := by
  have hoff : BitVec.ofInt 64 n = BitVec.ofNat 64 n := BitVec.ofInt_natCast 64 n
  unfold memmove
  by_cases hn : n = 0
  · subst hn
    exact ⟨m, rfl, fun i hi => absurd hi (Nat.not_lt_zero i), fun a _ => rfl⟩
  rw [if_neg (by exact_mod_cast hn), hoff]
  dsimp only
  rw [Int.toNat_natCast]
  -- two bytes of a range are different; whether one of `dst` is one of `src` depends on the order
  have hcell : ∀ i j, i < j → j < n → bytesAt dst i ≠ bytesAt dst j := by
    intro i j hij hj h
    have := congrArg BitVec.toNat h
    rw [bytesAt_toNat hdst (by omega), bytesAt_toNat hdst hj] at this
    omega
  have hread : ∀ i j, i < n → j < n → bytesAt dst i = bytesAt src j →
      dst.toNat + i = src.toNat + j := by
    intro i j hi hj h
    rw [← bytesAt_toNat hdst hi, ← bytesAt_toNat hsrc hj, h]
  split
  next hover =>
    obtain ⟨hlt, -⟩ := hover
    refine ⟨_, rfl, ?_⟩
    rw [show dst + BitVec.ofNat 64 n = bytesAt dst n from rfl,
      show src + BitVec.ofNat 64 n = bytesAt src n from rfl, moveDown_eq]
    apply copied_down
    intro i j hij hj
    refine ⟨hcell i j hij hj, fun h => ?_⟩
    have := hread j i hj (by omega) h
    rw [BitVec.lt_def] at hlt
    omega
  next hover =>
    refine ⟨_, rfl, ?_⟩
    rw [moveUp_eq]
    apply copied_up
    intro i j hij hj
    refine ⟨hcell i j hij hj, fun h => hover ?_⟩
    have := hread i j (by omega) hj h
    -- so `src < dst` and the range at `src` ends before the addresses wrap
    rw [BitVec.lt_def, BitVec.lt_def, BitVec.toNat_add, BitVec.toNat_ofNat]
    omega

/-- **`memmove` and `memcpy` copy**, also between ranges that overlap: the bytes of `dst` are what
those of `src` were, all other bytes are kept, and the result is `dst`. -/
theorem memmove_overlap {dst src : BitVec 64} {n : Int} (hn : 0 ≤ n)
    (hdst : dst.toNat + n ≤ 2 ^ 64) (hsrc : src.toNat + n ≤ 2 ^ 64) (m : BitVec 64 → BitVec 8) :
    (∃ m', memmove dst src n m = (dst, m') ∧ Copied (bytesAt dst) (bytesAt src) n.toNat m m') ∧
    ∃ m', memcpy dst src n m = (dst, m') ∧ Copied (bytesAt dst) (bytesAt src) n.toNat m m' := by
  lift n to Nat using hn
  have h := @memmove_spec dst src n (by exact_mod_cast hdst) (by exact_mod_cast hsrc) m
  exact ⟨h, h⟩

/-- Three bytes moved up by one at the end of the memory, where every byte is the low byte of its
address. -/
theorem memmove_overlap_end :
    ∃ m', memmove 0xFFFFFFFFFFFFFFFD 0xFFFFFFFFFFFFFFFC 3 (BitVec.setWidth 8) =
        (0xFFFFFFFFFFFFFFFD, m') ∧
      m' 0xFFFFFFFFFFFFFFFD = 0xFC ∧ m' 0xFFFFFFFFFFFFFFFF = 0xFE ∧ m' 0xFFFFFFFFFFFFFFFC = 0xFC ∧
      m' 0 = 0 := by
  obtain ⟨⟨m', hrun, hcopied, hkept⟩, -⟩ :=
    @memmove_overlap 0xFFFFFFFFFFFFFFFD 0xFFFFFFFFFFFFFFFC 3 (by decide) (by decide) (by decide)
      (BitVec.setWidth 8)
  exact ⟨m', hrun, hcopied 0 (by decide), hcopied 2 (by decide), hkept _ (by decide), hkept _ (by decide)⟩

end Str
