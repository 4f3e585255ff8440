import OS404.Basic
import Mathlib.Logic.Function.Basic

/-!
# Moving memory (`string/string.c`)

`memmove` and `memcpy` on the byte memory; addresses are 64-bit words and are compared as unsigned
numbers. The two loops are given by the number of their turns, which is `n` unless `n` is negative.
-/

namespace Str

/-- `while (n-- > 0) *--d = *--s;` -/
def moveDown : Nat → BitVec 64 → BitVec 64 → (BitVec 64 → BitVec 8) → BitVec 64 → BitVec 8
  | 0, _, _, m => m
  | n + 1, d, s, m => moveDown n (d - 1) (s - 1) (Function.update m (d - 1) (m (s - 1)))

/-- `while (n-- > 0) *d++ = *s++;` -/
def moveUp : Nat → BitVec 64 → BitVec 64 → (BitVec 64 → BitVec 8) → BitVec 64 → BitVec 8
  | 0, _, _, m => m
  | n + 1, d, s, m => moveUp n (d + 1) (s + 1) (Function.update m d (m s))

/-- `memmove`: the returned pointer and the memory. -/
def memmove (dst src : BitVec 64) (n : Int) (m : BitVec 64 → BitVec 8) :
    BitVec 64 × (BitVec 64 → BitVec 8) :=
  if n = 0 then (dst, m)
  else
    let off := BitVec.ofInt 64 n
    if src < dst ∧ dst < src + off then (dst, moveDown n.toNat (dst + off) (src + off) m)
    else (dst, moveUp n.toNat dst src m)

/-- `memcpy`. -/
def memcpy (dst src : BitVec 64) (n : Int) (m : BitVec 64 → BitVec 8) :
    BitVec 64 × (BitVec 64 → BitVec 8) :=
  memmove dst src n m

end Str
