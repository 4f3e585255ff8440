import OS404.Basic

/-!
# Strings (`string/string.c`, `include/ctype.h`)

A character array is the list of its bytes; a read or a write outside it is undefined behaviour.
A string of the caller is a `CStr`, the bytes before its terminator; `CStr.chars` is the memory
with the terminator.
-/

namespace Str

/-- A string without its terminator. -/
def CStr := { s : List (BitVec 8) // 0 ∉ s }

/-- The bytes of a string with the terminator. -/
def CStr.chars (s : CStr) : List (BitVec 8) := s.val ++ [0]

/-- `s[i] = x`. -/
def store (s : List (BitVec 8)) (i : Nat) (x : BitVec 8) : Res (List (BitVec 8)) :=
  if i < s.length then .ok (s.set i x) else .error .ub

/-- `s[i]`. -/
def load (s : List (BitVec 8)) (i : Nat) : Res (BitVec 8) :=
  match s[i]? with
  | some x => .ok x
  | none => .error .ub

/-- The second loop of `strncpy`: zeros at `i`, …. -/
def padZeros (s : List (BitVec 8)) (i : Nat) : Nat → Res (List (BitVec 8))
  | 0 => .ok s
  | n + 1 => do
    let s ← store s i 0
    padZeros s (i + 1) n

/-- `strncpy(s + i, t, n)`. -/
def strncpy (s : List (BitVec 8)) (i : Nat) : List (BitVec 8) → Nat → Res (List (BitVec 8))
  | _, 0 => .ok s
  | [], _ + 1 => .error .ub
  | x :: t, n + 1 => do
    let s ← store s i x
    if x = 0 then padZeros s (i + 1) n else strncpy s (i + 1) t n

/-- `strlen`. -/
def strlen : List (BitVec 8) → Res Nat
  | [] => .error .ub
  | x :: s =>
    if x = 0 then .ok 0
    else do
      let n ← strlen s
      return n + 1

/-- `strncmp`: its loop never moves the pointers. -/
def strncmp (s1 s2 : List (BitVec 8)) : Nat → Res Int
  | 0 => .ok 0
  | n + 1 => do
    let a ← load s1 0
    let b ← load s2 0
    if a = 0 ∨ a ≠ b then return (a.toNat : Int) - b.toNat
    else strncmp s1 s2 n

/-- `toupper`; the letters `a` to `z` have `_L` in the table `_ctype`. -/
def toupper (c : BitVec 8) : BitVec 8 := if 97 ≤ c ∧ c ≤ 122 then c - 32 else c

/-- `str_toupper`. -/
def strToupper : List (BitVec 8) → Res (List (BitVec 8))
  | [] => .error .ub
  | x :: s =>
    if x = 0 then .ok (x :: s)
    else do
      let s ← strToupper s
      return toupper x :: s

/-- `strchr` for a character other than the terminator: the index of the match. -/
def strchr (c : BitVec 8) : List (BitVec 8) → Nat → Res (Option Nat)
  | [], _ => .error .ub
  | x :: s, i =>
    if x = 0 then .ok none
    else if x = c then .ok (some i)
    else strchr c s (i + 1)

/-- `str_split`: the two arrays, or `none` when `ch` is not in `str`. -/
def strSplit (str : List (BitVec 8)) (ch : BitVec 8) (str1 str2 : List (BitVec 8)) :
    Res (Option (List (BitVec 8) × List (BitVec 8))) := do
  let p ← strchr ch str 0
  match p with
  | none => return none
  | some p => do
    let str1 ← strncpy str1 0 str p
    let len ← strlen str
    let str2 ← strncpy str2 0 (str.drop (p + 1)) (len - 1 - p)
    return some (str1, str2)

end Str
