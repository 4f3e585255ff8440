import OS404.Fs.Fcb

/-!
# Decoding the names of directory entries (`fs/fat32_inode.c`, `fs/fat32_stack.c`)

The stack of long entries is a list with its top first; `stack_push` panics on the `CAPACITY`th
entry. `fat32_longname_popstack` may return before the stack is empty, so the stack that it leaves
is part of its result.
-/

namespace Fs

open Str

/-- `stack_push`. -/
def stackPush (stack : List DirentL) (e : DirentL) : Res (List DirentL) :=
  if stack.length = capacity then .error (.panic "Stack Overflow!") else .ok (e :: stack)

/-! ## `fat32_filter_longname` -/

/-- One of the loops of `fat32_filter_longname` over the characters `xs`: `idx` and `ret_name` after
it, and whether it returned. -/
def filterChars : List Nat → Nat → List (BitVec 8) → Res (Nat × List (BitVec 8) × Bool)
  | [], idx, retName => .ok (idx, retName, false)
  | x :: xs, idx, retName => do
    let retName ← store retName idx (BitVec.ofNat 8 (x &&& 0xFF))
    if x ≠ 0 ∧ x ≠ 0xFFFF then filterChars xs (idx + 1) retName
    else return (idx + 1, retName, true)

/-- `fat32_filter_longname`: the returned count and `ret_name`. -/
def fat32FilterLongname (e : DirentL) (retName : List (BitVec 8)) : Res (Nat × List (BitVec 8)) := do
  let (idx, retName, stop) ← filterChars e.ldirName1 0 retName
  if stop then return (idx, retName)
  let (idx, retName, stop) ← filterChars e.ldirName2 idx retName
  if stop then return (idx, retName)
  let (idx, retName, _) ← filterChars e.ldirName3 idx retName
  return (idx, retName)

/-! ## `fat32_longname_popstack` -/

/-- The loop that copies `l_tmp` to `name_buf`: `name_idx` and `name_buf` after it. -/
def copyName : List (BitVec 8) → Nat → List (BitVec 8) → Res (Nat × List (BitVec 8))
  | [], nameIdx, nameBuf => .ok (nameIdx, nameBuf)
  | x :: xs, nameIdx, nameBuf => do
    let nameBuf ← store nameBuf nameIdx x
    copyName xs (nameIdx + 1) nameBuf

/-- The loop of `fat32_longname_popstack` with what follows it: the returned value, the stack and
`name_buf`. -/
def popLoop (fcbSName : List (BitVec 8)) :
    List DirentL → Nat → Nat → List (BitVec 8) → Res (Nat × List DirentL × List (BitVec 8))
  | [], _, _, nameBuf => .ok (0, [], nameBuf)
  | e :: stack, cnt, nameIdx, nameBuf =>
    if stack ≠ [] ∧ cnt ≠ e.ldirOrd then .ok (0, stack, nameBuf)
    else if e.ldirChksum ≠ chkSum fcbSName 0 then .ok (0, stack, nameBuf)
    else do
      let (len, lTmp) ← fat32FilterLongname e (List.replicate 14 0)
      let (nameIdx, nameBuf) ← copyName (lTmp.take len) nameIdx nameBuf
      match stack with
      | [] => do
        let nameBuf ← store nameBuf nameIdx 0
        -- `LAST_LONG_ENTRY_BOOL` of the last entry popped
        return (if e.ldirOrd &&& 0x40 ≠ 0 then 1 else 0, [], nameBuf)
      | e' :: stack => popLoop fcbSName (e' :: stack) ((cnt + 1) % 2 ^ 8) nameIdx nameBuf

/-- `fat32_longname_popstack`. -/
def fat32LongnamePopstack (stack : List DirentL) (fcbSName nameBuf : List (BitVec 8)) :
    Res (Nat × List DirentL × List (BitVec 8)) :=
  popLoop fcbSName stack 1 0 nameBuf

/-! ## `fat32_short_name_parser` -/

/-- A loop of `fat32_short_name_parser` over the bytes `xs` of `DIR_Name`. -/
def shortChars : List (BitVec 8) → Nat → List (BitVec 8) → Res (Nat × List (BitVec 8))
  | [], lenName, nameBuf => .ok (lenName, nameBuf)
  | x :: xs, lenName, nameBuf =>
    if x = 0x20 then shortChars xs lenName nameBuf
    else do
      let nameBuf ← store nameBuf lenName x
      shortChars xs (lenName + 1) nameBuf

/-- `fat32_short_name_parser` of the 11 bytes of `DIR_Name`. -/
def fat32ShortNameParser (dirName nameBuf : List (BitVec 8)) : Res (List (BitVec 8)) := do
  let (lenName, nameBuf) ← shortChars (dirName.take 8) 0 nameBuf
  let x ← load dirName 8
  let (lenName, nameBuf) ←
    (if x = 0x20 then .ok (lenName, nameBuf)
      else do
        let nameBuf ← store nameBuf lenName 46
        shortChars (dirName.drop 8) (lenName + 1) nameBuf : Res (Nat × List (BitVec 8)))
  store nameBuf lenName 0

end Fs
