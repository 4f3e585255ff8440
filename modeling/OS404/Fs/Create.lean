import OS404.Fs.Path

/-!
# Creating a file (`fs/fat32_inode.c`)

`fat32_dir_fcb_insert_offset` looks for free entries in a directory, and `fat32_inode_alloc` writes
the entries of a new file there and gets its inode. The inode number is computed from the slot of the
short entry (`allocInum`). `fat32_inode_create` looks the name up first (`createLookup`), and writes
the entries `.` and `..` of a new directory (`writeDot`); what it passes to `fat32_inode_write` for
them is part of its result here. The loops over the directory are bounded by `fuel`.
-/

namespace Fs

open Lib (Prog)
open Driver (Sector)
open Str

/-! ## `fat32_dir_fcb_insert_offset` -/

/-- `fcb_free_cnt`, `offset_ret_final` and `idx`. -/
structure FreeRun where
  cnt : Nat
  final : Nat
  idx : Nat

/-- How a loop of the search ends: with the offset, or after its last entry. -/
inductive Searched where
  | done (offset : Nat)
  | more (s : FreeRun)

/-- The loop over the entries of a sector; `base` is `offset_ret_base`. -/
def insertEntries (base req : Nat) : List Dirent → FreeRun → Searched
  | [], s => .more s
  | e :: es, s =>
    if ¬ e.Name0FreeBool then
      insertEntries base req es { cnt := 0, final := base, idx := u32 (s.idx + 1) }
    else
      let final := if s.cnt = 0 then s.idx else s.final
      -- `fcb_free_cnt` is a `uint8_t`
      let cnt := (s.cnt + 1) % 2 ^ 8
      if cnt = req then .done final
      else insertEntries base req es { cnt, final, idx := u32 (s.idx + 1) }

/-- The loop over the sectors of a cluster, with the iterations left. -/
def insertSectors (sb : Superblock) (dev : Dev) (base req first : Nat) :
    Nat → Nat → FreeRun → FsProg Searched
  | 0, _, s => return .more s
  | n + 1, k, s => do
    let d ← readSector dev (u32 (first + k))
    match insertEntries base req (sectorEntries sb d) s with
    | .done offset => return .done offset
    | .more s => insertSectors sb dev base req first n (k + 1) s

/-- The loop over the clusters of the directory. -/
def insertClusters (sb : Superblock) (dev : Dev) (base req : Nat) :
    Nat → Nat → FreeRun → FsProg Nat
  | 0, _, _ => .fail .loop
  | fuel + 1, iter, s =>
    if Iseof iter then return s.final
    else do
      let r ← insertSectors sb dev base req (firstSectorofCluster sb iter) sb.sectorsPerBlock 0 s
      match r with
      | .done offset => return offset
      | .more s => do
        let next ← fat32NextCluster sb iter
        insertClusters sb dev base req fuel next s

/-- `fat32_dir_fcb_insert_offset`; `fcb_cnt_req` is a `uint8_t`. -/
def fat32DirFcbInsertOffset (sb : Superblock) (fuel : Nat) (ip : Inode) (req : Nat) : FsProg Nat :=
  insertClusters sb ip.iDev (dirlength sb ip / direntSize) (req % 2 ^ 8) fuel ip.clusterStart
    { cnt := 0, final := 0, idx := 0 }

/-! ## The entries in `fcb_char` -/

/-- A number in `n` bytes. -/
def leBytes (n v : Nat) : List (BitVec 8) := (List.range n).map fun i => BitVec.ofNat 8 (v / 256 ^ i)

/-- The bytes of a short entry. -/
def DirentS.bytes (e : DirentS) : List (BitVec 8) :=
  e.dirName ++ leBytes 1 e.dirAttr ++ List.replicate 8 0 ++ leBytes 2 e.dirFstClusHI ++
    List.replicate 4 0 ++ leBytes 2 e.dirFstClusLO ++ leBytes 4 e.dirFileSize

/-- The bytes of a long entry. -/
def DirentL.bytes (e : DirentL) : List (BitVec 8) :=
  leBytes 1 e.ldirOrd ++ e.ldirName1.flatMap (leBytes 2) ++ leBytes 1 e.ldirAttr ++
    leBytes 1 e.ldirType ++ [e.ldirChksum] ++ e.ldirName2.flatMap (leBytes 2) ++
    leBytes 2 e.ldirNlinks ++ e.ldirName3.flatMap (leBytes 2)

/-- `fcb_char` after `fat32_fcb_init`. -/
def Fcb.chars (fcb : Fcb) : Res (List (BitVec 8)) :=
  let bytes := fcb.long.flatMap DirentL.bytes ++ fcb.short.bytes
  if bytes.length ≤ fcbMaxLength then .ok (bytes ++ List.replicate (fcbMaxLength - bytes.length) 0)
  else .error .ub

/-! ## `fat32_inode_alloc` -/

/-- The inode number of the entry in slot `e` of the directory `dp`. -/
def allocInum (sb : Superblock) (fuel : Nat) (dp : Inode) (e : Nat) : FsProg Nat := do
  let fcbNewOff := u32 (e * direntSize)
  let (targetCluster, _) ← fat32FatTravel sb fuel dp (u32 (logisticCNum sb fcbNewOff + 1))
  let firstSector := firstSectorofCluster sb targetCluster
  let cOffset := logisticCOffset sb fcbNewOff
  let sectorNum := u32 (firstSector + cOffset / sb.sectorSize)
  let sectorOffset := cOffset % sb.sectorSize / direntSize
  return sectorToFatinum sb sectorNum sectorOffset

/-- `fat32_inode_alloc`, with the contents of the arrays of `fat32_fcb_init`. -/
def fat32InodeAlloc (sb : Superblock) (fuel : Nat) (t : Inodes) (dp : Ptr) (name : CStr)
    (type : IType) (fileName fileExt : List (BitVec 8)) :
    FsProg (Fin nentry × Superblock × Inodes) := do
  let attr := if type = .dir then 0x10 else 0x20
  let (fcbCnt, fcb, sb) ←
    fat32FcbInit sb fuel (t.deref dp).toInode name attr fileName fileExt
  let fcbChar ← Prog.lift fcb.chars
  let offset ← fat32DirFcbInsertOffset sb fuel (t.deref dp).toInode fcbCnt
  let (tot, sb, dir) ← fat32InodeWrite sb (t.deref dp).toInode fcbChar (u32 (offset * direntSize))
    (u32 (fcbCnt * direntSize))
  let t := t.store dp { t.deref dp with toInode := dir }
  if tot = u32 (fcbCnt * direntSize) then do
    let slot := u32 (offset + fcbCnt - 1)
    let fatNum ← allocInum sb fuel dir slot
    let (i, t) ← Prog.lift (fat32InodeGet t (t.deref dp).dev.toNat fatNum name.chars slot)
    return (i, sb, t.store (.slot i)
      { t.entry i with iNlink := 1, ref := 1, parent := some dp, iType := type })
  else panic "assert failed"

/-! ## `fat32_inode_create` -/

/-- `name_to_i_parent`: the inode and `name`. -/
def nameToIParent (sb : Superblock) (fuel : Nat) (t : Inodes) (cwd : Ptr)
    (path name : List (BitVec 8)) : FsProg (Option Ptr × List (BitVec 8) × Superblock × Inodes) :=
  inodeNamex sb fuel t cwd path true name

/-- `fat32_inode_create` up to its lookup: the parent directory, the name, and the inode that has
it. -/
def createLookup (sb : Superblock) (fuel : Nat) (t : Inodes) (cwd : Ptr)
    (path name : List (BitVec 8)) :
    FsProg (Option (Ptr × CStr × Option (Fin nentry)) × Superblock × Inodes) := do
  let (dp, name, sb, t) ← nameToIParent sb fuel t cwd path name
  match dp with
  | none => return (none, sb, t)
  | some dp => do
    let t ← fat32InodeLock sb fuel t dp
    let (ip, t) ← fat32InodeDirlookup sb fuel t dp (bufStr name)
    return (some (dp, bufStr name, ip.map Prod.fst), sb, t)

/-- An array of `size` bytes after `fat32_fcb_init`. -/
def Fcb.charsIn (fcb : Fcb) (size : Nat) : Res (List (BitVec 8)) :=
  let bytes := fcb.long.flatMap DirentL.bytes ++ fcb.short.bytes
  if bytes.length ≤ size then .ok (bytes ++ List.replicate (size - bytes.length) 0)
  else .error .ub

/-- The entry `name` at offset `off` of the new directory `i`. -/
def writeDot (sb : Superblock) (fuel : Nat) (t : Inodes) (i : Fin nentry) (name : CStr) (off : Nat)
    (fileName fileExt : List (BitVec 8)) : FsProg (List (BitVec 8) × Superblock × Inodes) := do
  let (_, fcb, sb) ← fat32FcbInit sb fuel (t.entry i).toInode name 0x10 fileName fileExt
  let fcbDotChar ← Prog.lift (fcb.charsIn 64)
  let (tot, sb, ip) ← fat32InodeWrite sb (t.entry i).toInode fcbDotChar off 32
  if tot = 32 then
    return (fcbDotChar.take 32, sb, t.store (.slot i) { t.entry i with toInode := ip })
  else panic "assert failed"

/-- `.` -/
def dotName : CStr := ⟨[46], by decide⟩

/-- `..` -/
def dotdotName : CStr := ⟨[46, 46], by decide⟩

/-- The entries of the new directory `i`. -/
def writeDots (sb : Superblock) (fuel : Nat) (t : Inodes) (i : Fin nentry)
    (fileName fileExt : List (BitVec 8)) :
    FsProg (List (List (BitVec 8)) × Superblock × Inodes) := do
  let (dot, sb, t) ← writeDot sb fuel t i dotName 0 fileName fileExt
  let (dotdot, sb, t) ← writeDot sb fuel t i dotdotName 32 fileName fileExt
  return ([dot, dotdot], sb, t)

/-- The part of `fat32_inode_create` for a name that is not in the directory `dp`. `i_rdev` is left
out, which nothing reads. -/
def createNew (sb : Superblock) (fuel : Nat) (t : Inodes) (dp : Ptr) (name : CStr) (type : IType)
    (fileName fileExt : List (BitVec 8)) :
    FsProg (Fin nentry × List (List (BitVec 8)) × Superblock × Inodes) := do
  let (i, sb, t) ← fat32InodeAlloc sb fuel t dp name type fileName fileExt
  let t ← fat32InodeLock sb fuel t (.slot i)
  let t := t.store (.slot i) { t.entry i with iNlink := 1, iType := type }
  fat32InodeUpdate sb (t.entry i).toInode
  let (dots, sb, t) ←
    (if type = .dir then do
        let (dots, sb, t) ← writeDots sb fuel t i fileName fileExt
        fat32InodeUpdate sb (t.deref dp).toInode
        return (dots, sb, t)
      else return ([], sb, t) : FsProg (List (List (BitVec 8)) × Superblock × Inodes))
  let (sb, t) ← fat32InodeUnlockPut sb fuel t dp
  return (i, dots, sb, t)

/-- `fat32_inode_create`: the inode, and the entries that it writes in a new directory; `name` is
what its array `name` holds. -/
def fat32InodeCreate (sb : Superblock) (fuel : Nat) (t : Inodes) (cwd : Ptr) (path : List (BitVec 8))
    (type : IType) (name fileName fileExt : List (BitVec 8)) :
    FsProg (Option (Fin nentry) × List (List (BitVec 8)) × Superblock × Inodes) := do
  let (r, sb, t) ← createLookup sb fuel t cwd path name
  match r with
  | none => return (none, [], sb, t)
  | some (dp, _, some i) => do
    let (sb, t) ← fat32InodeUnlockPut sb fuel t dp
    let t ← fat32InodeLock sb fuel t (.slot i)
    let (sb, t) ← fat32InodeUnlockPut sb fuel t (.slot i)
    return (some i, [], sb, t)
  | some (dp, name, none) => do
    let (i, dots, sb, t) ← createNew sb fuel t dp name type fileName fileExt
    return (some i, dots, sb, t)

end Fs
