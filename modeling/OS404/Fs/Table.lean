import OS404.Fs.Dir
import OS404.Fs.Inode
import Mathlib.Algebra.GroupWithZero.Nat
import Mathlib.Data.List.FinRange

/-!
# The inode table (`fs/fat32_inode.c`)

`inode_table` and the functions that count the references to its entries. A `struct inode *` is a
`Ptr`: the root is on the heap, every other inode is an entry of the table. `ref` is an `int`, whose
overflow is undefined. `fat32_inode_put` truncates a file without links: it walks the file's chain,
which is bounded by `fuel` here, and writes to the directory.
-/

namespace Fs

open Lib (Prog)
open Driver (Sector)
open Str

/-- `NENTRY`. -/
def nentry : Nat := 50

instance : NeZero nentry := ⟨Nat.succ_ne_zero 49⟩

/-- A pointer to an inode. -/
inductive Ptr where
  | root
  | slot (i : Fin nentry)
  deriving DecidableEq

/-- A `struct inode` in memory. `dev` is its `i_dev`, which has 8 bits; blocks are read from the
mounted device. -/
structure Entry extends Inode where
  dev : BitVec 8
  ref : Int
  valid : Bool
  iNlink : BitVec 16
  parent : Option Ptr
  parentOff : Nat
  fname : List (BitVec 8)

/-- The inodes in memory. -/
structure Inodes where
  root : Entry
  entry : Fin nentry → Entry

namespace Inodes

/-- `*p`. -/
def deref (t : Inodes) : Ptr → Entry
  | .root => t.root
  | .slot i => t.entry i

/-- `*p = e`. -/
def store (t : Inodes) : Ptr → Entry → Inodes
  | .root, e => { t with root := e }
  | .slot i, e => { t with entry := Function.update t.entry i e }

end Inodes

/-- An entry of zeros. Its `i_type` is none of the three; nothing looks at it before
`fat32_inode_lock` sets it. -/
def Entry.zero : Entry :=
  { iDev := ⟨rootDev, rfl⟩, iIno := 0, iMode := 0, iSize := 0, iType := .file, attr := 0
    dirLstAccDate := 0, dirWrtTime := 0, dirWrtDate := 0, clusterStart := 0, clusterEnd := 0
    clusterCnt := 0, dev := 0, ref := 0, valid := false, iNlink := 0, parent := none, parentOff := 0
    fname := List.replicate nameLongMax 0 }

/-- The root of `fat32_root_inode_init`, with the inode that it computes. -/
def Entry.ofRoot (ip : Inode) : Entry :=
  { ip with
    dev := BitVec.ofNat 8 ip.iDev.val, ref := 0, valid := true, iNlink := 1, parent := some .root
    parentOff := 0, fname := 47 :: List.replicate (nameLongMax - 1) 0 }

/-- The table of `inode_table_init`, and the root. -/
def inodeTableInit (ip : Inode) : Inodes := { root := .ofRoot ip, entry := fun _ => .zero }

/-! ## References -/

/-- `INT_MAX`. -/
def intMax : Int := 2 ^ 31 - 1

/-- `INT_MIN`. -/
def intMin : Int := -2 ^ 31

/-- `ip->ref++`. -/
def Entry.incRef (e : Entry) : Res Entry :=
  if e.ref = intMax then .error .ub else .ok { e with ref := e.ref + 1 }

/-- `ip->ref--`. -/
def Entry.decRef (e : Entry) : Res Entry :=
  if e.ref = intMin then .error .ub else .ok { e with ref := e.ref - 1 }

/-- `fat32_inode_dup`. -/
def fat32InodeDup (t : Inodes) (p : Ptr) : Res Inodes := do
  let e ← (t.deref p).incRef
  return t.store p e

/-- The entry is in use for inode `inum` of `dev`. -/
abbrev Entry.Matches (e : Entry) (dev inum : Nat) : Prop :=
  0 < e.ref ∧ e.dev.toNat = dev ∧ e.iIno = inum

/-- How the loop of `fat32_inode_get` ends. -/
inductive GetScan where
  | hit (i : Fin nentry)
  | empty (slot : Option (Fin nentry))

/-- The loop of `fat32_inode_get` over the entries that are left, with `empty`. -/
def getLoop (t : Inodes) (dev inum : Nat) : List (Fin nentry) → Option (Fin nentry) → GetScan
  | [], empty => .empty empty
  | i :: is, empty =>
    if (t.entry i).Matches dev inum then .hit i
    else getLoop t dev inum is (if empty = none ∧ (t.entry i).ref = 0 then some i else empty)

/-- The free entry that `fat32_inode_get` takes, for inode `inum` of `dev`. The bytes of `fname`
behind the name stay. -/
def Entry.recycle (e : Entry) (dev inum : Nat) (name : List (BitVec 8)) (parentoff : Nat) :
    Res Entry := do
  let len ← strlen name
  let fname ← strncpy e.fname 0 name len
  return { e with
    dev := BitVec.ofNat 8 dev, iIno := inum, ref := 1, valid := false, parentOff := parentoff, fname }

/-- `fat32_inode_get`. -/
def fat32InodeGet (t : Inodes) (dev inum : Nat) (name : List (BitVec 8)) (parentoff : Nat) :
    Res (Fin nentry × Inodes) :=
  match getLoop t dev inum (List.finRange nentry) none with
  | .hit i => do
    let e ← (t.entry i).incRef
    return (i, t.store (.slot i) e)
  | .empty none => .error (.panic "fat32_inode_get: no space")
  | .empty (some i) => do
    let e ← (t.entry i).recycle dev inum name parentoff
    return (i, t.store (.slot i) e)

/-! ## `fat32_inode_lock` -/

/-- What `fat32_inode_lock` copies from the directory entry before it walks the chain. -/
def Entry.loadStart (e : Entry) (fcb : Dirent) : Entry :=
  { e with attr := (fcb 11).toNat, clusterStart := dirFirstClus (fcb.getWord 20) (fcb.getWord 26) }

/-- The rest. `DIR_WrtDate` is not copied. -/
def Entry.loadRest (sb : Superblock) (e : Entry) (fcb : Dirent) : Entry :=
  let iType : IType :=
    if fcb 12 ≠ 0 then .device else if DirBool e.attr then .dir else .file
  { e with
    dirLstAccDate := fcb.getWord 18, dirWrtTime := fcb.getWord 22, iType
    iSize := match iType with
      | .file => fcb.getWord 28 + 2 ^ 16 * fcb.getWord 30
      | .dir => dirlength sb e.toInode
      | .device => 0
    iMode := e.attr &&& 1, valid := true }

/-- The part of `fat32_inode_lock` for an inode that is not in memory. -/
def Entry.load (sb : Superblock) (fuel : Nat) (e : Entry) : FsProg Entry := do
  let d ← readSector e.iDev (fatinumToSector sb e.iIno)
  let fcb := direntAt d (fatinumToOffset sb e.iIno)
  let e := e.loadStart fcb
  let other ←
    (if e.clusterStart = sb.rootClusterS then do
        let cmp ← Prog.lift (strncmp e.fname [47, 0] pathLongMax)
        return decide (cmp ≠ 0)
      else return false : FsProg Bool)
  if other then panic "this disk image has error \n"
  else do
    let e ←
      (if e.clusterStart ≠ 0 then do
          let (cnt, ip) ← fat32FatTravel sb fuel e.toInode 0
          return { e with toInode := { ip with clusterCnt := cnt } }
        else return e : FsProg Entry)
    let e := e.loadRest sb fcb
    if e.attr = 0 then panic "fat32_inode_lock: no Attr"
    else return e

/-- `fat32_inode_lock`. -/
def fat32InodeLock (sb : Superblock) (fuel : Nat) (t : Inodes) (p : Ptr) : FsProg Inodes :=
  if (t.deref p).ref < 1 then panic "inode lock"
  else if (t.deref p).valid then return t
  else do
    let e ← (t.deref p).load sb fuel
    return t.store p e

/-- `fat32_inode_unlock`. -/
def fat32InodeUnlock (t : Inodes) (p : Ptr) : FsProg Unit :=
  if (t.deref p).ref < 1 then panic "fat32 unlock" else return ()

/-! ## `fat32_inode_put` -/

/-- `FCB_MAX_LENGTH`. -/
def fcbMaxLength : Nat := 672

/-- `fcb_char` in `fat32_inode_delete` with the first bytes of `n` entries set. -/
def deadEntries : Nat → Res (List (BitVec 8))
  | 0 => .ok (List.replicate fcbMaxLength 0)
  | n + 1 => do
    let fcbChar ← deadEntries n
    Str.store fcbChar (n * 32) 0xE5

/-- `fat32_inode_delete`. -/
def fat32InodeDelete (sb : Superblock) (t : Inodes) (dp ip : Ptr) : FsProg (Superblock × Inodes) := do
  let e := t.deref ip
  let strLen ← Prog.lift (strlen e.fname)
  -- `off` is an `int`
  if e.parentOff = 0 ∨ 2 ^ 31 ≤ e.parentOff then panic "assert failed"
  else do
    let longDirLen := (strLen + fatLfnLength - 1) / fatLfnLength
    let fcbChar ← Prog.lift (deadEntries (longDirLen + 1))
    if e.parentOff ≤ longDirLen then panic "assert failed"
    else do
      let n := (longDirLen + 1) * direntSize
      let (tot, sb, dir) ← fat32InodeWrite sb (t.deref dp).toInode fcbChar
        (u32 ((e.parentOff - longDirLen) * direntSize)) n
      if tot = n then return (sb, t.store dp { t.deref dp with toInode := dir })
      else panic "assert failed"

/-- The loop of `fat32_inode_trunc`. -/
def truncLoop (sb : Superblock) : Nat → Nat → FsProg Unit
  | 0, _ => .fail .loop
  | fuel + 1, iter =>
    if Iseof iter then return ()
    else do
      let fatNext ← fat32NextCluster sb iter
      fat32FatSet sb iter eoc
      truncLoop sb fuel fatNext

/-- What `fat32_inode_trunc` leaves of the inode. -/
def Entry.truncated (e : Entry) : Entry :=
  { e with clusterStart := 0, clusterEnd := 0, parentOff := 0, clusterCnt := 0, iMode := 0, iSize := 0 }

/-- `fat32_inode_trunc`. -/
def fat32InodeTrunc (sb : Superblock) (fuel : Nat) (t : Inodes) (p : Ptr) :
    FsProg (Superblock × Inodes) := do
  truncLoop sb fuel (t.deref p).clusterStart
  match (t.deref p).parent with
  | none => .fail .ub
  | some dp => do
    let (sb, t) ← fat32InodeDelete sb t dp p
    let e := (t.deref p).truncated
    fat32InodeUpdate sb e.toInode
    return (sb, t.store p e)

/-- `fat32_inode_put`. -/
def fat32InodePut (sb : Superblock) (fuel : Nat) (t : Inodes) (p : Ptr) :
    FsProg (Superblock × Inodes) := do
  let e := t.deref p
  let (sb, t) ←
    (if e.ref = 1 ∧ e.valid ∧ e.iNlink = 0 then do
        let (sb, t) ← fat32InodeTrunc sb fuel t p
        let e := { t.deref p with attr := 0 }
        fat32InodeUpdate sb e.toInode
        return (sb, t.store p { e with valid := false })
      else return (sb, t) : FsProg (Superblock × Inodes))
  let e ← Prog.lift (t.deref p).decRef
  return (sb, t.store p e)

/-- `fat32_inode_unlock_put`. -/
def fat32InodeUnlockPut (sb : Superblock) (fuel : Nat) (t : Inodes) (p : Ptr) :
    FsProg (Superblock × Inodes) := do
  fat32InodeUnlock t p
  fat32InodePut sb fuel t p

end Fs
