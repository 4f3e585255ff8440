import OS404.Fs.Table
import Mathlib.Data.List.TakeWhile

/-!
# Directories and paths (`fs/fat32_inode.c`, `fs/fat32_file.c`, `fs/ops.c`)

`fat32_inode_dirlookup`, `fat32_getdents` and `inode_namex` on the inodes in memory. A path is given
without its terminator. `fat32_getdents` is given as its scan followed by what it does at each entry
that the scan comes to; what it does there leaves the disk as it is. The bytes that it copies to the
user's buffer are given as the records.
-/

namespace Fs

open Lib (Prog)
open Driver (Sector)
open Str

/-- The string in a character array that holds a terminator. -/
def bufStr (buf : List (BitVec 8)) : CStr :=
  ⟨buf.takeWhile (· ≠ 0), fun h => by simpa using List.mem_takeWhile_imp h⟩

/-! ## Children of a directory -/

/-- The inode of an entry of the directory `p`, as both functions get it. -/
def getChild (t : Inodes) (p : Ptr) (v : Visit) (name : List (BitVec 8)) :
    Res (Fin nentry × Inodes) := do
  let (i, t) ← fat32InodeGet t (t.deref p).dev.toNat v.inum name v.off
  return (i, t.store (.slot i) { t.entry i with parent := some p, iNlink := 1 })

/-- The entry at which a scan stopped with a match. -/
def Scanned.hit : Scanned → Option Visit
  | .found s => s.visits.getLast?
  | .free _ => none
  | .more _ => none

/-- `fat32_inode_dirlookup`: the inode and what it stores in `poff`. -/
def fat32InodeDirlookup (sb : Superblock) (fuel : Nat) (t : Inodes) (p : Ptr) (name : CStr) :
    FsProg (Option (Fin nentry × Nat) × Inodes) := do
  let r ← dirlookupScan sb fuel (t.deref p).toInode name
  match r.hit with
  | none => return (none, t)
  | some v => do
    let (i, t) ← Prog.lift (getChild t p v name.chars)
    return (some (i, v.off), t)

/-- A `struct __dirent`. -/
structure UserDirent where
  dIno : Nat
  dOff : Nat
  dReclen : Nat
  dType : IType
  dName : List (BitVec 8)

/-- What `fat32_getdents` does with the inode of an entry: the record, and its array `d_name`, which
the next record is built in. -/
def getdentsRecord (sb : Superblock) (fuel : Nat) (t : Inodes) (i : Fin nentry) (cnt : Nat)
    (nameBuf dName : List (BitVec 8)) :
    FsProg (UserDirent × List (BitVec 8) × Superblock × Inodes) := do
  let t ← fat32InodeLock sb fuel t (.slot i)
  let e := t.entry i
  let fnameLen ← Prog.lift (strlen e.fname)
  let dName ← Prog.lift (strncpy dName 0 nameBuf fnameLen)
  let dName ← Prog.lift (Str.store dName fnameLen 0)
  let len ← Prog.lift (strlen dName)
  let record :=
    { dIno := e.iIno, dOff := cnt, dReclen := 8 + 8 + 1 + 2 + len + 1, dType := e.iType
      dName := dName.take len }
  let (sb, t) ← fat32InodeUnlockPut sb fuel t (.slot i)
  return (record, dName, sb, t)

/-- The entries of `fat32_getdents`, with `cnt` and `d_name`. -/
def getdentsVisits (fuel : Nat) (dp : Ptr) : List Visit → Nat → List (BitVec 8) → Superblock →
    Inodes → FsProg (List UserDirent × Superblock × Inodes)
  | [], _, _, sb, t => return ([], sb, t)
  | v :: vs, cnt, dName, sb, t => do
    let (i, t) ← Prog.lift (getChild t dp v v.nameBuf)
    let (record, dName, sb, t) ← getdentsRecord sb fuel t i (cnt + 1) v.nameBuf dName
    let (records, sb, t) ← getdentsVisits fuel dp vs (cnt + 1) dName sb t
    return (record :: records, sb, t)

/-- `fat32_getdents`. -/
def fat32Getdents (sb : Superblock) (fuel : Nat) (t : Inodes) (dp : Ptr) (dName : List (BitVec 8)) :
    FsProg (List UserDirent × Superblock × Inodes) := do
  let r ← getdentsScan sb fuel (t.deref dp).toInode
  getdentsVisits fuel dp r.scan.visits 0 dName sb t

/-! ## Paths -/

/-- `skepelem`: the rest of the path and `name`. -/
def skepelem (path name : List (BitVec 8)) : Res (Option (List (BitVec 8) × List (BitVec 8))) :=
  match path.dropWhile fun c => c = 47 ∨ c = 46 with
  | [] => .ok none
  | s => do
    let elem := s.takeWhile (· ≠ 47)
    let name ←
      (if pathLongMax ≤ elem.length then do
          let (_, name) ← copyName (elem.take pathLongMax) 0 name
          return name
        else do
          let (len, name) ← copyName elem 0 name
          Str.store name len 0 : Res (List (BitVec 8)))
    return some ((s.drop elem.length).dropWhile (· = 47), name)

/-- Where `inode_namex` starts. -/
def namexStart (t : Inodes) (cwd : Ptr) (path : List (BitVec 8)) : Res (Ptr × Inodes) := do
  let ip ←
    (if path.head? = some 47 then .ok .root
      else do
        let cmp ← strncmp (path ++ [0]) [46, 46, 0] 2
        if cmp = 0 then
          match (t.deref cwd).parent with
          | none => .error .ub
          | some q => .ok q
        else .ok cwd : Res Ptr)
  let t ← fat32InodeDup t ip
  return (ip, t)

/-- How an iteration of `inode_namex` ends: with its result and `name`, or at the next inode. -/
inductive Walked where
  | done (ip : Option Ptr) (name : List (BitVec 8))
  | walk (next : Fin nentry) (path name : List (BitVec 8))

/-- One iteration of `inode_namex`, and what follows the loop. -/
def namexStep (sb : Superblock) (fuel : Nat) (t : Inodes) (nameeparent : Bool) (ip : Ptr)
    (path name : List (BitVec 8)) : FsProg (Walked × Superblock × Inodes) := do
  let elem ← Prog.lift (skepelem path name)
  match elem with
  | none =>
    if nameeparent then do
      let (sb, t) ← fat32InodePut sb fuel t ip
      return (.done none name, sb, t)
    else return (.done (some ip) name, sb, t)
  | some (path, name) => do
    let t ← fat32InodeLock sb fuel t ip
    if ¬ DirBool (t.deref ip).attr then do
      let (sb, t) ← fat32InodeUnlockPut sb fuel t ip
      return (.done none name, sb, t)
    else if nameeparent ∧ path = [] then do
      fat32InodeUnlock t ip
      return (.done (some ip) name, sb, t)
    else do
      let (next, t) ← fat32InodeDirlookup sb fuel t ip (bufStr name)
      let (sb, t) ← fat32InodeUnlockPut sb fuel t ip
      match next with
      | none => return (.done none name, sb, t)
      | some (i, _) => return (.walk i path name, sb, t)

/-- The loop of `inode_namex`; every iteration takes an element off the path. -/
def namexLoop (fuel : Nat) (nameeparent : Bool) : Nat → Superblock → Inodes → Ptr → List (BitVec 8) →
    List (BitVec 8) → FsProg (Option Ptr × List (BitVec 8) × Superblock × Inodes)
  | 0, _, _, _, _, _ => .fail .loop
  | n + 1, sb, t, ip, path, name => do
    let (w, sb, t) ← namexStep sb fuel t nameeparent ip path name
    match w with
    | .done ip name => return (ip, name, sb, t)
    | .walk i path name => namexLoop fuel nameeparent n sb t (.slot i) path name

/-- `inode_namex`, with the current directory: the inode and `name`. -/
def inodeNamex (sb : Superblock) (fuel : Nat) (t : Inodes) (cwd : Ptr) (path : List (BitVec 8))
    (nameeparent : Bool) (name : List (BitVec 8)) :
    FsProg (Option Ptr × List (BitVec 8) × Superblock × Inodes) := do
  let (ip, t) ← Prog.lift (namexStart t cwd path)
  namexLoop fuel nameeparent (path.length + 1) sb t ip path name

end Fs
