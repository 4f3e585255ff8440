import OS404.Fs.Create

/-!
# Open files (`fs/ops.c`, `fs/fat32_file.c`)

`name_to_i` and `find_inode` for a task with its working directory and its open files,
`fat32_fileread`, what `fat32_getdents` copies to the user's buffer, and `fat32_getcwd`. The buffer of
the directory entries is given by the bytes from its start on; the functions do not look at its end.
-/

namespace Fs

open Lib (Prog)
open Driver (Sector)

/-- A `uint32_t` as an `int`. -/
def toInt32 (x : Nat) : Int := if x < 2 ^ 31 then x else x - 2 ^ 32

/-- An `int` as a `uint32_t`. -/
def ofInt32 (x : Int) : Nat := (x % 2 ^ 32).toNat

/-- `type_t`. -/
inductive FType where
  | none
  | pipe
  | inode
  | device
  deriving DecidableEq

/-- A `struct file`. -/
structure File where
  fType : FType
  fPos : Nat
  fFlags : BitVec 16
  fInode : Option Ptr

/-- `F_READABLE`. -/
def File.readable (f : File) : Bool := f.fFlags &&& 1 ≠ 1

/-! ## `find_inode` -/

/-- `NOFILE`. -/
def nofile : Int := 128

/-- `AT_FDCWD`. -/
def atFdcwd : Int := -100

/-- The fields `_cwd` and `_ofile` of a task. -/
structure Proc where
  cwd : Option Ptr
  ofile : Nat → Option File

/-- `name_to_i`; `buf` is what its array `name` holds. -/
def nameToI (sb : Superblock) (fuel : Nat) (t : Inodes) (cwd : Ptr) (path buf : List (BitVec 8)) :
    FsProg (Option Ptr × Superblock × Inodes) := do
  let (ip, _, sb, t) ← inodeNamex sb fuel t cwd path false buf
  return (ip, sb, t)

/-- The walk of `find_inode` from the working directory: the inode and `name`. -/
def findFrom (sb : Superblock) (fuel : Nat) (t : Inodes) (cwd : Option Ptr) (path : List (BitVec 8))
    (name : Option (List (BitVec 8))) (buf : List (BitVec 8)) :
    FsProg (Option Ptr × Option (List (BitVec 8)) × Superblock × Inodes) :=
  match cwd, name with
  | none, _ => panic "assert failed"
  | some cwd, none => do
    let (ip, sb, t) ← nameToI sb fuel t cwd path buf
    return (ip, none, sb, t)
  | some cwd, some name => do
    let (ip, name, sb, t) ← nameToIParent sb fuel t cwd path name
    return (ip, some name, sb, t)

/-- `find_inode` of the task `p`: the inode, `name` and the task. -/
def findInode (sb : Superblock) (fuel : Nat) (t : Inodes) (p : Proc) (path : List (BitVec 8))
    (dirfd : Int) (name : Option (List (BitVec 8))) (buf : List (BitVec 8)) :
    FsProg (Option Ptr × Option (List (BitVec 8)) × Proc × Superblock × Inodes) :=
  if path.head? = some 47 ∨ dirfd = atFdcwd then do
    let (ip, name, sb, t) ← findFrom sb fuel t p.cwd path name buf
    return (ip, name, p, sb, t)
  else if dirfd < 0 ∨ nofile ≤ dirfd then return (none, name, p, sb, t)
  else
    match p.ofile dirfd.toNat with
    | none => return (none, name, p, sb, t)
    | some f => do
      let oldcwd := p.cwd
      let p := { p with cwd := f.fInode }
      let (ip, name, sb, t) ← findFrom sb fuel t p.cwd path name buf
      match ip with
      | none => return (none, name, p, sb, t)
      | some ip => return (some ip, name, { p with cwd := oldcwd }, sb, t)

/-! ## `fat32_fileread` -/

/-- `fat32_fileread`: the returned value, the bytes copied to `addr`, and the file. Nothing enters a
driver in `devsw`, so a device is not read. -/
def fat32Fileread (sb : Superblock) (fuel : Nat) (t : Inodes) (f : File) (n : Int) :
    FsProg (Int × List (BitVec 8) × File × Inodes) :=
  if f.readable = false then return (-1, [], f, t)
  else
    match f.fType, f.fInode with
    | .device, _ => return (-1, [], f, t)
    | .inode, none => .fail .ub
    | .inode, some p => do
      -- `MIN` compares as `uint32_t`
      let n := min (ofInt32 n) (t.deref p).iSize
      let t ← fat32InodeLock sb fuel t p
      let (r, dst) ← fat32InodeRead sb (t.deref p).toInode f.fPos n
      let f := if 0 < toInt32 r then { f with fPos := u32 (f.fPos + r) } else f
      fat32InodeUnlock t p
      return (toInt32 r, dst, f, t)
    | .none, _ => panic "fileread"
    | .pipe, _ => panic "fileread"

/-! ## The buffer of `fat32_getdents` -/

/-- `T_DIR`, `T_FILE`, `T_DEVICE`. -/
def IType.code : IType → Nat
  | .dir => 1
  | .file => 2
  | .device => 3

/-- The bytes of a `struct __dirent`. -/
def UserDirent.bytes (r : UserDirent) : List (BitVec 8) :=
  leBytes 8 r.dIno ++ leBytes 8 r.dOff ++ leBytes 2 r.dReclen ++ leBytes 1 r.dType.code ++
    r.dName ++ [0]

/-- `memmove` of `bytes` to offset `o` of a buffer. -/
def putBytes (buf : Nat → BitVec 8) (o : Nat) (bytes : List (BitVec 8)) : Nat → BitVec 8 := fun a =>
  if o ≤ a then bytes.getD (a - o) (buf a) else buf a

/-- Copying the records to `buf + nread`. -/
def copyRecords : List UserDirent → Nat → (Nat → BitVec 8) → Nat × (Nat → BitVec 8)
  | [], nread, buf => (nread, buf)
  | r :: rs, nread, buf =>
    copyRecords rs (nread + r.dReclen) (putBytes buf nread (r.bytes.take r.dReclen))

/-- `fat32_getdents(dp, buf, len)`: the returned count and the buffer. It does not use `len`. -/
def fat32GetdentsTo (sb : Superblock) (fuel : Nat) (t : Inodes) (dp : Ptr) (dName : List (BitVec 8))
    (buf : Nat → BitVec 8) (_len : Nat) : FsProg (Nat × (Nat → BitVec 8) × Superblock × Inodes) :=
  if ¬ DirBool (t.deref dp).attr then panic "getdents : not DIR"
  else do
    let (records, sb, t) ← fat32Getdents sb fuel t dp dName
    let (nread, buf) := copyRecords records 0 buf
    return (nread, buf, sb, t)

/-! ## `fat32_getcwd` -/

/-- `get_absolute_path`, for at most `fuel` inodes. -/
def getAbsolutePath (t : Inodes) : Nat → Ptr → List (BitVec 8) → Res (List (BitVec 8))
  | 0, _, _ => .error .loop
  | fuel + 1, p, buf => do
    let fname := (t.deref p).fname
    let c ← Str.load fname 0
    let buf ←
      (if c ≠ 47 then
          match (t.deref p).parent with
          | none => .error .ub
          | some q => getAbsolutePath t fuel q buf
        else .ok buf : Res (List (BitVec 8)))
    let n0 ← Str.strlen buf
    let n1 ← Str.strlen fname
    let buf ← Str.strncpy buf n0 fname n1
    if c ≠ 47 then Str.strncpy buf (n0 + n1) [47, 0] 2 else .ok buf

/-- `fat32_getcwd` for a task with the working directory `cwd`. -/
def fat32Getcwd (t : Inodes) (fuel : Nat) (cwd : Ptr) (buf : Option (List (BitVec 8))) :
    Res (Option (List (BitVec 8))) :=
  match buf with
  | none => .ok none
  | some buf => do
    let buf ← getAbsolutePath t fuel cwd buf
    let n ← Str.strlen buf
    let buf ← (if n > 1 then Str.store buf (n - 1) 0 else .ok buf : Res (List (BitVec 8)))
    return some buf

end Fs
