import OS404.Fs.Inode
import OS404.Str

/-!
# Directory entries of a new file (`fs/fat32_inode.c`, `fs/fat32_stack.c`)

`fat32_fcb_init` builds the entries of a new file and takes its first cluster. Its local arrays
`file_name` and `file_ext` are not initialised, so what they hold is an argument here. The bytes it
writes to `fcb_char` are those of the entries in `Fcb`, the long ones first. `malloc` in
`stack_init` is taken to succeed.
-/

namespace Fs

open Lib (Prog)
open Driver (Sector)
open Str

/-- The fields of `dirent_s_t` that are not left zero. -/
structure DirentS where
  dirName : List (BitVec 8)
  dirAttr : Nat
  dirFstClusHI : Nat
  dirFstClusLO : Nat
  dirFileSize : Nat

/-- `dirent_l_t`. -/
structure DirentL where
  ldirOrd : Nat
  ldirName1 : List Nat
  ldirAttr : Nat
  ldirType : Nat
  ldirChksum : BitVec 8
  ldirName2 : List Nat
  ldirNlinks : Nat
  ldirName3 : List Nat

/-- What `fat32_fcb_init` writes to `fcb_char`. -/
structure Fcb where
  long : List DirentL
  short : DirentS

/-- `DIR_BOOL`. -/
abbrev DirBool (attr : Nat) : Prop := attr &&& 0x10 ≠ 0

/-- `DIR_FIRST_HIGH`, stored in 16 bits. -/
def dirFirstHigh (c : Nat) : Nat := (c >>> 16) % 2 ^ 16

/-- `DIR_FIRST_LOW`. -/
def dirFirstLow (c : Nat) : Nat := c &&& 0xFFFF

/-- `DIR_FIRST_CLUS`. -/
def dirFirstClus (high low : Nat) : Nat := u32 (high <<< 16) ||| low

/-- `ATTR_LONG_NAME`. -/
def attrLongName : Nat := 0x0F

/-- `PATH_LONG_MAX`. -/
def pathLongMax : Nat := 260

/-- `NAME_LONG_MAX`. -/
def nameLongMax : Nat := 255

/-- `FAT_LFN_LENGTH`. -/
def fatLfnLength : Nat := 13

/-- `CAPACITY` of the stack of long entries. -/
def capacity : Nat := 30

/-! ## `fat32_find_same_name_cnt` -/

/-- The first bytes of the entry at byte `base` of a sector. -/
def direntBytes (d : Sector) (base n : Nat) : List (BitVec 8) :=
  (List.range n).map fun i => d (BitVec.ofNat 9 (base + i))

/-- The loop over the entries of a sector, with the iterations left: the count, and whether a free
entry ended it. -/
def sameNameEntries (d : Sector) (name : List (BitVec 8)) : Nat → Nat → Nat → Res (Nat × Bool)
  | 0, _, ret => .ok (ret, false)
  | n + 1, idx, ret => do
    let base := direntSize * idx
    let dirName := direntBytes d base 11
    let name0 ← load dirName 0
    let attr := d (BitVec.ofNat 9 (base + 11))
    let cmp ← strncmp dirName name 6
    let hit := attr.toNat ≠ attrLongName ∧ name0 ≠ 0xE5 ∧ name0 ≠ 0 ∧ cmp = 0 ∧
      d (BitVec.ofNat 9 (base + 6)) = 126
    let ret := if hit then ret + 1 else ret
    if Name0FreeAll name0 then return (ret, true) else sameNameEntries d name n (idx + 1) ret

/-- The loop over the sectors of a cluster, with the iterations left. -/
def sameNameSectors (sb : Superblock) (ip : Inode) (name : List (BitVec 8)) (first : Nat) :
    Nat → Nat → Nat → FsProg (Nat × Bool)
  | 0, _, ret => return (ret, false)
  | n + 1, s, ret => do
    let d ← readSector ip.iDev (u32 (first + s))
    let (ret, done) ← Prog.lift (sameNameEntries d name (fcbPerBlock sb) 0 ret)
    if done then return (ret, true) else sameNameSectors sb ip name first n (s + 1) ret

/-- The loop over the clusters of the directory. -/
def sameNameClusters (sb : Superblock) (ip : Inode) (name : List (BitVec 8)) :
    Nat → Nat → Nat → FsProg Nat
  | 0, _, _ => .fail .loop
  | fuel + 1, iter, ret =>
    if Iseof iter then return ret
    else do
      let (ret, done) ←
        sameNameSectors sb ip name (firstSectorofCluster sb iter) sb.sectorsPerBlock 0 ret
      if done then return ret
      else do
        let next ← fat32NextCluster sb iter
        sameNameClusters sb ip name fuel next ret

/-- `fat32_find_same_name_cnt`, with a bound on the length of the directory's chain. -/
def fat32FindSameNameCnt (sb : Superblock) (fuel : Nat) (ip : Inode) (name : List (BitVec 8)) :
    FsProg Nat :=
  if DirBool ip.attr then do
    let name ← Prog.lift (strToupper name)
    sameNameClusters sb ip name fuel ip.clusterStart 0
  else panic "find same name cnt not DIR"

/-! ## `fat32_fcb_init` -/

/-- `ChkSum` of the bytes still to come. -/
def chkSum : List (BitVec 8) → BitVec 8 → BitVec 8
  | [], sum => sum
  | x :: name, sum => chkSum name ((if sum &&& 1 ≠ 0 then 0x80 else 0) + (sum >>> 1) + x)

/-- One of the loops that fill `LDIR_Name1`, `LDIR_Name2`, `LDIR_Name3`, with the iterations left:
the characters, `char_idx` and `end_flag`. What it does not reach keeps the `0xFF` of `memset`. -/
def fillName (name : List (BitVec 8)) : Nat → Nat → Bool → Res (List Nat × Nat × Bool)
  | 0, charIdx, endFlag => .ok ([], charIdx, endFlag)
  | n + 1, charIdx, endFlag =>
    if endFlag then .ok (List.replicate (n + 1) 0xFFFF, charIdx, endFlag)
    else do
      let x ← load name charIdx
      let (xs, charIdx, endFlag) ← fillName name n (charIdx + 1) (x = 0)
      return (x.toNat :: xs, charIdx, endFlag)

/-- One long entry, and `char_idx` after it. -/
def longEntry (name : List (BitVec 8)) (checksum : BitVec 8) (ord charIdx : Nat) :
    Res (DirentL × Nat) := do
  let (name1, charIdx, endFlag) ← fillName name 5 charIdx false
  let (name2, charIdx, endFlag) ← fillName name 6 charIdx endFlag
  let (name3, charIdx, _) ← fillName name 2 charIdx endFlag
  return ({ ldirOrd := ord % 2 ^ 8, ldirName1 := name1, ldirAttr := attrLongName, ldirType := 0
            ldirChksum := checksum, ldirName2 := name2, ldirNlinks := 0, ldirName3 := name3 },
    charIdx)

/-- The loop over the long entries, with the iterations left, `ord_max` in all; they are pushed on
`stack`. -/
def longEntries (name : List (BitVec 8)) (nameLen ordMax : Nat) (checksum : BitVec 8) :
    Nat → Nat → Nat → List DirentL → Res (List DirentL)
  | 0, _, _, stack => .ok stack
  | n + 1, i, charIdx, stack =>
    if charIdx = nameLen then .ok stack
    else do
      let (e, charIdx) ← longEntry name checksum (if i = ordMax then i ||| 0x40 else i) charIdx
      if stack.length = capacity then .error (.panic "Stack Overflow!")
      else longEntries name nameLen ordMax checksum n (i + 1) charIdx (e :: stack)

/-- The extension in `DIR_Name`, from `file_ext`. -/
def shortExt (dirName fileExt : List (BitVec 8)) : Res (List (BitVec 8)) := do
  let fileExt ← strToupper fileExt
  let dirName ← strncpy dirName 8 fileExt 3
  let len ← strlen fileExt
  let dirName ← (if len = 2 then store dirName 10 0x20 else .ok dirName : Res (List (BitVec 8)))
  if len = 1 then do
    let dirName ← store dirName 10 0x20
    store dirName 9 0x20
  else .ok dirName

/-- `file_name` and the extension in `DIR_Name` of a file. -/
def fileNames (name fileName fileExt dirName : List (BitVec 8)) :
    Res (List (BitVec 8) × List (BitVec 8)) := do
  let split ← strSplit name 46 fileName fileExt
  match split with
  | none => do
    let fileName ← strncpy fileName 0 name 8
    let dirName ← store dirName 8 0x20
    let dirName ← store dirName 9 0x20
    let dirName ← store dirName 10 0x20
    return (fileName, dirName)
  | some (fileName, fileExt) => do
    let dirName ← shortExt dirName fileExt
    return (fileName, dirName)

/-- The `~` and the digit in `DIR_Name`. -/
def tildeName (dirName : List (BitVec 8)) (longIdx : Nat) : Res (List (BitVec 8)) := do
  let dirName ← store dirName 6 126
  store dirName 7 (BitVec.ofNat 8 (longIdx + 0x31))

/-- `DIR_Name` of a file (the branch `!DIR_BOOL(attr)`). -/
def shortNameFile (sb : Superblock) (fuel : Nat) (parent : Inode)
    (name fileName fileExt : List (BitVec 8)) : FsProg (List (BitVec 8)) := do
  let (fileName, dirName) ← Prog.lift (fileNames name fileName fileExt (List.replicate 11 0))
  let fileName ← Prog.lift (strToupper fileName)
  let dirName ← Prog.lift (strncpy dirName 0 fileName 8)
  let len ← Prog.lift (strlen name)
  if 8 < len then do
    let longIdx ← fat32FindSameNameCnt sb fuel parent fileName
    Prog.lift (tildeName dirName longIdx)
  else return dirName

/-- `DIR_Name` of a directory. -/
def shortNameDir (sb : Superblock) (fuel : Nat) (parent : Inode)
    (name fileName : List (BitVec 8)) : FsProg (List (BitVec 8)) := do
  let fileName ← Prog.lift (strncpy fileName 0 name 11)
  let fileName ← Prog.lift (strToupper fileName)
  let dirName ← Prog.lift (strncpy (List.replicate 11 0) 0 fileName 8)
  let len ← Prog.lift (strlen name)
  if 8 < len then do
    let longIdx ← fat32FindSameNameCnt sb fuel parent fileName
    let dirName ← Prog.lift (tildeName dirName longIdx)
    let dirName ← Prog.lift (store dirName 8 0x20)
    let dirName ← Prog.lift (store dirName 9 0x20)
    Prog.lift (store dirName 10 0x20)
  else return dirName

/-- The names that `fat32_fcb_init` takes for `.` and `..`: those that `fat32_namecmp` does not
tell from `.` or `..`. -/
def isDotName (name : List (BitVec 8)) : Res Bool := do
  let dot ← strncmp name [46, 0] pathLongMax
  let dotdot ← strncmp name [46, 46, 0] pathLongMax
  return dot = 0 ∨ dotdot = 0

/-- The entry of `.` or `..`. -/
def dotFcb (parent : Inode) (name : List (BitVec 8)) (attr : Nat) : Res Fcb := do
  let len ← strlen name
  let dirName ← strncpy (List.replicate 11 0) 0 name len
  return { long := []
           short := { dirName, dirAttr := attr, dirFileSize := 0
                      dirFstClusHI := dirFirstHigh parent.clusterStart
                      dirFstClusLO := dirFirstLow parent.clusterStart } }

/-- The entries of a new file whose short name and first cluster are chosen. -/
def newFcb (name dirName : List (BitVec 8)) (attr firstC : Nat) : Res Fcb := do
  let nameLen ← strlen name
  let ordMax := (nameLen + fatLfnLength - 1) / fatLfnLength
  let long ← longEntries name nameLen ordMax (chkSum dirName 0) ordMax 1 0 []
  return { long
           short := { dirName, dirAttr := attr, dirFileSize := 0
                      dirFstClusHI := dirFirstHigh firstC, dirFstClusLO := dirFirstLow firstC } }

/-- `fat32_fcb_init`: the returned count, the entries and the superblock. -/
def fat32FcbInit (sb : Superblock) (fuel : Nat) (parent : Inode) (longName : CStr) (attr : Nat)
    (fileName fileExt : List (BitVec 8)) : FsProg (Nat × Fcb × Superblock) := do
  let name := longName.chars
  let dot ← Prog.lift (isDotName name)
  if dot then do
    let fcb ← Prog.lift (dotFcb parent name attr)
    return (1, fcb, sb)
  else do
    let dirName ←
      (if DirBool attr then shortNameDir sb fuel parent name fileName
        else shortNameFile sb fuel parent name fileName fileExt : FsProg (List (BitVec 8)))
    let (firstC, sb) ← fat32ClusterAlloc sb parent.iDev
    let fcb ← Prog.lift (newFcb name dirName attr firstC)
    return (fcb.long.length + 1, fcb, sb)

end Fs
