import OS404.Fs.LongName

/-!
# Scanning a directory (`fs/fat32_inode.c`, `fs/fat32_file.c`)

The loops of `fat32_inode_dirlookup` and `fat32_getdents` over the entries of a directory. `idx` is
given by the entries of the sector that are left. Each live short entry that they come to is a
`Visit`, with its inode number, `off` and `name_buf`; what is done with it there does not change the
scan. The stack of long entries is kept from entry to entry, from sector to sector and from cluster
to cluster. Both functions look at the attribute of entry `FCB_PER_BLOCK` before they look at `idx`;
it is behind the data, in the same `struct buffer`, and what it holds does not matter. The debug
output of `fat32_inode_dirlookup` is left out.
-/

namespace Fs

open Lib (Prog)
open Driver (Sector)
open Str

/-- The 32 bytes of a directory entry. -/
abbrev Dirent := BitVec 5 → BitVec 8

namespace Dirent

/-- `DIR_Name[0]`. -/
def name0 (e : Dirent) : BitVec 8 := e 0

/-- `DIR_Name`. -/
def dirName (e : Dirent) : List (BitVec 8) := (List.range 11).map fun i => e (BitVec.ofNat 5 i)

/-- The `uint16_t` at byte `o`. -/
def getWord (e : Dirent) (o : Nat) : Nat :=
  (e (BitVec.ofNat 5 o)).toNat + 2 ^ 8 * (e (BitVec.ofNat 5 (o + 1))).toNat

/-- The entry as a `dirent_l_t`. -/
def toLong (e : Dirent) : DirentL where
  ldirOrd := (e 0).toNat
  ldirName1 := [1, 3, 5, 7, 9].map e.getWord
  ldirAttr := (e 11).toNat
  ldirType := (e 12).toNat
  ldirChksum := e 13
  ldirName2 := [14, 16, 18, 20, 22, 24].map e.getWord
  ldirNlinks := e.getWord 26
  ldirName3 := [28, 30].map e.getWord

/-- `LONG_NAME_BOOL` of the attribute. -/
abbrev LongNameBool (e : Dirent) : Prop := (e 11).toNat = attrLongName

/-- `NAME0_FREE_BOOL` of the first byte. -/
abbrev Name0FreeBool (e : Dirent) : Prop := e.name0 = 0xE5 ∨ e.name0 = 0

end Dirent

/-- Entry `idx` of a sector. -/
def direntAt (d : Sector) (idx : Nat) : Dirent := fun i =>
  d (BitVec.ofNat 9 (direntSize * idx + i.toNat))

/-- The entries of a sector. -/
def sectorEntries (sb : Superblock) (d : Sector) : List Dirent :=
  (List.range (fcbPerBlock sb)).map (direntAt d)

/-- `SECTOR_TO_FATINUM(s, offset)`. -/
def sectorToFatinum (sb : Superblock) (s offset : Nat) : Nat :=
  u32 (u32 (subU32 s (firstDataSector sb) * fcbPerBlock sb) + offset + 1)

/-- A live short entry that a scan came to. -/
structure Visit where
  inum : Nat
  off : Nat
  nameBuf : List (BitVec 8)

/-- The variables of a scan. -/
structure Scan where
  stack : List DirentL
  off : Nat
  visits : List Visit

/-- How a loop over entries ends: at a free entry, at a match, or after the last one. -/
inductive Scanned where
  | free (s : Scan)
  | found (s : Scan)
  | more (s : Scan)

def Scanned.scan : Scanned → Scan
  | .free s => s
  | .found s => s
  | .more s => s

/-- Going on after a loop that came to its last entry. -/
def Scanned.andThen (r : Scanned) (next : Scan → FsProg Scanned) : FsProg Scanned :=
  match r with
  | .more s => next s
  | r => return r

/-- Before the first entry. -/
def Scan.start : Scan := { stack := [], off := 0, visits := [] }

/-! ## One sector -/

/-- The loop that pushes long entries. -/
def pushLong : List Dirent → Scan → Res (List Dirent × Scan)
  | [], s => .ok ([], s)
  | e :: es, s =>
    if e.LongNameBool then do
      let stack ← stackPush s.stack e.toLong
      pushLong es { s with stack, off := u32 (s.off + 1) }
    else .ok (e :: es, s)

/-- The name of a short entry in `name_buf`, and the stack after it. -/
def shortVisit (sb : Superblock) (sec : Nat) (e : Dirent) (idx : Nat) (s : Scan) :
    Res (List (BitVec 8) × Scan) := do
  let (longValid, stack, nameBuf) ←
    fat32LongnamePopstack s.stack e.dirName (List.replicate nameLongMax 0)
  let nameBuf ←
    (if longValid = 0 then fat32ShortNameParser e.dirName nameBuf else .ok nameBuf :
      Res (List (BitVec 8)))
  let visit := { inum := sectorToFatinum sb sec idx, off := s.off, nameBuf }
  return (nameBuf, { s with stack, visits := s.visits ++ [visit] })

/-- The loop of `fat32_inode_dirlookup` over the entries of sector `sec`; `stop` is the comparison
with the name. -/
def lookupEntries (sb : Superblock) (sec : Nat) (stop : List (BitVec 8) → Res Bool) :
    Nat → List Dirent → Scan → Res Scanned
  | 0, _, _ => .error .loop
  | _ + 1, [], s => .ok (.more s)
  | fuel + 1, e :: es, s =>
    if Name0FreeAll e.name0 then .ok (.free s)
    else do
      let (rest, s) ← pushLong (e :: es) s
      match rest with
      | [] => return .more { s with off := u32 (s.off + 1) }
      | e :: es =>
        if ¬ e.Name0FreeBool then do
          let (nameBuf, s) ← shortVisit sb sec e (fcbPerBlock sb - (es.length + 1)) s
          let hit ← stop nameBuf
          if hit then return .found s
          else lookupEntries sb sec stop fuel es { s with off := u32 (s.off + 1) }
        else lookupEntries sb sec stop fuel es { s with off := u32 (s.off + 1) }

/-- The low byte of `dirty`, which stands behind the data: `bread` and `brelse` leave it 0. -/
def behindData : BitVec 8 := 0

/-- The loop of `fat32_getdents` over the entries of sector `sec`. It does not check `idx` before it
looks at the entry after the long ones. -/
def getdentsEntries (sb : Superblock) (sec : Nat) : Nat → List Dirent → Scan → Res Scanned
  | 0, _, _ => .error .loop
  | _ + 1, [], s => .ok (.more s)
  | fuel + 1, e :: es, s =>
    if Name0FreeAll e.name0 then .ok (.free s)
    else do
      let (rest, s) ← pushLong (e :: es) s
      match rest with
      | [] =>
        if behindData = 0xE5 ∨ behindData = 0 then return .more { s with off := u32 (s.off + 1) }
        else .error .ub
      | e :: es =>
        if ¬ e.Name0FreeBool then do
          let (_, s) ← shortVisit sb sec e (fcbPerBlock sb - (es.length + 1)) s
          getdentsEntries sb sec fuel es { s with off := u32 (s.off + 1) }
        else getdentsEntries sb sec fuel es { s with off := u32 (s.off + 1) }

/-! ## The whole directory -/

/-- The loop over the sectors of a cluster, with the iterations left. -/
def scanSectors (sb : Superblock) (dev : Dev) (entries : Nat → List Dirent → Scan → Res Scanned)
    (first : Nat) : Nat → Nat → Scan → FsProg Scanned
  | 0, _, s => return .more s
  | n + 1, k, s => do
    let sec := u32 (first + k)
    let d ← readSector dev sec
    let r ← Prog.lift (entries sec (sectorEntries sb d) s)
    r.andThen fun s => scanSectors sb dev entries first n (k + 1) s

/-- The loop over the clusters of the directory. -/
def scanClusters (sb : Superblock) (dev : Dev) (entries : Nat → List Dirent → Scan → Res Scanned) :
    Nat → Nat → Scan → FsProg Scanned
  | 0, _, _ => .fail .loop
  | fuel + 1, iter, s =>
    if Iseof iter then return .more s
    else do
      let r ← scanSectors sb dev entries (firstSectorofCluster sb iter) sb.sectorsPerBlock 0 s
      r.andThen fun s => do
        let next ← fat32NextCluster sb iter
        scanClusters sb dev entries fuel next s

/-- The comparison in `fat32_inode_dirlookup`. -/
def nameStop (name : CStr) (nameBuf : List (BitVec 8)) : Res Bool := do
  let cmp ← strncmp name.chars nameBuf pathLongMax
  return cmp = 0

/-- The scan of `fat32_inode_dirlookup`, with a bound on the length of the directory's chain. -/
def dirlookupScan (sb : Superblock) (fuel : Nat) (ip : Inode) (name : CStr) : FsProg Scanned :=
  if DirBool ip.attr then
    scanClusters sb ip.iDev
      (fun sec => lookupEntries sb sec (nameStop name) (fcbPerBlock sb + 1)) fuel ip.clusterStart
      .start
  else panic "dirlookup not DIR"

/-- The scan of `fat32_getdents`, with a bound on the length of the directory's chain. -/
def getdentsScan (sb : Superblock) (fuel : Nat) (dp : Inode) : FsProg Scanned :=
  if DirBool dp.attr then
    scanClusters sb dp.iDev (fun sec => getdentsEntries sb sec (fcbPerBlock sb + 1)) fuel
      dp.clusterStart .start
  else panic "getdents : not DIR"

end Fs
