import OS404.Driver.Buffer

/-!
# The FAT32 volume (`fs/fat32_inode.c`, `include/fs/fat32_disk.h`)

The functions here are programs over the sectors of the disk: each block request of the source is
a `bread` and `brelse` around a look at the data (`readSector`), or with a change of the data and a
`bwrite` between them (`updateSector`). `fat32_sb` is passed explicitly; only its `free_count` and
`nxt_free` change after the mount.

Cluster and sector numbers are `uint32_t`; where the source keeps one in an `int`, the conversion
back is the identity. A volume has sectors of 512 bytes and at least one sector per cluster.
-/

namespace Fs

open Lib (Prog loadNat storeNat)
open Driver (Sector)

/-- `ROOTDEV`. -/
def rootDev : Nat := 1

/-- The device of a mounted volume. `fat32_fs_mount` is called with `ROOTDEV`, and every inode gets
its superblock's device or its directory's. -/
abbrev Dev := { d : Nat // d = rootDev }

abbrev FsProg (α : Type) := Prog Fault Sector α

/-- `bread`, a look at the data, `brelse`. -/
def readSector (_dev : Dev) (b : Nat) : FsProg Sector := Prog.get b

/-- `bread`, a change of the data, `bwrite`, `brelse`. -/
def updateSector (_dev : Dev) (b : Nat) (f : Sector → Sector) : FsProg Unit := Prog.alter b f

/-- `panic`. -/
def panic {α : Type} (msg : String) : FsProg α := .fail (.panic msg)

/-! ## Superblock and inode -/

/-- `struct _superblock` with its `fat32_sb_info`. -/
structure Superblock where
  sDev : Dev
  sectorsPerBlock : Nat
  clusterSize : Nat
  nSectors : Nat
  sectorSize : Nat
  fatbase : Nat
  nFats : Nat
  nSectorsFat : Nat
  rootClusterS : Nat
  freeCount : Nat
  nxtFree : Nat
  deriving DecidableEq

/-- The values of `i_type`. -/
inductive IType where
  /-- `T_DIR` -/
  | dir
  /-- `T_FILE` -/
  | file
  /-- `T_DEVICE` -/
  | device
  deriving DecidableEq

/-- `struct inode` with its `fat32_inode_info`; `i_sb` is always `fat32_sb`. -/
structure Inode where
  iDev : Dev
  iIno : Nat
  iMode : Nat
  iSize : Nat
  iType : IType
  attr : Nat
  dirLstAccDate : Nat
  dirWrtTime : Nat
  dirWrtDate : Nat
  clusterStart : Nat
  clusterEnd : Nat
  clusterCnt : Nat

/-! ## Geometry -/

/-- `sizeof(dirent_s_t)`, `sizeof(dirent_l_t)`. -/
def direntSize : Nat := 32

/-- `BUFFER_SIZE`. -/
def bufferSize : Nat := 512

section
variable (sb : Superblock)

/-- `RootDirSectors`, with `__BPB_RootEntCnt` 0. -/
def rootDirSectors : Nat := u32 (0 * 32 + subU32 sb.sectorSize 1) / sb.sectorSize

/-- `FirstDataSector`. -/
def firstDataSector : Nat :=
  u32 (sb.fatbase + u32 (sb.nFats * sb.nSectorsFat) + rootDirSectors sb)

/-- `FirstSectorofCluster(N)`. -/
def firstSectorofCluster (n : Nat) : Nat :=
  u32 (u32 (subU32 n 2 * sb.sectorsPerBlock) + firstDataSector sb)

/-- `DataSec`. -/
def dataSec : Nat := subU32 sb.nSectors (firstDataSector sb)

/-- `CountofClusters`. -/
def countofClusters : Nat := dataSec sb / sb.sectorsPerBlock

/-- `FAT_CLUSTER_MAX`. -/
def fatClusterMax : Nat := u32 (countofClusters sb + 1)

/-- `FCB_PER_BLOCK`. -/
def fcbPerBlock : Nat := sb.sectorSize / direntSize

/-- `FAT_PER_SECTOR`. -/
def fatPerSector : Nat := sb.sectorSize / 4

/-- `ThisFATEntSecNum(N)`. -/
def thisFATEntSecNum (n : Nat) : Nat := u32 (sb.fatbase + u32 (n * 4) / sb.sectorSize)

/-- `ThisFATEntOffset(N)`. -/
def thisFATEntOffset (n : Nat) : Nat := u32 (n * 4) % sb.sectorSize

/-- `LOGISTIC_C_NUM(off)`. -/
def logisticCNum (off : Nat) : Nat := off / u32 (sb.sectorsPerBlock * sb.sectorSize)

/-- `LOGISTIC_C_OFFSET(off)`. -/
def logisticCOffset (off : Nat) : Nat := off % u32 (sb.sectorsPerBlock * sb.sectorSize)

/-- `LOGISTIC_S_NUM(off)`. -/
def logisticSNum (off : Nat) : Nat := logisticCOffset sb off / sb.sectorSize

/-- `LOGISTIC_S_OFFSET(off)`. -/
def logisticSOffset (off : Nat) : Nat := logisticCOffset sb off % sb.sectorSize

/-- `INUM_TRANSFER(ino)`. -/
def inumTransfer (ino : Nat) : Nat := if ino = 0 then 0 else ino - 1

/-- `FATINUM_TO_SECTOR(ino)`. -/
def fatinumToSector (ino : Nat) : Nat :=
  u32 (inumTransfer ino / fcbPerBlock sb + firstDataSector sb)

/-- `FATINUM_TO_OFFSET(ino)`. -/
def fatinumToOffset (ino : Nat) : Nat := inumTransfer ino % fcbPerBlock sb

/-- `DIRLENGTH(ip)`, as stored in `i_size`. -/
def dirlength (ip : Inode) : Nat := u32 (ip.clusterCnt * sb.clusterSize)

end

/-! ## The FAT -/

/-- `ISEOF`. -/
abbrev Iseof (x : Nat) : Prop := 0x0FFFFFF8 ≤ x

/-- `EOC`. -/
def eoc : Nat := 0xFFFFFFFF

/-- `FAT_VALID_MASK`. -/
def fatValidMask : Nat := 0x0FFFFFFF

/-- The `uint32_t` at byte `o` of a sector. -/
def getDword (d : Sector) (o : Nat) : Nat := loadNat d (BitVec.ofNat 9 o) 4

def setDword (d : Sector) (o v : Nat) : Sector := storeNat d (BitVec.ofNat 9 o) 4 v

/-- `FAT32ClusEntryVal(SectorBuf, N)`. -/
def fat32ClusEntryVal (sb : Superblock) (d : Sector) (n : Nat) : Nat :=
  getDword d (thisFATEntOffset sb n) &&& fatValidMask

/-- `SetFAT32ClusEntryVal(SecBuff, N, Val)`. -/
def setFAT32ClusEntryVal (sb : Superblock) (n val : Nat) (d : Sector) : Sector :=
  let o := thisFATEntOffset sb n
  let d := setDword d o (getDword d o &&& 0xF0000000)
  setDword d o (getDword d o ||| (val &&& fatValidMask))

/-- `fat32_next_cluster`. -/
def fat32NextCluster (sb : Superblock) (clusterCur : Nat) : FsProg Nat :=
  if 2 ≤ clusterCur ∧ clusterCur < fatClusterMax sb then do
    let d ← readSector sb.sDev (thisFATEntSecNum sb clusterCur)
    return fat32ClusEntryVal sb d clusterCur
  else panic "assert failed"

/-- The loop of `fat32_fat_travel`: `iter_n`, `cnt` and `prev` after it. -/
def travelLoop (sb : Superblock) (num : Nat) : Nat → Nat → Nat → Nat → FsProg (Nat × Nat × Nat)
  | 0, _, _, _ => .fail .loop
  | fuel + 1, iter, cnt, prev =>
    if Iseof iter then return (iter, cnt, prev)
    -- `++cnt` is in the loop's condition
    else if cnt + 1 < num ∨ num = 0 then do
      let next ← fat32NextCluster sb iter
      travelLoop sb num fuel next (cnt + 1) iter
    else return (iter, cnt + 1, prev)

/-- `fat32_fat_travel`, with a bound on the iterations: the value and the inode. -/
def fat32FatTravel (sb : Superblock) (fuel : Nat) (ip : Inode) (num : Nat) :
    FsProg (Nat × Inode) := do
  let (iter, cnt, prev) ← travelLoop sb num fuel ip.clusterStart 0 0
  if num = 0 then return (cnt, { ip with clusterEnd := prev })
  else if cnt < num then return (prev, ip)
  else return (iter, ip)

/-- `fat32_fat_set`. -/
def fat32FatSet (sb : Superblock) (cluster value : Nat) : FsProg Unit :=
  updateSector sb.sDev (thisFATEntSecNum sb cluster) (setFAT32ClusEntryVal sb cluster value)

/-- How the loop over one sector in `fat32_fat_alloc` ends. -/
inductive FatScan where
  | free (c : Nat)
  | full
  | more (c : Nat)

/-- The loop over one sector in `fat32_fat_alloc`. The count `c` starts at 3 at entry 0. -/
def fatScan (sb : Superblock) (d : Sector) : Nat → Nat → Nat → FatScan
  | 0, _, c => .more c
  | n + 1, s, c =>
    if getDword d (4 * s) = 0 then .free c
    else if fatClusterMax sb < c + 1 then .full
    else fatScan sb d n (s + 1) (c + 1)

/-- The loop of `fat32_fat_alloc` over the sectors of the FAT. -/
def fatAllocLoop (sb : Superblock) : Nat → Nat → Nat → FsProg Nat
  | 0, _, _ => .fail .loop
  | fuel + 1, sec, c =>
    if c < fatClusterMax sb then do
      let d ← readSector sb.sDev sec
      match fatScan sb d (fatPerSector sb) 0 c with
      | .free c => do
        fat32FatSet sb c eoc
        return c
      | .full => return 0
      | .more c => fatAllocLoop sb fuel (u32 (sec + 1)) c
    else return 0

/-- `fat32_fat_alloc`. Every iteration but the last moves `c` up. -/
def fat32FatAlloc (sb : Superblock) : FsProg Nat := fatAllocLoop sb (fatClusterMax sb + 1) sb.fatbase 3

/-! ## Clusters -/

/-- `SECTOR_FSINFO`. -/
def sectorFsinfo : Nat := 1

/-- `SECTOR_FSINFO_BACKUP`. -/
def sectorFsinfoBackup : Nat := 7

/-- `NAME0_FREE_ALL` of a first byte. -/
abbrev Name0FreeAll (x : BitVec 8) : Prop := x = 0

/-- The loop of `fat32_zero_cluster`, with the iterations left. -/
def zeroSectors (sb : Superblock) (first : Nat) : Nat → Nat → FsProg Unit
  | 0, _ => return ()
  | n + 1, s => do
    updateSector sb.sDev (u32 (first + s)) fun _ _ => 0
    zeroSectors sb first n (s + 1)

/-- `fat32_zero_cluster`. -/
def fat32ZeroCluster (sb : Superblock) (cNum : Nat) : FsProg Unit :=
  zeroSectors sb (firstSectorofCluster sb cNum) sb.sectorsPerBlock 0

/-- Storing `Free_Count` and `Nxt_Free` in an `fsinfo_t`. -/
def setFsinfo (sb : Superblock) (d : Sector) : Sector :=
  setDword (setDword d 488 sb.freeCount) 492 sb.nxtFree

/-- The choice in `fat32_cluster_alloc` of the entry to mark, and `nxt_free` after it. -/
def takeCluster (sb : Superblock) (dev : Dev) : FsProg Superblock := do
  let freeNum := sb.nxtFree
  let d ← readSector dev (firstSectorofCluster sb freeNum)
  if Name0FreeAll (d 0) ∧ freeNum < subU32 (fatClusterMax sb) 1 then do
    fat32FatSet sb freeNum eoc
    return { sb with nxtFree := u32 (sb.nxtFree + 1) }
  else do
    let fatNext ← fat32FatAlloc sb
    if fatNext = 0 then panic "no more space"
    else return { sb with nxtFree := u32 (fatNext + 1) }

/-- `fat32_cluster_alloc`: the cluster and the superblock. -/
def fat32ClusterAlloc (sb : Superblock) (dev : Dev) : FsProg (Nat × Superblock) :=
  if sb.freeCount = 0 then panic "no disk space!!!\n"
  else do
    let freeNum := sb.nxtFree
    let sb ← takeCluster { sb with freeCount := sb.freeCount - 1 } dev
    updateSector dev sectorFsinfo (setFsinfo sb)
    updateSector dev sectorFsinfoBackup (setFsinfo sb)
    fat32ZeroCluster sb freeNum
    -- the hint, also when another entry was marked
    return (freeNum, sb)

end Fs
