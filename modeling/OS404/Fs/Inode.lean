import OS404.Fs.Fat32

/-!
# Reading and writing an inode (`fs/fat32_inode.c`), and the mount (`fs/fat32_disk.c`)

`fat32_inode_read` returns the number of bytes and the bytes that it copies to `dst`, in order.
`fat32_inode_write` gets its source bytes as a list; the call of `either_copyin` that would copy
them is commented out, so its loop only moves past them.
-/

namespace Fs

open Lib (Prog loadNat storeNat)
open Driver (Sector)

/-- The `uint32_t` value of `-1`. -/
def minusOne : Nat := 0xFFFFFFFF

/-! ## `fat32_inode_update` -/

/-- Storing a field of `n` bytes at byte `o` of the directory entry at `base`. -/
def setField (base o n v : Nat) (d : Sector) : Sector := storeNat d (BitVec.ofNat 9 (base + o)) n v

/-- What `fat32_inode_update` stores in the entry of `ip`. -/
def setDirent (sb : Superblock) (ip : Inode) (d : Sector) : Sector :=
  let base := direntSize * fatinumToOffset sb ip.iIno
  let d := setField base 11 1 ip.attr d                                -- DIR_Attr
  let d := setField base 18 2 ip.dirLstAccDate d                       -- DIR_LstAccDate
  let d := setField base 24 2 ip.dirWrtDate d                          -- DIR_WrtDate
  let d := setField base 22 2 ip.dirWrtTime d                          -- DIR_WrtTime
  let d := setField base 20 2 (ip.clusterStart >>> 16) d               -- DIR_FstClusHI
  let d := setField base 26 2 (ip.clusterStart &&& 0xFFFF) d           -- DIR_FstClusLO
  let d := setField base 28 4 (if ip.iType = .file then ip.iSize else 0) d   -- DIR_FileSize
  let d := setField base 11 1 (ip.attr ||| ip.iMode) d                 -- DIR_Attr
  setField base 12 1 (if ip.iType = .device then ip.iDev.val else 0) d -- DIR_Dev

/-- `fat32_inode_update`. -/
def fat32InodeUpdate (sb : Superblock) (ip : Inode) : FsProg Unit :=
  if ip.iIno = 0 then do
    -- the root has no entry
    let _ ← readSector ip.iDev (fatinumToSector sb ip.iIno)
    return ()
  else updateSector ip.iDev (fatinumToSector sb ip.iIno) (setDirent sb ip)

/-! ## `fat32_inode_read` -/

/-- The loop of `fat32_inode_read` over the sectors of a cluster, with the iterations left: the
offset in the sector, the count and the bytes after it. -/
def readSectors (ip : Inode) (first n : Nat) :
    Nat → Nat → Nat → Nat → List (BitVec 8) → FsProg (Nat × Nat × List (BitVec 8))
  | 0, _, sOffset, tot, dst => return (sOffset, tot, dst)
  | k + 1, s, sOffset, tot, dst =>
    if tot < n then do
      let d ← readSector ip.iDev (u32 (first + s))
      let m := min (bufferSize - sOffset) (n - tot)
      let bytes := (List.range m).map fun i => d (BitVec.ofNat 9 (sOffset + i))
      readSectors ip first n k (s + 1) 0 (tot + m) (dst ++ bytes)
    else return (sOffset, tot, dst)

/-- The loop of `fat32_inode_read` over the clusters. -/
def readClusters (sb : Superblock) (ip : Inode) (n : Nat) :
    Nat → Nat → Nat → Nat → Nat → List (BitVec 8) → FsProg (Nat × List (BitVec 8))
  | 0, _, _, _, _, _ => .fail .loop
  | fuel + 1, iter, sN, sOffset, tot, dst =>
    if ¬ Iseof iter ∧ tot < n then do
      let (sOffset, tot, dst) ←
        readSectors ip (firstSectorofCluster sb iter) n (sb.sectorsPerBlock - sN) sN sOffset tot dst
      if tot = n then return (tot, dst)
      else do
        let next ← fat32NextCluster sb iter
        readClusters sb ip n fuel next 0 sOffset tot dst
    else return (tot, dst)

/-- `fat32_inode_read`: the returned count and the bytes copied to `dst`. Every iteration over the
clusters but the last copies a byte. -/
def fat32InodeRead (sb : Superblock) (ip : Inode) (off n : Nat) :
    FsProg (Nat × List (BitVec 8)) :=
  if ip.iSize < off ∨ u32 (off + n) < off then return (0, [])
  else do
    let n := if ip.iSize < u32 (off + n) then ip.iSize - off else n
    let cNumOff := u32 (logisticCNum sb off + 1)
    let (iter, _) ← fat32FatTravel sb cNumOff ip cNumOff
    readClusters sb ip n (n + 1) iter (logisticSNum sb off) (logisticSOffset sb off) 0 []

/-! ## `fat32_inode_write` -/

/-- A new cluster behind `iter` (twice in `fat32_inode_write`): the cluster, the superblock and the
inode. -/
def appendCluster (sb : Superblock) (ip : Inode) (iter : Nat) :
    FsProg (Nat × Superblock × Inode) := do
  let (fatNew, sb) ← fat32ClusterAlloc sb ⟨rootDev, rfl⟩
  fat32FatSet sb iter fatNew
  return (fatNew, sb, { ip with clusterCnt := ip.clusterCnt + 1, clusterEnd := fatNew })

/-- The loop of `fat32_inode_write` over the sectors of a cluster, with the iterations left. -/
def writeSectors (ip : Inode) (first n : Nat) :
    Nat → Nat → Nat → Nat → List (BitVec 8) → FsProg (Nat × Nat × List (BitVec 8))
  | 0, _, sOffset, tot, src => return (sOffset, tot, src)
  | k + 1, s, sOffset, tot, src =>
    if tot < n then do
      let m := min (bufferSize - sOffset) (n - tot)
      -- `either_copyin(bp->data + init_s_offset, user_src, src, m)` is commented out
      updateSector ip.iDev (u32 (first + s)) fun d => d
      writeSectors ip first n k (s + 1) 0 (tot + m) (src.drop m)
    else return (sOffset, tot, src)

/-- The loop of `fat32_inode_write` over the clusters. -/
def writeClusters (n : Nat) : Nat → Nat → Nat → Nat → Nat → List (BitVec 8) → Superblock → Inode →
    FsProg (Nat × Superblock × Inode)
  | 0, _, _, _, _, _, _, _ => .fail .loop
  | fuel + 1, iter, sN, sOffset, tot, src, sb, ip =>
    if ¬ Iseof iter ∧ tot < n then do
      let (sOffset, tot, src) ←
        writeSectors ip (firstSectorofCluster sb iter) n (sb.sectorsPerBlock - sN) sN sOffset tot src
      if tot = n then return (tot, sb, ip)
      else do
        let next ← fat32NextCluster sb iter
        if Iseof next then do
          let (fatNew, sb, ip) ← appendCluster sb ip iter
          writeClusters n fuel fatNew 0 sOffset tot src sb ip
        else writeClusters n fuel next 0 sOffset tot src sb ip
    else return (tot, sb, ip)

/-- The two checks at the start of `fat32_inode_write`. -/
def writeAccepts (sb : Superblock) (ip : Inode) (off n : Nat) : Bool :=
  !(decide (ip.iSize < off ∨ u32 (off + n) < off) ||
    decide (u32 (dataSec sb * sb.sectorSize) < u32 (off + n)))

/-- `i_size` after `tot` bytes were written at `off`. -/
def sizeAfter (sb : Superblock) (ip : Inode) (off n tot : Nat) : Nat :=
  if ip.iSize < u32 (off + n) then
    if ip.iType = .file then u32 (off + tot)
    else u32 (subU32 (u32 (u32 (off + tot) + sb.clusterSize)) 1 / sb.clusterSize * sb.clusterSize)
  else ip.iSize

/-- `fat32_inode_write`: the returned count, the superblock and the inode. -/
def fat32InodeWrite (sb : Superblock) (ip : Inode) (src : List (BitVec 8)) (off n : Nat) :
    FsProg (Nat × Superblock × Inode) :=
  if writeAccepts sb ip off n then do
    let cNumOff := u32 (logisticCNum sb off + 1)
    let (iter, ip) ← fat32FatTravel sb cNumOff ip cNumOff
    let (iter, sb, ip) ←
      (if ip.clusterCnt < cNumOff then appendCluster sb ip iter else return (iter, sb, ip) :
        FsProg (Nat × Superblock × Inode))
    let (tot, sb, ip) ←
      writeClusters n (n + 1) iter (logisticSNum sb off) (logisticSOffset sb off) 0 src sb ip
    let ip := { ip with iSize := sizeAfter sb ip off n tot }
    fat32InodeUpdate sb ip
    return (tot, sb, ip)
  else return (minusOne, sb, ip)

/-! ## The mount -/

/-- `fat32_boot_sector_parser`. -/
def fat32BootSectorParser (sb : Superblock) (bpb : Sector) : Superblock :=
  let sectorSize := loadNat bpb 11 2
  let sectorsPerBlock := loadNat bpb 13 1
  { sb with
    sectorSize
    nSectors := getDword bpb 32
    sectorsPerBlock
    fatbase := loadNat bpb 14 2
    nFats := loadNat bpb 16 1
    nSectorsFat := getDword bpb 36
    rootClusterS := getDword bpb 44
    clusterSize := u32 (sectorSize * sectorsPerBlock) }

/-- `fat32_fsinfo_parser`. -/
def fat32FsinfoParser (sb : Superblock) (fsinfo : Sector) : Superblock :=
  { sb with freeCount := getDword fsinfo 488, nxtFree := getDword fsinfo 492 }

/-- `fat32_root_inode_init`, with a bound on the length of the root's chain. -/
def fat32RootInodeInit (sb : Superblock) (fuel : Nat) : FsProg Inode := do
  let ip : Inode :=
    { iDev := sb.sDev, iIno := 0, iMode := 0, iSize := 0, iType := .dir, attr := 0x10
      dirLstAccDate := 0, dirWrtTime := 0, dirWrtDate := 0
      clusterStart := 2, clusterEnd := 0, clusterCnt := 0 }
  let (cnt, ip) ← fat32FatTravel sb fuel ip 0
  let ip := { ip with clusterCnt := cnt }
  return { ip with iSize := dirlength sb ip }

/-- `fat32_fs_mount`: the superblock and the root. -/
def fat32FsMount (sb : Superblock) (dev : Dev) (fuel : Nat) : FsProg (Superblock × Inode) := do
  let bpb ← readSector dev 0
  let sb := fat32BootSectorParser { sb with sDev := dev } bpb
  let fsinfo ← readSector dev sectorFsinfo
  let sb := fat32FsinfoParser sb fsinfo
  let root ← fat32RootInodeInit sb fuel
  return (sb, root)

end Fs
