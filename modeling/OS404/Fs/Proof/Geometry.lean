import OS404.Fs.Inode

/-!
# The regions of a volume

A volume that satisfies `VolumeOk` has its reserved sectors, then the FATs, then the clusters:

* the 32-bit macros compute without overflow (`firstDataSector_eq`, `firstSector_eq`,
  `FatOk.entSec_eq`);
* every data cluster's entry is in a sector of the first FAT, behind the FSInfo sectors and before
  the data (`entSec_lt`, `fsinfo_lt_entSec`);
* the sectors of different clusters are different (`inCluster_unique`) and in the data region.

What a position in a file, an entry or the limit of the data region needs of the geometry is less:
`SectorsOk`, `FatOk`, `RegionsOk`.
-/

namespace Fs

/-- A FAT32 volume with 512-byte sectors: its fields are those of a boot sector, its FAT has an entry
for every cluster, and no cluster number is an end mark. -/
structure VolumeOk (sb : Superblock) : Prop where
  sectorSize : sb.sectorSize = 512
  spc_pos : 0 < sb.sectorsPerBlock
  spc_lt : sb.sectorsPerBlock < 256
  clusterSize : sb.clusterSize = 512 * sb.sectorsPerBlock
  /-- the boot sector, the FSInfo sector and their backups are reserved -/
  fatbase : 8 ≤ sb.fatbase
  nFats : 0 < sb.nFats
  nSectors : sb.nSectors < 2 ^ 32
  data : sb.fatbase + sb.nFats * sb.nSectorsFat ≤ sb.nSectors
  fat : countofClusters sb + 2 ≤ 128 * sb.nSectorsFat
  clusters : countofClusters sb + 1 < 0x0FFFFFF8

/-- Sectors of 512 bytes, and a cluster size that is a 32-bit number. -/
structure SectorsOk (sb : Superblock) : Prop where
  sectorSize : sb.sectorSize = 512
  spc_pos : 0 < sb.sectorsPerBlock
  clusterBytes : 512 * sb.sectorsPerBlock < 2 ^ 32

/-- Sectors of 512 bytes, and FATs that end inside the volume. -/
structure RegionsOk (sb : Superblock) : Prop where
  sectorSize : sb.sectorSize = 512
  nSectors : sb.nSectors < 2 ^ 32
  data : sb.fatbase + sb.nFats * sb.nSectorsFat ≤ sb.nSectors

/-- The first FAT has an entry for every cluster, in sectors with 32-bit numbers and at byte offsets
that are 32-bit numbers. -/
structure FatOk (sb : Superblock) : Prop where
  sectorSize : sb.sectorSize = 512
  fat : countofClusters sb + 2 ≤ 128 * sb.nSectorsFat
  sectors : sb.fatbase + sb.nSectorsFat < 2 ^ 32
  offsets : countofClusters sb + 2 ≤ 2 ^ 30

/-- The clusters of the data region. -/
def DataCluster (sb : Superblock) (c : Nat) : Prop := 2 ≤ c ∧ c ≤ countofClusters sb + 1

/-- Sector `b` is in cluster `c`. -/
def InCluster (sb : Superblock) (c b : Nat) : Prop :=
  firstSectorofCluster sb c ≤ b ∧ b < firstSectorofCluster sb c + sb.sectorsPerBlock

instance (sb : Superblock) (c b : Nat) : Decidable (InCluster sb c b) :=
  inferInstanceAs (Decidable (_ ∧ _))

/-- Bytes per cluster. -/
def bytesPerCluster (sb : Superblock) : Nat := 512 * sb.sectorsPerBlock

variable {sb : Superblock} {c c' b : Nat}

/-! ## Positions in a file -/

namespace SectorsOk

theorem bytesPerCluster_pos (h : SectorsOk sb) : 0 < bytesPerCluster sb := by
  have := h.spc_pos
  unfold bytesPerCluster
  omega

theorem clusterBytes_eq (h : SectorsOk sb) :
    u32 (sb.sectorsPerBlock * sb.sectorSize) = bytesPerCluster sb := by
  have := h.clusterBytes
  unfold bytesPerCluster
  rw [h.sectorSize, u32_of_lt (by omega), Nat.mul_comm]

theorem logisticCNum_eq (h : SectorsOk sb) (off : Nat) :
    logisticCNum sb off = off / bytesPerCluster sb := by
  unfold logisticCNum
  rw [h.clusterBytes_eq]

theorem logisticSNum_eq (h : SectorsOk sb) (off : Nat) :
    logisticSNum sb off = off % bytesPerCluster sb / 512 := by
  unfold logisticSNum logisticCOffset
  rw [h.clusterBytes_eq, h.sectorSize]

theorem logisticSOffset_eq (h : SectorsOk sb) (off : Nat) :
    logisticSOffset sb off = off % bytesPerCluster sb % 512 := by
  unfold logisticSOffset logisticCOffset
  rw [h.clusterBytes_eq, h.sectorSize]

/-- The number that `fat32_inode_write` and `fat32_inode_read` pass to `fat32_fat_travel`. -/
theorem cNumOff_eq (h : SectorsOk sb) {off : Nat} (hoff : off < 2 ^ 32) :
    u32 (logisticCNum sb off + 1) = off / bytesPerCluster sb + 1 := by
  have h1 := h.spc_pos
  have h2 : off / bytesPerCluster sb ≤ off / 2 :=
    Nat.div_le_div_left (by unfold bytesPerCluster; omega) (by decide)
  rw [h.logisticCNum_eq, u32_of_lt (by omega)]

/-- The position after the rest of a cluster. -/
theorem nextCluster_pos (h : SectorsOk sb) (x : Nat) :
    x + (bytesPerCluster sb - x % bytesPerCluster sb) =
      (x / bytesPerCluster sb + 1) * bytesPerCluster sb := by
  have h1 := Nat.div_add_mod' x (bytesPerCluster sb)
  have h2 := Nat.mod_lt x h.bytesPerCluster_pos
  rw [Nat.add_mul, Nat.one_mul]
  omega

/-- A loop over the clusters that has done `tot` bytes from `off` on, and then those to the end of the
cluster, is at the start of the next one. -/
theorem nextCluster_start (h : SectorsOk sb) (off tot : Nat) :
    (off + (tot + (bytesPerCluster sb - (off + tot) % bytesPerCluster sb))) / bytesPerCluster sb =
        (off + tot) / bytesPerCluster sb + 1 ∧
      (off + (tot + (bytesPerCluster sb - (off + tot) % bytesPerCluster sb))) % bytesPerCluster sb =
        0 := by
  rw [← Nat.add_assoc, h.nextCluster_pos]
  exact ⟨Nat.mul_div_cancel _ h.bytesPerCluster_pos, Nat.mul_mod_left ..⟩

/-- The bytes from a position to the end of its cluster, counted in sectors. -/
theorem clusterRest_eq (h : SectorsOk sb) (x : Nat) :
    (sb.sectorsPerBlock - x % bytesPerCluster sb / 512) * 512 - x % bytesPerCluster sb % 512 =
      bytesPerCluster sb - x % bytesPerCluster sb := by
  have h2 := Nat.mod_lt x h.bytesPerCluster_pos
  have h3 : bytesPerCluster sb = 512 * sb.sectorsPerBlock := rfl
  omega

theorem sector_lt (h : SectorsOk sb) (x : Nat) :
    x % bytesPerCluster sb / 512 < sb.sectorsPerBlock := by
  have h2 := Nat.mod_lt x h.bytesPerCluster_pos
  have h3 : bytesPerCluster sb = 512 * sb.sectorsPerBlock := rfl
  omega

/-- Positions up to the next cluster are in the same cluster. -/
theorem div_eq_of_lt_next (h : SectorsOk sb) {x y : Nat} (h1 : x ≤ y)
    (h2 : y < x + (bytesPerCluster sb - x % bytesPerCluster sb)) :
    y / bytesPerCluster sb = x / bytesPerCluster sb := by
  rw [h.nextCluster_pos] at h2
  have h3 : y / bytesPerCluster sb < x / bytesPerCluster sb + 1 :=
    (Nat.div_lt_iff_lt_mul h.bytesPerCluster_pos).2 h2
  have h4 := Nat.div_le_div_right (c := bytesPerCluster sb) h1
  omega

end SectorsOk

/-! ## Sectors of a request -/

theorem min_add_of_le {a b n : Nat} (h : a ≤ n) : min n (a + b) = a + min (n - a) b := by
  rw [← Nat.add_min_add_left, Nat.add_sub_cancel' h]

section
variable {n tot sO k m : Nat}

/-- The bytes of `k + 1` sectors from offset `sO` on are those of the first one, and the others. -/
theorem min_sector (hs : sO < 512) (hm : min (512 - sO) (n - tot) = m) :
    min (n - tot) ((k + 1) * 512 - sO) = m + min (n - (tot + m)) (k * 512) := by
  obtain h | h := Nat.le_total (512 - sO) (n - tot)
  · rw [Nat.min_eq_left h] at hm
    have hcut : (k + 1) * 512 - sO = m + k * 512 := by omega
    rw [hcut, Nat.sub_add_eq, min_add_of_le (hm ▸ h)]
  · rw [Nat.min_eq_right h] at hm
    subst hm
    have hle : n - tot ≤ (k + 1) * 512 - sO := by omega
    rw [Nat.sub_add_eq, Nat.sub_self, Nat.zero_min, Nat.min_eq_left hle, Nat.add_zero]

theorem min_sectors (ht : tot ≤ n) (hs : sO < 512) (hm : min (512 - sO) (n - tot) = m) :
    min n (tot + m + k * 512) = min n (tot + ((k + 1) * 512 - sO)) := by
  have htot : tot + m ≤ n := by
    rw [← hm, Nat.add_comm]
    exact Nat.add_le_of_le_sub ht (Nat.min_le_right ..)
  rw [min_add_of_le htot, min_add_of_le ht, min_sector hs hm, Nat.add_assoc]

end

/-! ## Entries -/

namespace FatOk

theorem fatClusterMax_eq (h : FatOk sb) : fatClusterMax sb = countofClusters sb + 1 := by
  have := h.offsets
  exact u32_of_lt (by omega)

theorem entSec_eq (h : FatOk sb) (hc : c ≤ countofClusters sb + 1) :
    thisFATEntSecNum sb c = sb.fatbase + c / 128 := by
  have h1 := h.offsets
  have h2 := h.sectors
  have h3 := h.fat
  unfold thisFATEntSecNum
  rw [h.sectorSize, u32_of_lt (x := c * 4) (by omega), u32_of_lt (by omega)]
  omega

theorem entOffset_eq (h : FatOk sb) (hc : c ≤ countofClusters sb + 1) :
    thisFATEntOffset sb c = 4 * (c % 128) := by
  have h1 := h.offsets
  unfold thisFATEntOffset
  rw [h.sectorSize, u32_of_lt (x := c * 4) (by omega)]
  omega

end FatOk

/-! ## The regions -/

namespace RegionsOk

theorem firstDataSector_eq (h : RegionsOk sb) :
    firstDataSector sb = sb.fatbase + sb.nFats * sb.nSectorsFat := by
  have h1 := h.data
  have h2 := h.nSectors
  unfold firstDataSector rootDirSectors
  rw [h.sectorSize, u32_of_lt (x := sb.nFats * sb.nSectorsFat) (by omega)]
  rw [show u32 (0 * 32 + subU32 512 1) / 512 = 0 from rfl, Nat.add_zero, u32_of_lt (by omega)]

theorem dataSec_eq (h : RegionsOk sb) : dataSec sb = sb.nSectors - firstDataSector sb := by
  have h1 := h.data
  have h2 := h.nSectors
  unfold dataSec
  rw [subU32_of_le (by omega) (by rw [h.firstDataSector_eq]; omega)]

end RegionsOk

namespace VolumeOk

theorem sectors (h : VolumeOk sb) : SectorsOk sb where
  sectorSize := h.sectorSize
  spc_pos := h.spc_pos
  clusterBytes := by
    have := h.spc_lt
    omega

theorem fatOk (h : VolumeOk sb) : FatOk sb where
  sectorSize := h.sectorSize
  fat := h.fat
  sectors := by
    have h1 := h.data
    have h2 := h.nSectors
    have h3 : sb.nSectorsFat ≤ sb.nFats * sb.nSectorsFat := Nat.le_mul_of_pos_left _ h.nFats
    omega
  offsets := by
    have := h.clusters
    omega

theorem regions (h : VolumeOk sb) : RegionsOk sb where
  sectorSize := h.sectorSize
  nSectors := h.nSectors
  data := h.data

theorem firstDataSector_eq (h : VolumeOk sb) :
    firstDataSector sb = sb.fatbase + sb.nFats * sb.nSectorsFat :=
  h.regions.firstDataSector_eq

theorem dataSec_eq (h : VolumeOk sb) : dataSec sb = sb.nSectors - firstDataSector sb :=
  h.regions.dataSec_eq

theorem firstDataSector_le (h : VolumeOk sb) : firstDataSector sb ≤ sb.nSectors := by
  rw [h.firstDataSector_eq]
  exact h.data

/-- The clusters fill at most the data region. -/
theorem count_mul_le (h : VolumeOk sb) :
    countofClusters sb * sb.sectorsPerBlock ≤ sb.nSectors - firstDataSector sb := by
  rw [← h.dataSec_eq]
  exact Nat.div_mul_le_self ..

theorem cluster_mul_le (h : VolumeOk sb) (hc : DataCluster sb c) :
    (c - 2) * sb.sectorsPerBlock + sb.sectorsPerBlock ≤ sb.nSectors - firstDataSector sb := by
  obtain ⟨h1, h2⟩ := hc
  calc (c - 2) * sb.sectorsPerBlock + sb.sectorsPerBlock
      = (c - 2 + 1) * sb.sectorsPerBlock := by rw [Nat.add_mul, Nat.one_mul]
    _ ≤ countofClusters sb * sb.sectorsPerBlock := Nat.mul_le_mul_right _ (by omega)
    _ ≤ _ := h.count_mul_le

theorem firstSector_eq (h : VolumeOk sb) (hc : DataCluster sb c) :
    firstSectorofCluster sb c = (c - 2) * sb.sectorsPerBlock + firstDataSector sb := by
  have h1 := h.cluster_mul_le hc
  have h2 := h.firstDataSector_le
  have h3 := h.nSectors
  have h4 := h.spc_pos
  have h5 := h.clusters
  obtain ⟨h6, h7⟩ := hc
  unfold firstSectorofCluster
  rw [subU32_of_le (by omega) h6, u32_of_lt (x := (c - 2) * _) (by omega), u32_of_lt (by omega)]

/-- A cluster's sectors are in the data region. -/
theorem inCluster_data (h : VolumeOk sb) (hc : DataCluster sb c) (hb : InCluster sb c b) :
    firstDataSector sb ≤ b ∧ b < sb.nSectors := by
  obtain ⟨h1, h2⟩ := hb
  have h3 := h.cluster_mul_le hc
  have h4 := h.firstDataSector_le
  rw [h.firstSector_eq hc] at h1 h2
  omega

/-- The sectors that a loop over a cluster requests. -/
theorem sector_eq (h : VolumeOk sb) (hc : DataCluster sb c) {s : Nat} (hs : s < sb.sectorsPerBlock) :
    u32 (firstSectorofCluster sb c + s) = firstSectorofCluster sb c + s := by
  have h1 : InCluster sb c (firstSectorofCluster sb c + s) := ⟨by omega, by omega⟩
  have h2 := (h.inCluster_data hc h1).2
  have h3 := h.nSectors
  exact u32_of_lt (by omega)

/-- Different clusters have different sectors. -/
theorem inCluster_unique (h : VolumeOk sb) (hc : DataCluster sb c) (hc' : DataCluster sb c')
    (hb : InCluster sb c b) (hb' : InCluster sb c' b) : c = c' := by
  have key : ∀ {c c' : Nat}, DataCluster sb c → DataCluster sb c' → InCluster sb c b →
      InCluster sb c' b → ¬ c < c' := by
    intro c c' hc hc' hb hb' hlt
    obtain ⟨-, h1⟩ := hb
    obtain ⟨h2, -⟩ := hb'
    rw [h.firstSector_eq hc] at h1
    rw [h.firstSector_eq hc'] at h2
    have h3 : (c - 2 + 1) * sb.sectorsPerBlock ≤ (c' - 2) * sb.sectorsPerBlock :=
      Nat.mul_le_mul_right _ (by have := hc.1; omega)
    rw [Nat.add_mul, Nat.one_mul] at h3
    omega
  have h1 := key hc hc' hb hb'
  have h2 := key hc' hc hb' hb
  omega

/-- The FAT is before the data region. -/
theorem entSec_lt (h : VolumeOk sb) (hc : c ≤ countofClusters sb + 1) :
    thisFATEntSecNum sb c < firstDataSector sb := by
  have h1 := h.fat
  have h2 : sb.nSectorsFat ≤ sb.nFats * sb.nSectorsFat := Nat.le_mul_of_pos_left _ h.nFats
  rw [h.fatOk.entSec_eq hc, h.firstDataSector_eq]
  omega

/-- The FSInfo sectors are before the FAT. -/
theorem fsinfo_lt_entSec (h : VolumeOk sb) (hc : c ≤ countofClusters sb + 1) :
    7 < thisFATEntSecNum sb c := by
  have := h.fatbase
  rw [h.fatOk.entSec_eq hc]
  omega

theorem fsinfo_lt_data (h : VolumeOk sb) : 7 < firstDataSector sb := by
  have := h.fatbase
  rw [h.firstDataSector_eq]
  omega

end VolumeOk

/-- A volume of ten clusters. -/
def blankSb : Superblock :=
  { sDev := ⟨rootDev, rfl⟩, sectorsPerBlock := 1, clusterSize := 512, nSectors := 19, sectorSize := 512
    fatbase := 8, nFats := 1, nSectorsFat := 1, rootClusterS := 2, freeCount := 5, nxtFree := 5 }

/-- An empty file. -/
def emptyFile : Inode :=
  { iDev := ⟨rootDev, rfl⟩, iIno := 1, iMode := 0, iSize := 0, iType := .file, attr := 0x20
    dirLstAccDate := 0, dirWrtTime := 0, dirWrtDate := 0
    clusterStart := 0, clusterEnd := 0, clusterCnt := 0 }

theorem blankSb_volumeOk : VolumeOk blankSb where
  sectorSize := rfl
  spc_pos := by decide
  spc_lt := by decide
  clusterSize := rfl
  fatbase := by decide
  nFats := by decide
  nSectors := by decide
  data := by decide
  fat := by decide
  clusters := by decide

end Fs
