import OS404.Fs.Dir
import OS404.Fs.Proof.Geometry

/-!
# Inode numbers

The inode number of slot `o` of sector `s` counts the slots of the data region from 1 on, and is
stored in 32 bits.

* `inums_identify_iff`: the numbers identify the slots if and only if the data region has fewer than
  `2 ^ 28` sectors.
* `inum_zero_of_large`: the last slot of a data region of `2 ^ 28` sectors has the root's number.
-/

namespace Fs

/-- Sector `s` is in the data region. -/
def InData (sb : Superblock) (s : Nat) : Prop := firstDataSector sb ≤ s ∧ s < sb.nSectors

instance (sb : Superblock) (s : Nat) : Decidable (InData sb s) := inferInstanceAs (Decidable (_ ∧ _))

/-- No slot of the data region has the number of the root, and the slot can be told from its
number. -/
def InumsIdentify (sb : Superblock) : Prop :=
  ∀ s o, InData sb s → o < 16 →
    sectorToFatinum sb s o ≠ 0 ∧
    fatinumToSector sb (sectorToFatinum sb s o) = s ∧
    fatinumToOffset sb (sectorToFatinum sb s o) = o ∧
    ∀ s' o', InData sb s' → o' < 16 → sectorToFatinum sb s' o' = sectorToFatinum sb s o →
      s' = s ∧ o' = o

section
variable {sb : Superblock} {s o : Nat}

theorem fcbPerBlock_eq (h : sb.sectorSize = 512) : fcbPerBlock sb = 16 := by
  unfold fcbPerBlock
  rw [h]
  rfl

/-- The slot's place in the data region, counted from 1. -/
theorem sectorToFatinum_eq (h : sb.sectorSize = 512) (hn : sb.nSectors < 2 ^ 32) (hs : InData sb s)
    (o : Nat) : sectorToFatinum sb s o = u32 ((s - firstDataSector sb) * 16 + o + 1) := by
  obtain ⟨h1, h2⟩ := hs
  unfold sectorToFatinum
  rw [fcbPerBlock_eq h, subU32_of_le (by omega) h1]
  unfold u32
  omega

/-- Without overflow the number is the place itself. -/
theorem sectorToFatinum_of_lt (h : sb.sectorSize = 512) (hn : sb.nSectors < 2 ^ 32)
    (hs : InData sb s) (ho : o < 16) (hsmall : s < firstDataSector sb + (2 ^ 28 - 1)) :
    sectorToFatinum sb s o = (s - firstDataSector sb) * 16 + o + 1 := by
  rw [sectorToFatinum_eq h hn hs, u32_of_lt (by omega)]

theorem inum_back (h : sb.sectorSize = 512) (hn : sb.nSectors < 2 ^ 32) (hs : InData sb s)
    (ho : o < 16) (hsmall : s < firstDataSector sb + (2 ^ 28 - 1)) :
    fatinumToSector sb (sectorToFatinum sb s o) = s ∧
      fatinumToOffset sb (sectorToFatinum sb s o) = o := by
  rw [sectorToFatinum_of_lt h hn hs ho hsmall]
  obtain ⟨h1, h2⟩ := hs
  unfold fatinumToSector fatinumToOffset inumTransfer
  rw [if_neg (Nat.succ_ne_zero _), Nat.add_sub_cancel, fcbPerBlock_eq h]
  refine ⟨?_, by omega⟩
  rw [u32_of_lt (by omega)]
  omega

/-- Inode numbers identify the slots of the data region if and only if it has fewer than `2 ^ 28`
sectors. -/
theorem inums_identify_iff (h : sb.sectorSize = 512) (hn : sb.nSectors < 2 ^ 32) :
    InumsIdentify sb ↔ sb.nSectors < firstDataSector sb + 2 ^ 28 := by
  constructor
  · intro hid
    by_contra hlarge
    -- the last slot of the sector with number 2 ^ 28 - 1 in the data region
    have hs : InData sb (firstDataSector sb + (2 ^ 28 - 1)) := ⟨by omega, by omega⟩
    refine (hid _ 15 hs (by decide)).1 ?_
    rw [sectorToFatinum_eq h hn hs, Nat.add_sub_cancel_left]
    rfl
  · intro hsmall s o hs ho
    have hs' : s < firstDataSector sb + (2 ^ 28 - 1) := by
      have := hs.2
      omega
    obtain ⟨hsec, hoff⟩ := inum_back h hn hs ho hs'
    refine ⟨?_, hsec, hoff, ?_⟩
    · rw [sectorToFatinum_of_lt h hn hs ho hs']
      exact Nat.succ_ne_zero _
    · intro t p ht hp heq
      have ht' : t < firstDataSector sb + (2 ^ 28 - 1) := by
        have := ht.2
        omega
      obtain ⟨hsec', hoff'⟩ := inum_back h hn ht hp ht'
      rw [heq] at hsec' hoff'
      exact ⟨hsec'.symm.trans hsec, hoff'.symm.trans hoff⟩

end

theorem inums_identify_blank : InumsIdentify blankSb :=
  (inums_identify_iff rfl (by decide)).2 (by decide)

/-- A volume of 128 GiB with clusters of 32 KiB. -/
def largeSb : Superblock :=
  { blankSb with
    sectorsPerBlock := 64, clusterSize := 32768, nSectors := 65570 + 2 ^ 28, fatbase := 32, nFats := 2
    nSectorsFat := 32769 }

/-- On a FAT32 volume with `2 ^ 28` data sectors the last slot has the number of the root. -/
theorem inum_zero_of_large :
    VolumeOk largeSb ∧ InData largeSb (65570 + 2 ^ 28 - 1) ∧
      sectorToFatinum largeSb (65570 + 2 ^ 28 - 1) 15 = 0 := by
  refine ⟨?_, by decide, by decide⟩
  constructor <;> decide

end Fs
