import OS404.Fs.Fcb

/-!
# A mounted volume

The file system's part of a running kernel: the buffer cache with the disk behind it, `fat32_sb` and
the inodes of the files and directories in use. A step is one call of `fat32_inode_write` or
`fat32_fcb_init` that returns; a call that panics is no step.
-/

namespace Fs

open Lib (Prog)
open Driver (Sector BufferCache)
open Str

/-- The volume. -/
structure Volume where
  cache : BufferCache
  sb : Superblock
  files : List Inode

/-- The calls that take clusters. `fat32_fcb_init` gets the contents of its local arrays, and the
inode that `fat32_inode_get` and `fat32_inode_lock` make of the new entries later. -/
inductive Call where
  | write (i : Nat) (src : List (BitVec 8)) (off n : BitVec 32)
  | fcbInit (fuel : Nat) (parent : Inode) (longName : CStr) (attr : Nat)
      (fileName fileExt : List (BitVec 8)) (ip : Inode)

/-- The inode of a new entry: its first cluster is the one in the entry, and it has no other. -/
def newInode (ip : Inode) (e : DirentS) : Inode :=
  { ip with clusterStart := dirFirstClus e.dirFstClusHI e.dirFstClusLO, clusterCnt := 1 }

/-- The directory entry of inode `ino` is in the data region; the root has no entry. -/
def DirentOk (sb : Superblock) (ino : Nat) : Prop :=
  ino ≠ 0 → firstDataSector sb ≤ fatinumToSector sb ino

instance (sb : Superblock) (ino : Nat) : Decidable (DirentOk sb ino) :=
  inferInstanceAs (Decidable (_ → _))

namespace Volume

/-- The contents of the disk. -/
def disk (s : Volume) : Nat → Sector := s.cache.disk

/-- One call. -/
def step (s : Volume) : Call → Option Volume
  | .write i src off n =>
    match s.files[i]? with
    | none => none
    | some ip =>
      match (fat32InodeWrite s.sb ip src off.toNat n.toNat).interp (BufferCache.handler rootDev)
        s.cache with
      | .ok ((_, sb, ip), cache) => some { cache, sb, files := s.files.set i ip }
      | .error _ => none
  | .fcbInit fuel parent longName attr fileName fileExt ip =>
    -- the new entries are put in a sector of the parent
    if DirentOk s.sb ip.iIno then
      match (fat32FcbInit s.sb fuel parent longName attr fileName fileExt).interp
        (BufferCache.handler rootDev) s.cache with
      | .ok ((_, fcb, sb), cache) =>
        -- `.` and `..` name directories that exist
        let files := if isDotName longName.chars = .ok true then s.files
          else s.files ++ [newInode ip fcb.short]
        some { cache, sb, files }
      | .error _ => none
    else none

/-- The volume right after `fat32_fs_mount` of a disk, with some of its files in use. -/
def Mounted (s : Volume) (disk : Nat → Sector) : Prop :=
  ∃ sb₀ dev fuel root, (fat32FsMount sb₀ dev fuel).interp (BufferCache.handler rootDev)
    (BufferCache.zeroed disk) = .ok ((s.sb, root), s.cache)

end Volume

end Fs
