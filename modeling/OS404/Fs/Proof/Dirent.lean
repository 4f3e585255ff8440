import OS404.Fs.Proof.Slots
import OS404.Fs.Proof.Walk

/-!
# Loading and storing a directory entry

`fat32_inode_lock` copies the fields of the directory entry into the inode (`load_ok`), and
`fat32_inode_update` copies fields back (`direntAt_setDirent`). `DIR_WrtDate` is copied back only, so
what is stored there is from the file that had the inode before. `DIR_FileSize` of a directory or a
device becomes 0, and `DIR_Dev` of a device becomes the number of the disk.

* `lock_update_iff`: what a lock followed by an update leaves of the entry.
* `lock_update_stale`: the date of another file is stored.
-/

namespace Fs

open Lib (Prog Linked loadNat storeNat)
open Driver (Sector)
open Str

/-! ## The fields of an entry -/

/-- The directory entry with inode number `ino`. -/
def entryOn (sb : Superblock) (d : Nat → Sector) (ino : Nat) : Dirent :=
  direntAt (d (fatinumToSector sb ino)) (fatinumToOffset sb ino)

/-- What `fat32_inode_update` makes of the entry. -/
def Dirent.stored (ip : Inode) (e : Dirent) : Dirent :=
  let e := storeNat e 11 1 ip.attr
  let e := storeNat e 18 2 ip.dirLstAccDate
  let e := storeNat e 24 2 ip.dirWrtDate
  let e := storeNat e 22 2 ip.dirWrtTime
  let e := storeNat e 20 2 (ip.clusterStart >>> 16)
  let e := storeNat e 26 2 (ip.clusterStart &&& 0xFFFF)
  let e := storeNat e 28 4 (if ip.iType = .file then ip.iSize else 0)
  let e := storeNat e 11 1 (ip.attr ||| ip.iMode)
  storeNat e 12 1 (if ip.iType = .device then ip.iDev.val else 0)

/-- A field of an entry in its sector. -/
theorem direntAt_setField {off o n v : Nat} (ho : o + n ≤ 32) (hn : 0 < n) (s : Sector) :
    direntAt (setField (direntSize * off) o n v s) off =
      storeNat (direntAt s off) (BitVec.ofNat 5 o) n v := by
  funext i
  have hi := i.isLt
  have hsec : (BitVec.ofNat 9 (direntSize * off + i.toNat) -
      BitVec.ofNat 9 (direntSize * off + o)).toNat = (512 + i.toNat - o) % 512 := by
    rw [BitVec.toNat_sub, BitVec.toNat_ofNat, BitVec.toNat_ofNat, direntSize]
    omega
  have hent : (i - BitVec.ofNat 5 o).toNat = (32 + i.toNat - o) % 32 := by
    rw [BitVec.toNat_sub, BitVec.toNat_ofNat]
    omega
  show storeNat s _ n v (BitVec.ofNat 9 (direntSize * off + i.toNat)) = _
  unfold storeNat
  rw [hsec, hent]
  by_cases hio : i.toNat < o
  · rw [if_neg (by omega), if_neg (by omega)]
    rfl
  · rw [show (512 + i.toNat - o) % 512 = (32 + i.toNat - o) % 32 by omega]
    rfl

theorem direntAt_setDirent (sb : Superblock) (ip : Inode) (s : Sector) :
    direntAt (setDirent sb ip s) (fatinumToOffset sb ip.iIno) =
      (direntAt s (fatinumToOffset sb ip.iIno)).stored ip := by
  unfold setDirent Dirent.stored
  dsimp only
  rw [direntAt_setField (by decide) (by decide), direntAt_setField (by decide) (by decide),
    direntAt_setField (by decide) (by decide), direntAt_setField (by decide) (by decide),
    direntAt_setField (by decide) (by decide), direntAt_setField (by decide) (by decide),
    direntAt_setField (by decide) (by decide), direntAt_setField (by decide) (by decide),
    direntAt_setField (by decide) (by decide)]
  rfl

theorem byte_eq_loadNat (e : Dirent) (a : BitVec 5) : (e a).toNat = loadNat e a 1 := by
  unfold loadNat loadNat
  omega

theorem getWord_eq_loadNat (e : Dirent) (o : Nat) :
    e.getWord o = loadNat e (BitVec.ofNat 5 o) 2 := by
  unfold Dirent.getWord
  rw [BitVec.ofNat_add, loadNat, loadNat, loadNat]
  rfl

/-- `DIR_FileSize`. -/
theorem fileSize_eq_loadNat (e : Dirent) : e.getWord 28 + 2 ^ 16 * e.getWord 30 = loadNat e 28 4 := by
  rw [getWord_eq_loadNat, getWord_eq_loadNat]
  have h30 : loadNat e 28 4 = loadNat e 28 2 + 2 ^ 16 * loadNat e 30 2 := by
    simp only [loadNat]
    rw [show (28 : BitVec 5) + 1 + 1 = 30 from rfl]
    omega
  exact h30.symm

/-! ## Storing the fields -/

theorem dirFirstClus_halves {high low : Nat} (hh : high < 2 ^ 16) (hl : low < 2 ^ 16) :
    dirFirstClus high low >>> 16 = high ∧ dirFirstClus high low &&& 0xFFFF = low := by
  have hor : dirFirstClus high low = high * 2 ^ 16 + low := by
    unfold dirFirstClus
    rw [Nat.shiftLeft_eq, u32_of_lt (by omega), Nat.mul_comm, Nat.two_pow_add_eq_or_of_lt hl]
  rw [hor]
  constructor
  · rw [Nat.shiftRight_eq_div_pow]
    omega
  · rw [show 0xFFFF = 2 ^ 16 - 1 from rfl, Nat.and_two_pow_sub_one_eq_mod]
    omega

/-- The inode has the fields of `e` that `fat32_inode_lock` loads. -/
structure Loaded (e : Dirent) (ip : Inode) : Prop where
  attr : ip.attr = (e 11).toNat
  clusterStart : ip.clusterStart = dirFirstClus (e.getWord 20) (e.getWord 26)
  lstAccDate : ip.dirLstAccDate = e.getWord 18
  wrtTime : ip.dirWrtTime = e.getWord 22
  iType : ip.iType =
    if e 12 ≠ 0 then .device else if DirBool (e 11).toNat then .dir else .file
  iSize : ip.iType = .file → ip.iSize = e.getWord 28 + 2 ^ 16 * e.getWord 30
  iMode : ip.iMode = ip.attr &&& 1

/-- The fields of `e` that `fat32_inode_update` does not take from it are what it stores there, when
the inode has `date` as its `DIR_WrtDate`. -/
structure RoundTrips (e : Dirent) (date : Nat) : Prop where
  wrtDate : date % 2 ^ 16 = e.getWord 24
  dev : e 12 = 0 ∨ e 12 = BitVec.ofNat 8 rootDev
  fileSize : e 12 ≠ 0 ∨ DirBool (e 11).toNat → e.getWord 28 + 2 ^ 16 * e.getWord 30 = 0

section
variable {e : Dirent} {ip : Inode}

theorem getWord_lt (e : Dirent) (o : Nat) : e.getWord o < 2 ^ 16 := by
  rw [getWord_eq_loadNat]
  exact Lib.loadNat_lt e 2 _

theorem Loaded.device_iff (h : Loaded e ip) : ip.iType = .device ↔ e 12 ≠ 0 := by
  rw [h.iType]
  by_cases h0 : e 12 ≠ 0
  · rw [if_pos h0]
    exact ⟨fun _ => h0, fun _ => rfl⟩
  · rw [if_neg h0]
    refine ⟨fun hd => ?_, fun hd => absurd hd h0⟩
    split at hd <;> cases hd

theorem Loaded.not_file_iff (h : Loaded e ip) :
    ip.iType ≠ .file ↔ e 12 ≠ 0 ∨ DirBool (e 11).toNat := by
  rw [h.iType]
  by_cases h0 : e 12 ≠ 0
  · rw [if_pos h0]
    exact ⟨fun _ => .inl h0, fun _ => nofun⟩
  · rw [if_neg h0]
    by_cases hd : DirBool (e 11).toNat
    · rw [if_pos hd]
      exact ⟨fun _ => .inr hd, fun _ => nofun⟩
    · rw [if_neg hd]
      exact ⟨fun hf => absurd rfl hf, fun hor => absurd hor (not_or.2 ⟨h0, hd⟩)⟩

/-- The value that is stored in `DIR_Dev`. -/
theorem Loaded.dev_iff (h : Loaded e ip) :
    (if ip.iType = .device then ip.iDev.val else 0) % 256 ^ 1 = loadNat e 12 1 ↔
      e 12 = 0 ∨ e 12 = BitVec.ofNat 8 rootDev := by
  rw [← byte_eq_loadNat, Nat.pow_one, ip.iDev.property]
  by_cases h0 : e 12 = 0
  · rw [if_neg fun hd => h.device_iff.1 hd h0, h0]
    exact ⟨fun _ => .inl rfl, fun _ => rfl⟩
  · rw [if_pos (h.device_iff.2 h0)]
    constructor
    · intro hv
      exact .inr (BitVec.eq_of_toNat_eq (by rw [BitVec.toNat_ofNat, ← hv]))
    · intro hv
      rw [hv.resolve_left h0, BitVec.toNat_ofNat]

/-- The value that is stored in `DIR_FileSize`. -/
theorem Loaded.fileSize_iff (h : Loaded e ip) :
    (if ip.iType = .file then ip.iSize else 0) % 256 ^ 4 = loadNat e 28 4 ↔
      (e 12 ≠ 0 ∨ DirBool (e 11).toNat → e.getWord 28 + 2 ^ 16 * e.getWord 30 = 0) := by
  have hlt := Lib.loadNat_lt e 4 28
  rw [← h.not_file_iff]
  by_cases hf : ip.iType = .file
  · rw [if_pos hf, h.iSize hf, fileSize_eq_loadNat, Nat.mod_eq_of_lt hlt]
    exact ⟨fun _ hn => absurd hf hn, fun _ => rfl⟩
  · rw [if_neg hf, ← fileSize_eq_loadNat, Nat.zero_mod]
    exact ⟨fun h0 _ => h0.symm, fun h0 => (h0 hf).symm⟩

/-- An update after a load keeps the entry if and only if the fields that it does not take from the
entry are the entry's own. -/
theorem stored_eq_iff (h : Loaded e ip) : e.stored ip = e ↔ RoundTrips e ip.dirWrtDate := by
  constructor
  · intro heq
    have hdate : loadNat (e.stored ip) 24 2 = ip.dirWrtDate % 256 ^ 2 := by
      unfold Dirent.stored
      dsimp only
      rw [Lib.loadNat_storeNat_ne (by decide), Lib.loadNat_storeNat_ne (by decide),
        Lib.loadNat_storeNat_ne (by decide), Lib.loadNat_storeNat_ne (by decide),
        Lib.loadNat_storeNat_ne (by decide), Lib.loadNat_storeNat_ne (by decide),
        Lib.loadNat_storeNat_mod (by decide)]
    have hsize : loadNat (e.stored ip) 28 4 =
        (if ip.iType = .file then ip.iSize else 0) % 256 ^ 4 := by
      unfold Dirent.stored
      dsimp only
      rw [Lib.loadNat_storeNat_ne (by decide), Lib.loadNat_storeNat_ne (by decide),
        Lib.loadNat_storeNat_mod (by decide)]
    have hdev : loadNat (e.stored ip) 12 1 =
        (if ip.iType = .device then ip.iDev.val else 0) % 256 ^ 1 :=
      Lib.loadNat_storeNat_mod (by decide)
    rw [heq] at hdate hsize hdev
    refine ⟨?_, h.dev_iff.1 hdev.symm, h.fileSize_iff.1 hsize.symm⟩
    rw [getWord_eq_loadNat]
    exact hdate.symm
  · rintro ⟨hdate, hdev, hsize⟩
    obtain ⟨hhi, hlo⟩ := dirFirstClus_halves (getWord_lt e 20) (getWord_lt e 26)
    -- every store puts back what is there
    have word : ∀ (o v : Nat), v % 2 ^ 16 = e.getWord o →
        storeNat e (BitVec.ofNat 5 o) 2 v = e := by
      intro o v hv
      refine Lib.storeNat_self (by decide) ?_
      rw [← getWord_eq_loadNat]
      exact hv
    have hor : ip.attr ||| ip.iMode = ip.attr := by
      refine Nat.eq_of_testBit_eq fun i => ?_
      rw [h.iMode, Nat.testBit_or, Nat.testBit_and]
      cases ip.attr.testBit i <;> rfl
    have hattr : storeNat e 11 1 ip.attr = e := by
      refine Lib.storeNat_self (by decide) ?_
      rw [h.attr, ← byte_eq_loadNat, Nat.pow_one, Nat.mod_eq_of_lt (e 11).isLt]
    have hacc : storeNat e 18 2 ip.dirLstAccDate = e := word 18 _
      (by rw [h.lstAccDate, Nat.mod_eq_of_lt (getWord_lt e 18)])
    have hwrt : storeNat e 24 2 ip.dirWrtDate = e := word 24 _ hdate
    have htime : storeNat e 22 2 ip.dirWrtTime = e := word 22 _
      (by rw [h.wrtTime, Nat.mod_eq_of_lt (getWord_lt e 22)])
    have hhigh : storeNat e 20 2 (ip.clusterStart >>> 16) = e := word 20 _
      (by rw [h.clusterStart, hhi, Nat.mod_eq_of_lt (getWord_lt e 20)])
    have hlow : storeNat e 26 2 (ip.clusterStart &&& 0xFFFF) = e := word 26 _
      (by rw [h.clusterStart, hlo, Nat.mod_eq_of_lt (getWord_lt e 26)])
    unfold Dirent.stored
    dsimp only
    rw [hor, hattr, hacc, hwrt, htime, hhigh, hlow,
      Lib.storeNat_self (by decide) (h.fileSize_iff.2 hsize), hattr,
      Lib.storeNat_self (by decide) (h.dev_iff.2 hdev)]

end

/-! ## Loading the fields -/

section
variable {sb : Superblock} {d d' : Nat → Sector} {fuel : Nat}

theorem loadRest_loaded (e : Entry) (fcb : Dirent) (cnt last : Nat) :
    Loaded fcb (Entry.loadRest sb
      { e.loadStart fcb with clusterCnt := cnt, clusterEnd := last } fcb).toInode where
  attr := rfl
  clusterStart := rfl
  lstAccDate := rfl
  wrtTime := rfl
  iType := rfl
  iSize := by
    intro h
    unfold Entry.loadRest at h ⊢
    dsimp only at h ⊢
    rw [h]
  iMode := rfl

/-- An inode that is loaded has the fields of its entry; the date is the one it had. -/
theorem load_ok {e e' : Entry} (h : (e.load sb fuel).run d = .ok (e', d')) :
    d' = d ∧ e'.iIno = e.iIno ∧ e'.dirWrtDate = e.dirWrtDate ∧
      Loaded (entryOn sb d e.iIno) e'.toInode := by
  obtain ⟨rfl, cnt, last, rfl⟩ := load_eq h
  exact ⟨rfl, rfl, rfl, loadRest_loaded e _ cnt last⟩

/-- The chain of a file can be walked. -/
def ChainOk (sb : Superblock) (d : Nat → Sector) (fuel first : Nat) : Prop :=
  first = 0 ∨ ∃ L, Linked Iseof (fatNext sb d) first L ∧ AllAccepted sb L ∧ L.length < fuel

/-- The first cluster of the file with a directory entry. -/
def Dirent.firstClus (e : Dirent) : Nat := dirFirstClus (e.getWord 20) (e.getWord 26)

/-- An entry with an attribute whose first cluster is not the root's is loaded. -/
theorem load_returns {e : Entry} (hattr : entryOn sb d e.iIno 11 ≠ 0)
    (hroot : (entryOn sb d e.iIno).firstClus ≠ sb.rootClusterS)
    (hch : ChainOk sb d fuel (entryOn sb d e.iIno).firstClus) :
    ∃ e', (e.load sb fuel).run d = .ok (e', d) := by
  unfold Entry.load
  rw [Prog.run_bind, readSector, Prog.run_get, Res.ok_bind]
  dsimp only
  rw [show direntAt (d (fatinumToSector sb e.iIno)) (fatinumToOffset sb e.iIno) =
    entryOn sb d e.iIno from rfl]
  have hroot' : (e.loadStart (entryOn sb d e.iIno)).clusterStart ≠ sb.rootClusterS := hroot
  have hattr' : ∀ ip : Inode, ip.attr = (entryOn sb d e.iIno 11).toNat → ip.attr ≠ 0 :=
    fun ip h h0 => hattr (BitVec.eq_of_toNat_eq (h.symm.trans h0))
  rw [Prog.run_bind, if_neg hroot', Prog.run_pure, Res.ok_bind]
  dsimp only
  rw [if_neg (by decide), Prog.run_bind]
  by_cases h0 : (e.loadStart (entryOn sb d e.iIno)).clusterStart = 0
  · rw [if_neg (not_not.2 h0), Prog.run_pure, Res.ok_bind]
    dsimp only
    rw [if_neg (hattr' _ rfl)]
    exact ⟨_, rfl⟩
  · obtain h0' | ⟨L, hlink, hacc, hlen⟩ := hch
    · exact absurd h0' h0
    · have htravel := @travel_zero_run sb d L (e.loadStart (entryOn sb d e.iIno)).toInode fuel hlink hlen
      rw [if_pos hacc] at htravel
      rw [if_pos h0, Prog.run_bind, htravel, Res.ok_bind, Prog.run_pure, Res.ok_bind]
      dsimp only
      rw [if_neg (hattr' _ rfl)]
      exact ⟨_, rfl⟩

variable {t : Inodes} {p : Ptr}

theorem lock_run (href : 0 < (t.deref p).ref) (hvalid : (t.deref p).valid = false) :
    (fat32InodeLock sb fuel t p).run d =
      ((t.deref p).load sb fuel >>= fun e => pure (t.store p e)).run d := by
  unfold fat32InodeLock
  rw [if_neg (by omega), if_neg (by rw [hvalid]; decide)]

theorem lock_ok {t' : Inodes} (href : 0 < (t.deref p).ref) (hvalid : (t.deref p).valid = false)
    (h : (fat32InodeLock sb fuel t p).run d = .ok (t', d')) :
    d' = d ∧ ∃ e, t' = t.store p e ∧ e.iIno = (t.deref p).iIno ∧
      e.dirWrtDate = (t.deref p).dirWrtDate ∧ Loaded (entryOn sb d (t.deref p).iIno) e.toInode := by
  rw [lock_run href hvalid] at h
  obtain ⟨e, d₁, hload, hlast⟩ := Prog.run_bind_eq_ok.1 h
  cases hlast
  obtain ⟨hd, hino, hdate, hloaded⟩ := load_ok hload
  exact ⟨hd, e, rfl, hino, hdate, hloaded⟩

theorem lock_valid (href : 0 < (t.deref p).ref) (hvalid : (t.deref p).valid = true) :
    (fat32InodeLock sb fuel t p).run d = .ok (t, d) := by
  unfold fat32InodeLock
  rw [if_neg (by omega), if_pos hvalid]
  rfl

/-- A lock of an inode that is not in memory returns with the fields of its directory entry. -/
theorem lock_returns (href : 0 < (t.deref p).ref) (hvalid : (t.deref p).valid = false)
    (hattr : entryOn sb d (t.deref p).iIno 11 ≠ 0)
    (hroot : (entryOn sb d (t.deref p).iIno).firstClus ≠ sb.rootClusterS)
    (hch : ChainOk sb d fuel (entryOn sb d (t.deref p).iIno).firstClus) :
    ∃ e, (fat32InodeLock sb fuel t p).run d = .ok (t.store p e, d) ∧ (t.deref p).Alike e ∧
      e.valid = true ∧ e.fname = (t.deref p).fname ∧
      Loaded (entryOn sb d (t.deref p).iIno) e.toInode := by
  obtain ⟨e, hload⟩ := load_returns hattr hroot hch
  refine ⟨e, ?_, load_alike hload, ?_, ?_, (load_ok hload).2.2.2⟩
  · rw [lock_run href hvalid, Prog.run_bind, hload]
    rfl
  · obtain ⟨-, cnt, last, rfl⟩ := load_eq hload
    rfl
  · obtain ⟨-, cnt, last, rfl⟩ := load_eq hload
    rfl

/-- `fat32_inode_lock` of an inode that is not in memory, followed by `fat32_inode_update`. The lock
returns for an entry with an attribute whose chain can be walked and does not start in the root's
cluster. The 32 bytes of the entry are then as before if and only if the inode had the entry's
`DIR_WrtDate` already, `DIR_Dev` is 0 or the number of the disk, and `DIR_FileSize` is 0 unless the
entry is that of a file; the root's number, 0, is not updated. -/
theorem lock_update_iff (href : 0 < (t.deref p).ref) (hvalid : (t.deref p).valid = false) :
    (entryOn sb d (t.deref p).iIno 11 ≠ 0 →
      (entryOn sb d (t.deref p).iIno).firstClus ≠ sb.rootClusterS →
      ChainOk sb d fuel (entryOn sb d (t.deref p).iIno).firstClus →
      ∃ t', (fat32InodeLock sb fuel t p).run d = .ok (t', d)) ∧
    ∀ t' d₁, (fat32InodeLock sb fuel t p).run d = .ok (t', d₁) → d₁ = d ∧
      ∃ d₂, (fat32InodeUpdate sb (t'.deref p).toInode).run d = .ok ((), d₂) ∧
        (entryOn sb d₂ (t.deref p).iIno = entryOn sb d (t.deref p).iIno ↔
          (t.deref p).iIno = 0 ∨
            RoundTrips (entryOn sb d (t.deref p).iIno) (t.deref p).dirWrtDate) := by
  constructor
  · intro hattr hroot hch
    obtain ⟨e, hlock, -⟩ := lock_returns href hvalid hattr hroot hch
    exact ⟨t.store p e, hlock⟩
  · intro t' d₁ hlock
    obtain ⟨hd, e, rfl, hino, hdate, hloaded⟩ := lock_ok href hvalid hlock
    refine ⟨hd, ?_⟩
    rw [Inodes.deref_store_self, ← hino, ← hdate]
    rw [← hino] at hloaded
    unfold fat32InodeUpdate
    by_cases h0 : e.iIno = 0
    · rw [if_pos h0]
      exact ⟨d, rfl, fun _ => .inl h0, fun _ => rfl⟩
    · rw [if_neg h0]
      refine ⟨_, rfl, ?_⟩
      rw [or_iff_right h0, ← stored_eq_iff hloaded]
      unfold entryOn
      rw [Function.update_self, direntAt_setDirent]

end

/-! ## A date of another file -/

/-- The table with an inode for the short entry of `a.txt`, in an entry whose last file was written on
`date`. -/
def gotTable (date : Nat) : Inodes :=
  rootOnly.store (.slot 0) { Entry.zero with iIno := 2, ref := 1, dirWrtDate := date }

theorem lock_update_fresh :
    ∃ t' d₂, (fat32InodeLock blankSb 2 (gotTable 0) (.slot 0)).run singleDisk = .ok (t', singleDisk) ∧
      (fat32InodeUpdate blankSb (t'.deref (.slot 0)).toInode).run singleDisk = .ok ((), d₂) ∧
      entryOn blankSb d₂ 2 = entryOn blankSb singleDisk 2 := by
  obtain ⟨hret, hupd⟩ := @lock_update_iff blankSb singleDisk 2 (gotTable 0) (.slot 0)
    (by decide) rfl
  obtain ⟨t', hlock⟩ := hret (by decide +kernel) (by decide +kernel) (.inl (by decide +kernel))
  obtain ⟨-, d₂, hrun, hiff⟩ := hupd t' _ hlock
  refine ⟨t', d₂, hlock, hrun, hiff.2 (.inr ⟨?_, ?_, ?_⟩)⟩
  · decide +kernel
  · decide +kernel
  · decide +kernel

/-- The entry's date 0 becomes the date of the file that had the inode before. -/
theorem lock_update_stale :
    entryOn blankSb singleDisk 2 11 ≠ 0 ∧
    (entryOn blankSb singleDisk 2).firstClus ≠ blankSb.rootClusterS ∧
    (entryOn blankSb singleDisk 2).getWord 24 = 0 ∧
    ∃ t' d₂, (fat32InodeLock blankSb 2 (gotTable 0x5A21) (.slot 0)).run singleDisk =
        .ok (t', singleDisk) ∧
      (fat32InodeUpdate blankSb (t'.deref (.slot 0)).toInode).run singleDisk = .ok ((), d₂) ∧
      (entryOn blankSb d₂ 2).getWord 24 = 0x5A21 := by
  refine ⟨by decide +kernel, by decide +kernel, by decide +kernel, ?_⟩
  have h : ((do
      let t' ← fat32InodeLock blankSb 2 (gotTable 0x5A21) (.slot 0)
      fat32InodeUpdate blankSb (t'.deref (.slot 0)).toInode : FsProg Unit).run
        singleDisk).toOption.any (fun r => decide ((entryOn blankSb r.2 2).getWord 24 = 0x5A21)) =
      true := by
    decide +kernel
  obtain ⟨⟨u, d₂⟩, hrun, hr⟩ := Res.exists_ok_of_any h
  obtain ⟨t', d₁, hlock, hupd⟩ := Prog.run_bind_eq_ok.1 hrun
  obtain ⟨rfl, -⟩ := lock_ok (by decide) rfl hlock
  exact ⟨t', d₂, hlock, hupd, of_decide_eq_true hr⟩

end Fs
