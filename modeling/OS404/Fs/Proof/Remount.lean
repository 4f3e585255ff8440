import OS404.Fs.Proof.CrossLink
import OS404.Fs.Proof.FreeSpace
import OS404.Lib.CrashLogic

/-!
# Mounting the disk again

`fat32_fs_mount` reads the geometry from the boot sector and `Free_Count` and `Nxt_Free` from the FSInfo
sector. `remount`: after any calls of `fat32_inode_write` and `fat32_fcb_init` a mount of the disk makes
the superblock that the kernel has in memory, and when the machine stops in the middle of a call, or
the call panics, a mount makes that superblock with `Free_Count` and `Nxt_Free` of some point of the
call.

The calls write to the reserved sectors only in `fat32_cluster_alloc`. Every other write is to a sector of
the FAT (`entSec_ge`), of the data region or of the cluster behind it, which is the hint when all
clusters are marked (`hintSector_ge`).
-/

namespace Fs

open Lib (Prog Run loadNat_lt)
open Driver (Sector BufferCache)
open Str

variable {sb sb₀ : Superblock} {d d' : Nat → Sector} {ip : Inode}

/-! ## The superblock on the disk -/

/-- The superblock that `fat32_fs_mount` makes of the disk. -/
def diskSb (sb : Superblock) (dev : Dev) (d : Nat → Sector) : Superblock :=
  fat32FsinfoParser (fat32BootSectorParser { sb with sDev := dev } (d 0)) (d sectorFsinfo)

theorem mount_run (sb : Superblock) (dev : Dev) (fuel : Nat) :
    (fat32FsMount sb dev fuel).run d =
      (fat32RootInodeInit (diskSb sb dev d) fuel).run d >>= fun r => .ok ((diskSb sb dev d, r.1), r.2) := by
  have h : (fat32FsMount sb dev fuel).run d =
      (fat32RootInodeInit (diskSb sb dev d) fuel >>= fun root => pure (diskSb sb dev d, root)).run d := rfl
  rw [h, Prog.run_bind]
  rfl

/-- The disk has the superblock `sb`. -/
def Stored (sb : Superblock) (d : Nat → Sector) : Prop := ∀ sb₁ dev, diskSb sb₁ dev d = sb

theorem stored_diskSb (sb : Superblock) (dev : Dev) (d : Nat → Sector) :
    Stored (diskSb sb dev d) d := by
  intro sb₁ dev₁
  have hdev : dev₁ = dev := Subtype.ext (dev₁.2.trans dev.2.symm)
  subst hdev
  rfl

namespace Stored

/-- Only the two sectors matter. -/
theorem frame (h : Stored sb d) (h0 : d' 0 = d 0) (h1 : d' sectorFsinfo = d sectorFsinfo) :
    Stored sb d' := by
  intro sb₁ dev
  rw [← h sb₁ dev]
  unfold diskSb
  rw [h0, h1]

/-- New values of `Free_Count` and `Nxt_Free`. -/
theorem setFsinfo {f n : Nat} (h : Stored sb d) (hf : f < 2 ^ 32) (hn : n < 2 ^ 32) (h0 : d' 0 = d 0)
    (h1 : d' sectorFsinfo = setFsinfo (sb.withFree f n) (d sectorFsinfo)) :
    Stored (sb.withFree f n) d' := by
  intro sb₁ dev
  have hfree : getDword (d' sectorFsinfo) 488 = f := by
    rw [h1]
    exact @getDword_setFsinfo (sb.withFree f n) hf _
  have hnxt : getDword (d' sectorFsinfo) 492 = n := by
    rw [h1]
    exact getDword_setDword hn
  have hd := h sb₁ dev
  unfold diskSb fat32FsinfoParser at hd ⊢
  rw [h0, hfree, hnxt, ← hd]
  rfl

theorem fatbase_lt (h : Stored sb d) : sb.fatbase < 2 ^ 16 := by
  rw [← h sb sb.sDev]
  exact loadNat_lt (d 0) 2 14

theorem freeCount_lt (h : Stored sb d) : sb.freeCount < 2 ^ 32 := by
  rw [← h sb sb.sDev]
  exact loadNat_lt (d sectorFsinfo) 4 488

end Stored

/-! ## The sectors that are written -/

/-- A volume whose hint is a cluster or the one behind the last; all sectors of that one have 32-bit
numbers. -/
structure Layout (sb : Superblock) : Prop where
  volume : VolumeOk sb
  size : sb.nSectors + 256 ≤ 2 ^ 32
  fatbase : sb.fatbase < 2 ^ 16

theorem Layout.withFree (h : Layout sb) (x y : Nat) : Layout (sb.withFree x y) :=
  ⟨h.volume.withFree x y, h.size, h.fatbase⟩

/-- The values of `Nxt_Free`: the cluster behind the last one when that was marked. -/
def NextIn (sb : Superblock) (n : Nat) : Prop := 2 ≤ n ∧ n ≤ countofClusters sb + 2

theorem Layout.entSec_ge (h : Layout sb) (c : Nat) : 7 < thisFATEntSecNum sb c := by
  have h1 := h.volume.fatbase
  have h2 := h.fatbase
  have h3 := u32_lt (c * 4)
  unfold thisFATEntSecNum
  rw [h.volume.sectorSize, u32_of_lt (by omega)]
  omega

/-- The sectors of the hint's cluster. -/
theorem Layout.hintSector_ge (h : Layout sb) {n s : Nat} (hn : NextIn sb n) (hs : s < sb.sectorsPerBlock) :
    7 < u32 (firstSectorofCluster sb n + s) := by
  have h1 := h.size
  have h2 := h.volume.firstDataSector_le
  have h3 := h.volume.fsinfo_lt_data
  have h4 := h.volume.spc_lt
  have h5 := h.volume.clusters
  obtain ⟨h6, h7⟩ := hn
  have h8 : (n - 2) * sb.sectorsPerBlock ≤ sb.nSectors - firstDataSector sb :=
    Nat.le_trans (Nat.mul_le_mul_right _ (by omega)) h.volume.count_mul_le
  unfold firstSectorofCluster
  rw [subU32_of_le (by omega) h6, u32_of_lt (x := (n - 2) * _) (by omega),
    u32_of_lt (x := (n - 2) * _ + _) (by omega), u32_of_lt (by omega)]
  omega

theorem Stored.frame_update (h : Stored sb d) {b : Nat} (hb : 1 < b) (v : Sector) :
    Stored sb (Function.update d b v) := by
  refine h.frame (Function.update_of_ne (by omega) ..) (Function.update_of_ne ?_ ..)
  unfold sectorFsinfo
  omega

/-! ## The superblock during a call -/

/-- The disk has the superblock `sb` of the start of the call with the values `f` and `n` of `Free_Count`
and `Nxt_Free`. -/
structure Synced (sb : Superblock) (f n : Nat) (d : Nat → Sector) : Prop where
  free : f ≤ sb.freeCount
  next : NextIn sb n
  stored : Stored (sb.withFree f n) d

/-- The disk has a superblock of some point of the call. -/
def Recovers (sb : Superblock) (d : Nat → Sector) : Prop := ∃ f n, Synced sb f n d

/-- The superblock `sb'` in memory is such a one, and the disk has it. -/
def InStep (sb sb' : Superblock) (d : Nat → Sector) : Prop :=
  ∃ f n, sb' = sb.withFree f n ∧ Synced sb f n d

variable {f n x y : Nat}

theorem Synced.recovers (h : Synced sb f n d) : Recovers sb d := ⟨f, n, h⟩

theorem Synced.inStep (h : Synced sb f n d) : InStep sb (sb.withFree f n) d := ⟨f, n, rfl, h⟩

theorem Synced.update (h : Synced sb f n d) {b : Nat} (hb : 1 < b) (v : Sector) :
    Synced sb f n (Function.update d b v) :=
  ⟨h.free, h.next, h.stored.frame_update hb v⟩

/-- A write to another sector than the two. -/
theorem Synced.alter (h : Synced sb f n d) {b : Nat} (hb : 1 < b) (g : Sector → Sector) :
    (Prog.alter b g : FsProg Unit).Safe (Recovers sb) (fun _ d' => Synced sb f n d') d :=
  .alter h.recovers (h.update hb _).recovers (h.update hb _)

section
variable (hl : Layout sb)
include hl

theorem fatSet_safe (h : Synced sb f n d) (c v : Nat) :
    (fat32FatSet (sb.withFree x y) c v).Safe (Recovers sb) (fun _ d' => Synced sb f n d') d :=
  h.alter (Nat.lt_trans (by decide) (hl.entSec_ge c)) _

theorem fatAllocLoop_safe (h : Synced sb f n d) : ∀ (fuel sec c : Nat),
    (fatAllocLoop (sb.withFree x y) fuel sec c).Safe (Recovers sb) (fun _ d' => Synced sb f n d') d
  | 0, _, _ => h.recovers
  | fuel + 1, sec, c => by
    unfold fatAllocLoop
    split
    · refine .bind (Q := fun _ d' => d' = d) (.get h.recovers rfl) fun v d' hd => ?_
      subst d'
      split
      · exact .bind (fatSet_safe hl h _ _) fun _ _ h' => .pure h'.recovers h'
      · exact .pure h.recovers h
      · exact fatAllocLoop_safe h fuel _ _
    · exact .pure h.recovers h

/-- `Nxt_Free` is the cluster behind the one that is marked. The disk has the old values. -/
theorem takeCluster_safe (h : Synced sb f n d) {dev : Dev} :
    (takeCluster (sb.withFree x n) dev).Safe (Recovers sb)
      (fun r d' => Synced sb f n d' ∧ ∃ n', r = sb.withFree x n' ∧ NextIn sb n') d := by
  have hv := hl.volume.withFree x n
  have hc := hl.volume.clusters
  have hmax : subU32 (fatClusterMax (sb.withFree x n)) 1 = countofClusters sb := by
    rw [hv.fatOk.fatClusterMax_eq, countofClusters_withFree, subU32_of_le (by omega) (by omega)]
    omega
  have hres : ∀ k, NextIn sb k →
      ({ sb.withFree x n with nxtFree := u32 k } : Superblock) = sb.withFree x k := by
    intro k hk
    rw [u32_of_lt (by have := hk.2; omega)]
    rfl
  unfold takeCluster
  refine .bind (Q := fun _ d' => d' = d) (.get h.recovers rfl) fun v d' hd => ?_
  subst d'
  split
  case isTrue hhit =>
    have hn : NextIn sb (n + 1) := by
      have h1 := h.next.1
      have h2 : n < countofClusters sb := hmax ▸ hhit.2
      exact ⟨by omega, by omega⟩
    refine .bind (fatSet_safe hl h _ _) fun _ d₁ h₁ => ?_
    exact .pure h₁.recovers ⟨h₁, _, hres _ hn, hn⟩
  case isFalse =>
    refine .bind (fatAllocLoop_safe hl h _ _ _).with_run fun c d₁ h₁ => ?_
    obtain ⟨h₁, hrun⟩ := h₁
    split
    · exact h₁.recovers
    next hc0 =>
      obtain ⟨k, rfl, -, hle, -⟩ := fatAlloc_ok hv.fatOk hrun hc0
      have hn : NextIn sb (k + 3 + 1) := ⟨by omega, Nat.succ_le_succ hle⟩
      exact .pure h₁.recovers ⟨h₁, _, hres _ hn, hn⟩

theorem zeroSectors_safe (hx : NextIn sb x) : ∀ {k s : Nat} {d : Nat → Sector},
    Synced sb f n d → s + k ≤ sb.sectorsPerBlock →
    (zeroSectors (sb.withFree f n) (firstSectorofCluster sb x) k s).Safe (Recovers sb)
      (fun _ d' => Synced sb f n d') d
  | 0, _, _, h, _ => .pure h.recovers h
  | k + 1, s, d, h, hs => by
    have hb := hl.hintSector_ge hx (s := s) (by omega)
    refine .bind (h.alter (Nat.lt_trans (by decide) hb) _) fun _ d' h' => ?_
    exact zeroSectors_safe hx h' (by omega)

theorem clusterAlloc_safe (h : Synced sb f n d) {dev : Dev} :
    (fat32ClusterAlloc (sb.withFree f n) dev).Safe (Recovers sb) (fun r d' => InStep sb r.2 d') d := by
  have hf : f < 2 ^ 32 := h.stored.freeCount_lt
  have hc := hl.volume.clusters
  unfold fat32ClusterAlloc
  split
  · exact h.recovers
  refine .bind (takeCluster_safe hl h) fun sb' d₁ h₁ => ?_
  obtain ⟨h₁, n', rfl, hn⟩ := h₁
  have hn' : n' < 2 ^ 32 := by
    have := hn.2
    omega
  -- the FSInfo sector gets the new values
  have h₂ : Synced sb (f - 1) n' (Function.update d₁ sectorFsinfo
      (setFsinfo (sb.withFree (f - 1) n') (d₁ sectorFsinfo))) := by
    refine ⟨by have := h.free; omega, hn, ?_⟩
    refine h₁.stored.setFsinfo (by omega) hn' ?_ ?_
    · exact Function.update_of_ne (by decide) ..
    · exact Function.update_self ..
  refine .bind (Q := fun _ d' => Synced sb (f - 1) n' d') (.alter h₁.recovers h₂.recovers h₂)
    fun _ d₃ h₃ => ?_
  refine .bind (h₃.alter (by decide) _) fun _ d₄ h₄ => ?_
  refine .bind (zeroSectors_safe hl h.next h₄ (by simp)) fun _ d₅ h₅ => ?_
  exact .pure h₅.recovers h₅.inStep

theorem appendCluster_safe (h : Synced sb f n d) (ip : Inode) (iter : Nat) :
    (appendCluster (sb.withFree f n) ip iter).Safe (Recovers sb)
      (fun r d' => InStep sb r.2.1 d' ∧ r.2.2.iIno = ip.iIno) d := by
  refine .bind (clusterAlloc_safe hl h) fun r d₁ h₁ => ?_
  obtain ⟨c, sb'⟩ := r
  obtain ⟨f', n', rfl, h₁⟩ := h₁
  refine .bind (fatSet_safe hl h₁ _ _) fun _ d₂ h₂ => ?_
  exact .pure h₂.recovers ⟨h₂.inStep, rfl⟩

end

/-- The loop puts back what it read. -/
theorem writeSectors_safe {C : (Nat → Sector) → Prop} (hc : C d) (first n : Nat) :
    ∀ (k s sO tot : Nat) (src : List (BitVec 8)),
    (writeSectors ip first n k s sO tot src).Safe C (fun _ d' => d' = d) d
  | 0, _, _, _, _ => .pure hc rfl
  | k + 1, s, sO, tot, src => by
    unfold writeSectors
    split
    · have he : Function.update d (u32 (first + s)) (d (u32 (first + s))) = d :=
        Function.update_eq_self ..
      refine .bind (Q := fun _ d' => d' = d) (.alter hc ?_ he) fun _ d' hd => ?_
      · rw [he]
        exact hc
      · subst d'
        exact writeSectors_safe hc first n k _ _ _ _
    · exact .pure hc rfl

theorem travel_safe {C : (Nat → Sector) → Prop} (hc : C d) (fuel num : Nat) :
    (fat32FatTravel sb fuel ip num).Safe C (fun r d' => d' = d ∧ r.2.iIno = ip.iIno) d := by
  unfold fat32FatTravel
  refine .bind (.readsOnly (readsOnly_travelLoop ..) hc) fun r d' hd => ?_
  subst d'
  dsimp only
  split
  · exact .pure hc ⟨rfl, rfl⟩
  · split
    · exact .pure hc ⟨rfl, rfl⟩
    · exact .pure hc ⟨rfl, rfl⟩

/-- **`fat32_fcb_init`** reads, and allocates a cluster unless the name is `.` or `..`. -/
theorem fcbInit_safe {C : (Nat → Sector) → Prop} {Q : Superblock → (Nat → Sector) → Prop}
    {fuel attr : Nat} {longName : CStr} {fileName fileExt : List (BitVec 8)} (hc : C d) (hq : Q sb d)
    (halloc : isDotName longName.chars ≠ .ok true →
      (fat32ClusterAlloc sb ip.iDev).Safe C (fun r d' => C d' ∧ Q r.2 d') d) :
    (fat32FcbInit sb fuel ip longName attr fileName fileExt).Safe C (fun r d' => Q r.2.2 d') d := by
  unfold fat32FcbInit
  refine .bind (.with_run (.readsOnly (Prog.readsOnly_lift _) hc)) fun dot d' hdot => ?_
  obtain ⟨hd', hdot⟩ := hdot
  subst d'
  obtain ⟨hdot, -⟩ := Prog.run_lift_eq_ok.1 hdot
  split
  · refine .bind (.readsOnly (Prog.readsOnly_lift _) hc) fun fcb d' hd => ?_
    subst d'
    exact .pure hc hq
  next hfalse =>
    have hname : (if DirBool attr then shortNameDir sb fuel ip longName.chars fileName
        else shortNameFile sb fuel ip longName.chars fileName fileExt :
          FsProg (List (BitVec 8))).ReadsOnly := by
      split
      · exact readsOnly_shortNameDir ..
      · exact readsOnly_shortNameFile ..
    refine .bind (.readsOnly hname hc) fun dirName d' hd => ?_
    subst d'
    refine .bind (halloc (by rw [hdot]; simpa using hfalse)) fun r d₁ h₁ => ?_
    obtain ⟨c, sb'⟩ := r
    refine .bind (.readsOnly (Prog.readsOnly_lift _) h₁.1) fun fcb d' hd => ?_
    subst d'
    exact .pure h₁.1 h₁.2

section
variable (hl : Layout sb)
include hl

theorem writeClusters_safe {k : Nat} : ∀ (fuel : Nat) {iter sN sO tot : Nat} {src : List (BitVec 8)}
    {f n : Nat} {ip : Inode} {d : Nat → Sector}, Synced sb f n d →
    (writeClusters k fuel iter sN sO tot src (sb.withFree f n) ip).Safe (Recovers sb)
      (fun r d' => InStep sb r.2.1 d' ∧ r.2.2.iIno = ip.iIno) d
  | 0, _, _, _, _, _, _, _, _, _, h => h.recovers
  | fuel + 1, iter, sN, sO, tot, src, f, n, ip, d, h => by
    unfold writeClusters
    split
    · refine .bind (writeSectors_safe h.recovers _ _ _ _ _ _ _) fun w d' hd => ?_
      subst d'
      obtain ⟨sO', tot', src'⟩ := w
      dsimp only
      split
      · exact .pure h.recovers ⟨h.inStep, rfl⟩
      refine .bind (.readsOnly (readsOnly_nextCluster _) h.recovers) fun next d' hd => ?_
      subst d'
      split
      · refine .bind (appendCluster_safe hl h _ _) fun r d₁ h₁ => ?_
        obtain ⟨c, sb', ip'⟩ := r
        obtain ⟨⟨f', n', rfl, h₁⟩, hino⟩ := h₁
        refine .mono (fun _ hc => hc) (fun r d₂ h₂ => ?_) (writeClusters_safe fuel h₁)
        exact ⟨h₂.1, h₂.2.trans hino⟩
      · exact writeClusters_safe fuel h
    · exact .pure h.recovers ⟨h.inStep, rfl⟩

theorem inodeUpdate_safe (h : Synced sb f n d) (hd : DirentOk sb ip.iIno) :
    (fat32InodeUpdate (sb.withFree f n) ip).Safe (Recovers sb) (fun _ d' => Synced sb f n d') d := by
  unfold fat32InodeUpdate
  split
  · exact .bind (.get h.recovers h) fun _ _ h' => .pure h'.recovers h'
  next hino =>
    have h1 : firstDataSector sb ≤ fatinumToSector sb ip.iIno := hd hino
    have h2 := hl.volume.fsinfo_lt_data
    refine h.alter ?_ _
    show 1 < fatinumToSector sb ip.iIno
    omega

/-- **`fat32_inode_write`** and the superblock. -/
theorem inodeWrite_safe (h : Synced sb f n d) (hd : DirentOk sb ip.iIno) (src : List (BitVec 8))
    (off k : Nat) :
    (fat32InodeWrite (sb.withFree f n) ip src off k).Safe (Recovers sb)
      (fun r d' => InStep sb r.2.1 d' ∧ r.2.2.iIno = ip.iIno) d := by
  unfold fat32InodeWrite
  split
  · refine .bind (travel_safe h.recovers _ _) fun t d' ht => ?_
    obtain ⟨iter, ip₁⟩ := t
    obtain ⟨hd', hino₁⟩ := ht
    subst d'
    dsimp only
    -- the first cluster may be a new one
    have hfirst : (if ip₁.clusterCnt < u32 (logisticCNum (sb.withFree f n) off + 1) then
        appendCluster (sb.withFree f n) ip₁ iter else pure (iter, sb.withFree f n, ip₁) :
        FsProg (Nat × Superblock × Inode)).Safe (Recovers sb)
        (fun r d' => InStep sb r.2.1 d' ∧ r.2.2.iIno = ip₁.iIno) d := by
      split
      · exact appendCluster_safe hl h ip₁ iter
      · exact .pure h.recovers ⟨h.inStep, rfl⟩
    refine .bind hfirst fun a d₂ h₂ => ?_
    obtain ⟨iter', sb₂, ip₂⟩ := a
    obtain ⟨⟨f₂, n₂, rfl, h₂⟩, hino₂⟩ := h₂
    refine .bind (writeClusters_safe hl _ h₂) fun w d₃ h₃ => ?_
    obtain ⟨tot, sb₃, ip₃⟩ := w
    obtain ⟨⟨f₃, n₃, rfl, h₃⟩, hino₃⟩ := h₃
    have hino : ip₃.iIno = ip.iIno := hino₃.trans (hino₂.trans hino₁)
    refine .bind (inodeUpdate_safe hl h₃ ?_) fun _ d₄ h₄ => ?_
    · show DirentOk sb ip₃.iIno
      rw [hino]
      exact hd
    · exact .pure h₄.recovers ⟨h₄.inStep, hino⟩
  · exact .pure h.recovers ⟨h.inStep, rfl⟩

theorem fcbInit_recovers (h : Synced sb f n d) {fuel attr : Nat} {longName : CStr}
    {fileName fileExt : List (BitVec 8)} :
    (fat32FcbInit (sb.withFree f n) fuel ip longName attr fileName fileExt).Safe (Recovers sb)
      (fun r d' => InStep sb r.2.2 d') d := by
  refine fcbInit_safe h.recovers h.inStep fun _ => ?_
  exact .mono (fun _ hc => hc) (fun _ _ ⟨f, n, hr, h'⟩ => ⟨h'.recovers, f, n, hr, h'⟩)
    (clusterAlloc_safe hl h)

end

/-! ## Calls and runs -/

namespace Volume

variable {s s' s₀ : Volume}

/-- The caches with which the machine can stop in a call, also in one that panics. -/
def Stops (s : Volume) : Call → BufferCache → Prop
  | .write i src off n, c => ∃ ip, s.files[i]? = some ip ∧
      (fat32InodeWrite s.sb ip src off.toNat n.toNat).Cut (BufferCache.handler rootDev) s.cache c
  | .fcbInit fuel parent longName attr fileName fileExt _, c =>
      (fat32FcbInit s.sb fuel parent longName attr fileName fileExt).Cut
        (BufferCache.handler rootDev) s.cache c

/-- A call that returns. -/
def Returns (s : Volume) (call : Call) (s' : Volume) : Prop := s.step call = some s'

/-- The superblock in memory is on the disk. -/
structure Kept (s : Volume) : Prop where
  cache : BufferCache.Ok rootDev s.cache
  layout : Layout s.sb
  next : NextIn s.sb s.sb.nxtFree
  stored : Stored s.sb s.disk
  dirent : ∀ ip ∈ s.files, DirentOk s.sb ip.iIno

theorem Kept.synced (h : s.Kept) : Synced s.sb s.sb.freeCount s.sb.nxtFree s.cache.disk :=
  ⟨Nat.le_refl _, h.next, h.stored⟩

theorem Kept.of_inStep {cache : BufferCache} {files : List Inode} (h : s.Kept)
    (hok : BufferCache.Ok rootDev cache) (hsb : InStep s.sb sb cache.disk)
    (hd : ∀ ip ∈ files, DirentOk s.sb ip.iIno) : Kept { cache, sb, files } := by
  obtain ⟨f, n, rfl, hs⟩ := hsb
  exact ⟨hok, h.layout.withFree f n, hs.next, hs.stored, hd⟩

theorem step_kept {call : Call} (h : s.Kept) (hst : s.Returns call s') : s'.Kept := by
  cases call with
  | write i src off n =>
    dsimp only [Returns, step] at hst
    split at hst
    · cases hst
    next ip hip =>
      have hd := h.dirent ip (List.mem_of_getElem? hip)
      split at hst
      next tot sb' ip' cache he =>
        cases hst
        obtain ⟨⟨hsb, hino⟩, hok⟩ := (BufferCache.refines_disk rootDev).safe_ok h.cache
          (inodeWrite_safe h.layout h.synced hd src off.toNat n.toNat) he
        refine h.of_inStep hok hsb fun ip₁ hip₁ => ?_
        rcases List.mem_or_eq_of_mem_set hip₁ with hip₁ | rfl
        · exact h.dirent ip₁ hip₁
        · rw [hino]
          exact hd
      · cases hst
  | fcbInit fuel parent longName attr fileName fileExt ip =>
    dsimp only [Returns, step] at hst
    split at hst
    next hd =>
      split at hst
      next cnt fcb sb' cache he =>
        cases hst
        obtain ⟨hsb, hok⟩ := (BufferCache.refines_disk rootDev).safe_ok h.cache
          (fcbInit_recovers h.layout h.synced) he
        refine h.of_inStep hok hsb fun ip₁ hip₁ => ?_
        split at hip₁
        · exact h.dirent ip₁ hip₁
        · rcases List.mem_append.1 hip₁ with hip₁ | hip₁
          · exact h.dirent ip₁ hip₁
          · rw [List.mem_singleton.1 hip₁]
            exact hd
      · cases hst
    · cases hst

theorem stops_recovers {call : Call} {c : BufferCache} (h : s.Kept) (hc : s.Stops call c) :
    Recovers s.sb c.disk := by
  cases call with
  | write i src off n =>
    obtain ⟨ip, hip, hc⟩ := hc
    exact (BufferCache.refines_disk rootDev).safe_cut h.cache
      (inodeWrite_safe h.layout h.synced (h.dirent ip (List.mem_of_getElem? hip)) src _ _) hc
  | fcbInit fuel parent longName attr fileName fileExt ip =>
    exact (BufferCache.refines_disk rootDev).safe_cut h.cache
      (fcbInit_recovers h.layout h.synced) hc

/-- The first request of a fresh cache is answered from the disk. -/
theorem readBlock_zeroed {disk : Nat → Sector} {b : Nat} {v : Sector} {c : BufferCache}
    (h : (BufferCache.zeroed disk).readBlock rootDev b = .ok (v, c)) : v = disk b := by
  have hn : (BufferCache.zeroed disk).search (fun x => x.dev == rootDev && x.blockNo == b)
      (List.range (Driver.bufferNum - 1)) = none := by
    apply BufferCache.search_eq_none.2
    intro i _
    simp [BufferCache.zeroed, rootDev]
  have hs : (BufferCache.zeroed disk).search (fun x => x.refcnt == 0)
      (List.range Driver.bufferNum).reverse = some (Driver.bufferNum - 1) := rfl
  simp only [BufferCache.readBlock, BufferCache.bread, BufferCache.bget, hn, hs, Res.ok_bind,
    BufferCache.put_buf_self, BufferCache.diskRead] at h
  exact (Prod.mk.inj (Except.ok.inj h)).1.symm

theorem Mounted.stored {disk : Nat → Sector} (h : s.Mounted disk) : Stored s.sb disk := by
  obtain ⟨sb₁, dev, fuel, root, hm⟩ := h
  obtain ⟨bpb, c₁, hb, hm⟩ := Prog.interp_bind_eq_ok.1 hm
  have hread : (BufferCache.zeroed disk).readBlock rootDev 0 = .ok (bpb, c₁) := by
    rw [readSector, Prog.get, Prog.interp_read] at hb
    obtain ⟨r, hr, hb⟩ := Res.bind_eq_ok.1 hb
    cases hb
    exact hr
  obtain rfl := readBlock_zeroed hread
  obtain ⟨hok, rfl⟩ := BufferCache.ok_of_first (by decide) hread
  obtain ⟨hr, -, -, -⟩ := (BufferCache.refines_disk rootDev).sound hok hm
  obtain ⟨fsinfo, d₂, hf, hr⟩ := Prog.run_bind_eq_ok.1 hr
  cases hf
  obtain ⟨root', d₃, -, hr⟩ := Prog.run_bind_eq_ok.1 hr
  have hsb : diskSb sb₁ dev c₁.disk = s.sb := (Prod.mk.inj (Prod.mk.inj (Except.ok.inj hr)).1).1
  rw [← hsb]
  exact stored_diskSb sb₁ dev _

/-- A mount of `d` makes the superblock `sb`: it goes on with the root as with that superblock. -/
def MountsAs (sb : Superblock) (d : Nat → Sector) : Prop :=
  ∀ sb₁ dev fuel, (fat32FsMount sb₁ dev fuel).run d =
    (fat32RootInodeInit sb fuel).run d >>= fun r => .ok ((sb, r.1), r.2)

theorem mountsAs_of_stored (h : Stored sb d) : MountsAs sb d := by
  intro sb₁ dev fuel
  rw [mount_run, h sb₁ dev]

/-- After any calls, a mount of the disk makes the superblock that is in memory. When the machine stops
anywhere in a further call, or the call panics, a mount makes the superblock of before the call, except that
`Free_Count` may be less and `Nxt_Free` another cluster. -/
theorem remount {disk : Nat → Sector} {calls : List Call} (hm : s₀.Mounted disk) (hv : VolumeOk s₀.sb)
    (hsize : s₀.sb.nSectors + 256 ≤ 2 ^ 32) (hn : NextIn s₀.sb s₀.sb.nxtFree)
    (hd : ∀ ip ∈ s₀.files, DirentOk s₀.sb ip.iIno) (hrun : Run Returns s₀ calls s) :
    MountsAs s.sb s.disk ∧
      ∀ call c, s.Stops call c → ∃ f n, f ≤ s.sb.freeCount ∧ NextIn s.sb n ∧
        MountsAs (s.sb.withFree f n) c.disk := by
  have hk : s.Kept := by
    refine hrun.invariant ?_ fun _ _ _ h hst => step_kept h hst
    obtain ⟨hok, hdisk⟩ := hm.cache
    refine ⟨hok, ⟨hv, hsize, hm.stored.fatbase_lt⟩, hn, ?_, hd⟩
    rw [hdisk]
    exact hm.stored
  refine ⟨mountsAs_of_stored hk.stored, fun call c hc => ?_⟩
  obtain ⟨f, n, h⟩ := stops_recovers hk hc
  exact ⟨f, n, h.free, h.next, mountsAs_of_stored h.stored⟩

/-- A file got its second cluster, and the machine stops in a further write. -/
theorem remount_append : ∃ s₀ s, s₀.Mounted (smallDisk 5) ∧ Run Returns s₀ [appendCall] s ∧
    s.sb = smallSb 4 6 ∧ MountsAs s.sb s.disk ∧
      ∀ call c, s.Stops call c → ∃ f n, f ≤ s.sb.freeCount ∧ NextIn s.sb n ∧
        MountsAs (s.sb.withFree f n) c.disk := by
  have hx : ((smallMount 5).any fun s₀ => decide (s₀.sb = smallSb 5 5) &&
      (s₀.step appendCall).any fun s => decide (s.sb = smallSb 4 6)) = true := by decide +kernel
  obtain ⟨s₀, hm, hx⟩ := (Option.any_eq_true _ _).1 hx
  obtain ⟨hsb, hx⟩ := Bool.and_eq_true_iff.1 hx
  obtain ⟨s, hs, hx⟩ := (Option.any_eq_true _ _).1 hx
  have hsb : s₀.sb = smallSb 5 5 := of_decide_eq_true hsb
  obtain ⟨hmt, hfiles⟩ := smallMount_mounted hm
  have hf : Iseof (fatNext s₀.sb (smallDisk 5) 3) ∧ Iseof (fatNext s₀.sb (smallDisk 5) 4) := by
    rw [hsb]
    decide +kernel
  have hrun : Run Returns s₀ [appendCall] s := .snoc .nil hs
  refine ⟨s₀, s, hmt, hrun, of_decide_eq_true hx, remount hmt ?_ ?_ ?_ (small_chains hm hsb hf).2.1 hrun⟩
  · rw [hsb]
    exact smallSb_volumeOk 5 5
  · rw [hsb]
    decide
  · rw [hsb]
    exact ⟨by decide, by rw [smallSb_count]; decide⟩

end Volume

end Fs
