import OS404.Fs.Proof.Cluster
import OS404.Fs.Proof.Table
import Mathlib.Order.Interval.Finset.Nat

/-!
# The count of free clusters

`free_count` and the two copies of it on the disk against the FREE entries of the FAT, over runs of
`fat32_cluster_alloc` and `fat32_inode_put`.

* `Accounted.alloc`: a call of `fat32_cluster_alloc` keeps the counts right when it marks a FREE entry;
* `free_space`: the counts stay right as long as every call marks an entry that is FREE, and no put
  deletes a file.

A file that is deleted keeps its clusters: `fat32_inode_trunc` marks them as ends of chains
(`free_space_lost`).
-/

namespace Fs

open Lib (Prog Run Linked)
open Driver (Sector)

variable {sb : Superblock} {d d' : Nat → Sector}

/-! ## The count -/

/-- The data clusters whose entries are FREE. -/
def freeEntries (sb : Superblock) (d : Nat → Sector) : Finset Nat :=
  (Finset.Icc 2 (countofClusters sb + 1)).filter fun c => fatNext sb d c = 0

theorem mem_freeEntries {c : Nat} : c ∈ freeEntries sb d ↔ DataCluster sb c ∧ fatNext sb d c = 0 := by
  unfold freeEntries
  rw [Finset.mem_filter, Finset.mem_Icc]
  exact Iff.rfl

theorem card_freeEntries_le (sb : Superblock) (d : Nat → Sector) :
    (freeEntries sb d).card ≤ countofClusters sb := by
  have h := Finset.card_filter_le (Finset.Icc 2 (countofClusters sb + 1)) fun c => fatNext sb d c = 0
  rw [Nat.card_Icc] at h
  unfold freeEntries
  omega

/-- `free_count` and its two copies are the number of FREE entries. -/
structure Accounted (sb : Superblock) (d : Nat → Sector) : Prop where
  freeCount : sb.freeCount = (freeEntries sb d).card
  fsinfo : getDword (d sectorFsinfo) 488 = sb.freeCount
  backup : getDword (d sectorFsinfoBackup) 488 = sb.freeCount

instance (sb : Superblock) (d : Nat → Sector) : Decidable (Accounted sb d) :=
  decidable_of_iff (sb.freeCount = (freeEntries sb d).card ∧
      getDword (d sectorFsinfo) 488 = sb.freeCount ∧ getDword (d sectorFsinfoBackup) 488 = sb.freeCount)
    ⟨fun h => ⟨h.1, h.2.1, h.2.2⟩, fun h => ⟨h.1, h.2, h.3⟩⟩

theorem getDword_setFsinfo (h : sb.freeCount < 2 ^ 32) (b : Sector) :
    getDword (setFsinfo sb b) 488 = sb.freeCount := by
  unfold setFsinfo
  rw [getDword_setDword_ne (by decide) (by decide) (by decide) (by decide) (by decide),
    getDword_setDword h]

section
variable {m h : Nat}

theorem allocated_fsinfo (hv : VolumeOk sb) (hh : DataCluster sb h) {b : Nat} (hb : b ≤ 7)
    (hfs : b = sectorFsinfo ∨ b = sectorFsinfoBackup) (hfc : sb.freeCount < 2 ^ 32) :
    getDword (allocated sb d m h b) 488 = sb.freeCount := by
  have hout : ¬ InCluster sb h b := by
    intro hin
    have h1 := (hv.inCluster_data hh hin).1
    have h2 := hv.fsinfo_lt_data
    omega
  unfold allocated
  dsimp only [zeroAt]
  rw [if_neg hout]
  cases hfs with
  | inl he =>
    subst he
    rw [Function.update_of_ne (by decide), Function.update_self]
    exact getDword_setFsinfo hfc _
  | inr he =>
    subst he
    rw [Function.update_self]
    exact getDword_setFsinfo hfc _

/-- The FREE entries after a call are those before without the marked one. -/
theorem freeEntries_allocated (hv : VolumeOk sb) (hm : DataCluster sb m) (hh : DataCluster sb h) :
    freeEntries sb (allocated sb d m h) = (freeEntries sb d).erase m := by
  ext c
  rw [Finset.mem_erase, mem_freeEntries, mem_freeEntries]
  by_cases hc : c = m
  · subst hc
    rw [allocated_self hv hm hh]
    simp [fatValidMask]
  · by_cases hd : DataCluster sb c
    · rw [(allocated_change hv hm hh).fat c hd.2 (by simpa using hc)]
      exact ⟨fun hf => ⟨hc, hf⟩, fun hf => hf.2⟩
    · exact ⟨fun hf => absurd hf.1 hd, fun hf => absurd hf.2.1 hd⟩

end

theorem Accounted.alloc (ha : Accounted sb d) (hv : VolumeOk sb) (hh : DataCluster sb sb.nxtFree)
    (hfree : ∀ m, Marks sb d m → fatNext sb d m = 0) {dev : Dev} {r : Nat × Superblock}
    (h : (fat32ClusterAlloc sb dev).run d = .ok (r, d')) : VolumeOk r.2 ∧ Accounted r.2 d' := by
  obtain ⟨m, hm, hmd, hne, rfl, rfl⟩ := clusterAlloc_ok hv hh h
  have hv' := hv.withFree (sb.freeCount - 1) (m + 1)
  have hlt : sb.freeCount - 1 < 2 ^ 32 := by
    have h1 := card_freeEntries_le sb d
    have h2 := ha.freeCount
    have h3 := hv.clusters
    omega
  refine ⟨hv', ?_, ?_, ?_⟩
  · have hmem : m ∈ freeEntries sb d := mem_freeEntries.2 ⟨hmd, hfree m hm⟩
    have hcard : (freeEntries (sb.withFree (sb.freeCount - 1) (m + 1))
        (allocated (sb.withFree (sb.freeCount - 1) (m + 1)) d m sb.nxtFree)).card =
        ((freeEntries sb d).erase m).card := by
      rw [freeEntries_allocated hv' hmd hh]
      rfl
    rw [hcard, Finset.card_erase_of_mem hmem, ← ha.freeCount]
    rfl
  · exact allocated_fsinfo hv' hh (by decide) (.inl rfl) hlt
  · exact allocated_fsinfo hv' hh (by decide) (.inr rfl) hlt

/-! ## Runs -/

/-- The calls that take clusters, and those that delete files. -/
inductive SpaceOp where
  | alloc
  | put (p : Ptr)

/-- A mounted volume with the inodes in memory. -/
structure Space where
  sb : Superblock
  disk : Nat → Sector
  inodes : Inodes

namespace Space

section
variable (fuel : Nat)

/-- One call; a call that does not return is none. -/
def step (s : Space) : SpaceOp → Option Space
  | .alloc =>
    match (fat32ClusterAlloc s.sb s.sb.sDev).run s.disk with
    | .ok ((_, sb), d) => some { s with sb, disk := d }
    | .error _ => none
  | .put p =>
    match (fat32InodePut s.sb fuel s.inodes p).run s.disk with
    | .ok ((sb, t), d) => some { sb, disk := d, inodes := t }
    | .error _ => none

/-- The hint is a data cluster and the entry that a call marks is FREE; no put deletes a file. -/
def Sound (s : Space) : SpaceOp → Prop
  | .alloc => DataCluster s.sb s.sb.nxtFree ∧ ∀ m, Marks s.sb s.disk m → fatNext s.sb s.disk m = 0
  | .put p => ¬ (s.inodes.deref p).Deleted

/-- A call that returns. -/
def Step (s : Space) (op : SpaceOp) (s' : Space) : Prop := s.step fuel op = some s'

/-- A call under the condition. -/
def SoundStep (s : Space) (op : SpaceOp) (s' : Space) : Prop := s.Sound op ∧ s.Step fuel op s'

end

variable {fuel : Nat} {s s₀ s' : Space}

theorem step_accounted {op : SpaceOp} (hv : VolumeOk s.sb) (ha : Accounted s.sb s.disk)
    (hst : s.SoundStep fuel op s') : VolumeOk s'.sb ∧ Accounted s'.sb s'.disk := by
  obtain ⟨hs, hst⟩ := hst
  cases op with
  | alloc =>
    dsimp only [Step, step] at hst
    split at hst
    · rename_i hrun
      cases hst
      exact ha.alloc hv hs.1 hs.2 hrun
    · cases hst
  | put p =>
    dsimp only [Step, step] at hst
    split at hst
    · rename_i hrun
      cases hst
      obtain ⟨rfl, rfl, -⟩ := fat32InodePut_run hs hrun
      exact ⟨hv, ha⟩
    · cases hst

/-- In every run in which `fat32_cluster_alloc` marks FREE entries only and no file is deleted, the
count of free clusters and its copies on the disk stay right. -/
theorem free_space {ops : List SpaceOp} (hv : VolumeOk s₀.sb) (ha : Accounted s₀.sb s₀.disk)
    (hrun : Run (SoundStep fuel) s₀ ops s) : Accounted s.sb s.disk := by
  have h : VolumeOk s.sb ∧ Accounted s.sb s.disk :=
    hrun.invariant ⟨hv, ha⟩ fun _ _ _ ht hst => step_accounted ht.1 ht.2 hst
  exact h.2

/-! ## Volumes with ten clusters -/

/-- A check of the condition for a hint that is taken. -/
def check (s : Space) : SpaceOp → Bool
  | .alloc => decide (2 ≤ s.sb.nxtFree ∧ s.sb.nxtFree < countofClusters s.sb ∧
      s.disk (firstSectorofCluster s.sb s.sb.nxtFree) 0 = 0 ∧ fatNext s.sb s.disk s.sb.nxtFree = 0)
  | .put p => decide ¬ (s.inodes.deref p).Deleted

theorem sound_of_check {op : SpaceOp} (h : s.check op = true) : s.Sound op := by
  cases op with
  | alloc =>
    obtain ⟨h1, h2, h3, h4⟩ := of_decide_eq_true h
    refine ⟨⟨h1, by omega⟩, fun m hm => ?_⟩
    unfold Marks at hm
    rw [if_pos ⟨h3, h2⟩] at hm
    rw [hm]
    exact h4
  | put p =>
    have hd : ¬ (s.inodes.deref p).Deleted := of_decide_eq_true h
    exact hd

/-- The calls that pass the check. -/
def next (fuel : Nat) (s : Space) (op : SpaceOp) : Option Space :=
  if s.check op then s.step fuel op else none

theorem soundStep_of_next {op : SpaceOp} (h : s.next fuel op = some s') : s.SoundStep fuel op s' := by
  unfold next at h
  split at h
  case isTrue hc => exact ⟨sound_of_check hc, h⟩
  case isFalse => cases h

/-- A disk with the first `used` clusters in use and the right counts. -/
def spaceDisk (used : Nat) (sec : Nat) : Sector :=
  if sec = 1 ∨ sec = 7 then setDword (fun _ => 0) 488 (10 - used)
  else if sec = 8 then (List.range used).foldl (fun d i => setDword d (4 * (i + 2)) eoc) fun _ => 0
  else fun _ => 0

/-- The hint is cluster `hint`, and entry 0 of the table is a file without links in cluster
`start`. -/
def space (used hint start : Nat) : Space where
  sb := blankSb.withFree (10 - used) hint
  disk := spaceDisk used
  inodes := { inodeTableInit blankRoot with
    entry := Function.update (fun _ => .zero) 0
      { Entry.zero with
        iIno := 3, attr := 0x20, clusterStart := start, clusterEnd := start, clusterCnt := 1, dev := 1
        ref := 1, valid := true, parent := some .root, parentOff := 2
        fname := 102 :: List.replicate 254 0 } }

theorem free_space_two :
    ∃ s, Run (SoundStep 2) (space 1 3 0) [.alloc, .put .root, .alloc] s ∧ s.sb.freeCount = 7 ∧
      Accounted s.sb s.disk := by
  have hx : ((Lib.exec (next 2) (space 1 3 0) [.alloc, .put .root, .alloc]).any fun s =>
      decide (s.sb.freeCount = 7)) = true := by decide +kernel
  obtain ⟨s, hs, hx⟩ := (Option.any_eq_true _ _).1 hx
  have hrun : Run (SoundStep 2) (space 1 3 0) [.alloc, .put .root, .alloc] s := by
    refine Lib.run_of_exec ?_ hs
    exact fun _ _ _ h => soundStep_of_next h
  have hacc : Accounted (space 1 3 0).sb (space 1 3 0).disk := by decide +kernel
  exact ⟨s, hrun, of_decide_eq_true hx, free_space (blankSb_volumeOk.withFree _ _) hacc hrun⟩

/-- A deleted file of one cluster keeps it; a hint that is in use is counted as taken; the deletion
of a file without clusters stops the system. -/
theorem free_space_lost :
    (Accounted (space 2 4 3).sb (space 2 4 3).disk ∧
      Linked Iseof (fatNext (space 2 4 3).sb (space 2 4 3).disk) 3 [3] ∧
      ∃ s, Run (Step 2) (space 2 4 3) [.put (.slot 0)] s ∧ fatNext s.sb s.disk 3 ≠ 0) ∧
    (Accounted (space 2 3 0).sb (space 2 3 0).disk ∧
      ∃ s, Run (Step 2) (space 2 3 0) [.alloc] s ∧
        s.sb.freeCount = 7 ∧ (freeEntries s.sb s.disk).card = 8) ∧
    (fat32InodePut (space 1 3 0).sb 2 (space 1 3 0).inodes (.slot 0)).run (space 1 3 0).disk =
      .error (.panic "assert failed") := by
  refine ⟨⟨by decide +kernel, ⟨rfl, by decide, ?_⟩, ?_⟩, ⟨by decide +kernel, ?_⟩, ?_⟩
  · show Iseof (fatNext (space 2 4 3).sb (space 2 4 3).disk 3)
    decide +kernel
  · have hx : ((Lib.exec (step 2) (space 2 4 3) [.put (.slot 0)]).any fun s =>
        decide (fatNext s.sb s.disk 3 ≠ 0)) = true := by decide +kernel
    obtain ⟨s, hs, hx⟩ := (Option.any_eq_true _ _).1 hx
    refine ⟨s, Lib.run_of_exec ?_ hs, of_decide_eq_true hx⟩
    exact fun _ _ _ h => h
  · have hx : ((Lib.exec (step 2) (space 2 3 0) [.alloc]).any fun s =>
        decide (s.sb.freeCount = 7 ∧ (freeEntries s.sb s.disk).card = 8)) = true := by decide +kernel
    obtain ⟨s, hs, hx⟩ := (Option.any_eq_true _ _).1 hx
    refine ⟨s, Lib.run_of_exec ?_ hs, of_decide_eq_true hx⟩
    exact fun _ _ _ h => h
  · refine Res.eq_error_of_fault ?_
    decide +kernel

end Space

end Fs
