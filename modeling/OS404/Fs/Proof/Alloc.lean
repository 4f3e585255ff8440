import OS404.Fs.Proof.Fat

/-!
# Taking a cluster

The functions that write entries of the FAT, each with the specification one expects of it.

* `fat_entry_law`: `fat32_fat_set` and `fat32_next_cluster` as an array of 28-bit values;
* `fatAlloc_run`: `fat32_fat_alloc` counts from 3 at entry 0, so that it marks the entry three behind
  the first one that is zero; `fat_alloc_exact` says when that is a free cluster's;
* `clusterAlloc_ok`: `fat32_cluster_alloc` returns and zeroes the hint, whichever entry it marks;
  `cluster_alloc_exact` says when that is the hint's and was free.
-/

namespace Fs

open Lib (Prog)
open Driver (Sector)

variable {sb : Superblock} {d d' : Nat → Sector}

/-! ## One entry -/

/-- Entry `k` as it is on the disk. -/
def rawEntry (sb : Superblock) (d : Nat → Sector) (k : Nat) : Nat :=
  getDword (d (sb.fatbase + k / 128)) (4 * (k % 128))

theorem rawEntry_eq (q : Nat) {s : Nat} (hs : s < 128) :
    rawEntry sb d (128 * q + s) = getDword (d (sb.fatbase + q)) (4 * s) := by
  unfold rawEntry
  rw [show (128 * q + s) / 128 = q by omega, show (128 * q + s) % 128 = s by omega]

theorem and_or_top (x v : Nat) :
    (x &&& 0xF0000000 ||| v &&& fatValidMask) &&& 0xF0000000 = x &&& 0xF0000000 := by
  rw [Nat.and_or_distrib_right, Nat.and_assoc, Nat.and_assoc]
  rw [show fatValidMask &&& 0xF0000000 = 0 from rfl, Nat.and_self, Nat.and_zero, Nat.or_zero]

/-- The top four bits of an entry stay. -/
theorem rawEntry_fatPut (hf : FatOk sb) {c : Nat} (hc : c ≤ countofClusters sb + 1) (v : Nat) :
    rawEntry sb (fatPut sb d c v) c &&& 0xF0000000 = rawEntry sb d c &&& 0xF0000000 := by
  have h1 : ∀ x : Nat, x &&& 0xF0000000 < 2 ^ 32 := fun x => Nat.and_lt_two_pow x (by decide)
  have h2 : v &&& fatValidMask < 2 ^ 32 := Nat.and_lt_two_pow v (by decide)
  unfold rawEntry fatPut setFAT32ClusEntryVal
  rw [hf.entSec_eq hc, hf.entOffset_eq hc, Function.update_self]
  dsimp only
  rw [getDword_setDword (h1 _), getDword_setDword (Nat.or_lt_two_pow (h1 _) h2), and_or_top]

/-- **The entries of the FAT** are written and read one by one, and only the first FAT is written. -/
theorem fat_entry_law (hf : FatOk sb) {c : Nat} (hc : Accepted sb c) (v : BitVec 32)
    (d : Nat → Sector) :
    ∃ d', (fat32FatSet sb c v.toNat).run d = .ok ((), d') ∧
      (fat32NextCluster sb c).run d' = .ok (v.toNat &&& fatValidMask, d') ∧
      rawEntry sb d' c &&& 0xF0000000 = rawEntry sb d c &&& 0xF0000000 ∧
      (∀ e, Accepted sb e → e ≠ c → ∃ x, (fat32NextCluster sb e).run d = .ok (x, d) ∧
        (fat32NextCluster sb e).run d' = .ok (x, d')) ∧
      ∀ b, d' b ≠ d b → sb.fatbase ≤ b ∧ b < sb.fatbase + sb.nSectorsFat := by
  have hle : ∀ {e}, Accepted sb e → e ≤ countofClusters sb + 1 := by
    intro e he
    have h := he.2
    rw [hf.fatClusterMax_eq] at h
    omega
  refine ⟨_, run_fatSet c v.toNat, ?_, rawEntry_fatPut hf (hle hc) _, ?_, ?_⟩
  · rw [run_nextCluster, if_pos hc, fatNext_fatPut]
  · intro e he hne
    refine ⟨fatNext sb d e, ?_, ?_⟩
    · rw [run_nextCluster, if_pos he]
    · rw [run_nextCluster, if_pos he, fatNext_fatPut_ne hf (hle hc) (hle he) hne]
  · intro b hb
    have hsec : b = thisFATEntSecNum sb c := by
      by_contra hne
      exact hb (Function.update_of_ne hne ..)
    have h1 := hf.fat
    have h2 := hle hc
    rw [hsec, hf.entSec_eq h2]
    omega

theorem fat_entry_law_five :
    ∃ d', (fat32FatSet blankSb 5 (BitVec.toNat (0x12345678 : BitVec 32))).run (fatDisk [(5, 0xF0000000)]) =
        .ok ((), d') ∧
      (fat32NextCluster blankSb 5).run d' = .ok (0x2345678, d') ∧
      rawEntry blankSb d' 5 &&& 0xF0000000 = 0xF0000000 := by
  obtain ⟨d', h1, h2, h3, -, -⟩ := fat_entry_law blankSb_volumeOk.fatOk (by decide : Accepted blankSb 5)
    0x12345678 (fatDisk [(5, 0xF0000000)])
  refine ⟨d', h1, h2, h3.trans ?_⟩
  decide +kernel

/-- A volume of 2 ^ 30 + 100 clusters with an entry for each of them. -/
def hugeSb : Superblock :=
  { blankSb with nSectors := 2 ^ 30 + 2 ^ 23 + 109, nSectorsFat := 2 ^ 23 + 1 }

/-- The byte offset of entry 2 ^ 30 + 2 wraps to that of entry 2. -/
theorem fat_entry_wraps :
    hugeSb.sectorSize = 512 ∧ countofClusters hugeSb + 2 ≤ 128 * hugeSb.nSectorsFat ∧
    hugeSb.fatbase + hugeSb.nFats * hugeSb.nSectorsFat ≤ hugeSb.nSectors ∧
    Accepted hugeSb (2 ^ 30 + 2) ∧ Accepted hugeSb 2 ∧
    ∃ d', (fat32FatSet hugeSb (2 ^ 30 + 2) (BitVec.toNat (5 : BitVec 32))).run (fatDisk []) = .ok ((), d') ∧
      (fat32NextCluster hugeSb 2).run (fatDisk []) = .ok (0, fatDisk []) ∧
      (fat32NextCluster hugeSb 2).run d' = .ok (5, d') := by
  have ha : Accepted hugeSb 2 := by decide +kernel
  refine ⟨rfl, by decide +kernel, by decide +kernel, by decide +kernel, ha, _, run_fatSet _ _, ?_, ?_⟩
  · rw [run_nextCluster, if_pos ha]
    have h : fatNext hugeSb (fatDisk []) 2 = 0 := by decide +kernel
    rw [h]
  · rw [run_nextCluster, if_pos ha]
    have h : fatNext hugeSb (fatPut hugeSb (fatDisk []) (2 ^ 30 + 2) (BitVec.toNat (5 : BitVec 32))) 2 =
        5 := by decide +kernel
    rw [h]

/-! ## `fat32_fat_alloc` -/

/-- Entry `k` is the first that is zero. -/
def FirstZero (sb : Superblock) (d : Nat → Sector) (k : Nat) : Prop :=
  rawEntry sb d k = 0 ∧ ∀ j < k, rawEntry sb d j ≠ 0

theorem FirstZero.unique {j k : Nat} (hj : FirstZero sb d j) (hk : FirstZero sb d k) : j = k := by
  have h1 : ¬ j < k := fun h => hk.2 j h hj.1
  have h2 : ¬ k < j := fun h => hj.2 k h hk.1
  omega

/-- What the loop over one sector finds; it gives up at the entry of the last number. -/
def FatScan.Spec (sb : Superblock) (b : Sector) (n s c : Nat) : FatScan → Prop
  | .free c' => ∃ i < n, c' = c + i ∧ getDword b (4 * (s + i)) = 0 ∧
      (∀ j < i, getDword b (4 * (s + j)) ≠ 0) ∧ c' ≤ fatClusterMax sb
  | .full => ∃ i < n, c + i = fatClusterMax sb ∧ ∀ j < i + 1, getDword b (4 * (s + j)) ≠ 0
  | .more c' => c' = c + n ∧ ∀ j < n, getDword b (4 * (s + j)) ≠ 0

theorem fatScan_spec (b : Sector) (n s c : Nat) (hc : c ≤ fatClusterMax sb) :
    (fatScan sb b n s c).Spec sb b n s c := by
  induction n generalizing s c with
  | zero => exact ⟨rfl, fun j hj => absurd hj (Nat.not_lt_zero j)⟩
  | succ n ih =>
    rw [fatScan]
    split
    case isTrue h0 =>
      exact ⟨0, Nat.succ_pos n, rfl, h0, fun j hj => absurd hj (Nat.not_lt_zero j), hc⟩
    case isFalse h0 =>
      -- the entries from the next one on are those of the induction hypothesis
      have hshift : ∀ {i : Nat}, (∀ j < i, getDword b (4 * (s + 1 + j)) ≠ 0) →
          ∀ j < i + 1, getDword b (4 * (s + j)) ≠ 0 := by
        intro i hi j hj
        cases j with
        | zero => exact h0
        | succ j =>
          rw [show s + (j + 1) = s + 1 + j by omega]
          exact hi j (by omega)
      split
      case isTrue hmax =>
        exact ⟨0, Nat.succ_pos n, by omega, hshift fun j hj => absurd hj (Nat.not_lt_zero j)⟩
      case isFalse hmax =>
        have h := ih (s + 1) (c + 1) (by omega)
        cases hx : fatScan sb b n (s + 1) (c + 1) with
        | full =>
          rw [hx] at h
          obtain ⟨i, hi, hci, hnz⟩ := h
          exact ⟨i + 1, by omega, by omega, hshift hnz⟩
        | free c' =>
          rw [hx] at h
          obtain ⟨i, hi, hc', hz, hnz, hle⟩ := h
          refine ⟨i + 1, by omega, by omega, ?_, hshift hnz, hle⟩
          rw [show s + (i + 1) = s + 1 + i by omega]
          exact hz
        | more c' =>
          rw [hx] at h
          exact ⟨by have := h.1; omega, hshift h.2⟩

/-- `fat32_fat_alloc` looks at entry `k`, as the entry of cluster `k + 3`. It leaves out the first
entry of a sector when that cluster is the last one. -/
def LooksAt (sb : Superblock) (k : Nat) : Prop :=
  k + 3 ≤ countofClusters sb + 1 ∧ (k % 128 = 0 → k + 3 < countofClusters sb + 1)

/-- What `fat32_fat_alloc` returns, and the disk after it. -/
def FatAllocEnds (sb : Superblock) (d : Nat → Sector) (r : Res (Nat × (Nat → Sector))) : Prop :=
  (∃ k, LooksAt sb k ∧ FirstZero sb d k ∧ r = .ok (k + 3, fatPut sb d (k + 3) eoc)) ∨
    (∀ k, LooksAt sb k → rawEntry sb d k ≠ 0) ∧ r = .ok (0, d)

/-- The loop from sector `q` of the FAT on. -/
theorem fatAllocLoop_run (hf : FatOk sb) : ∀ (fuel q : Nat), 0 < fuel →
    countofClusters sb + 2 ≤ fuel + 128 * q → (∀ j < 128 * q, rawEntry sb d j ≠ 0) →
    FatAllocEnds sb d ((fatAllocLoop sb fuel (sb.fatbase + q) (128 * q + 3)).run d) := by
  intro fuel
  induction fuel with
  | zero => exact fun _ h => absurd h (Nat.lt_irrefl 0)
  | succ fuel ih =>
    intro q _ hfuel hq
    have hmax := hf.fatClusterMax_eq
    rw [fatAllocLoop]
    split
    case isFalse hge =>
      refine .inr ⟨fun k hk => hq k ?_, rfl⟩
      obtain ⟨h1, h2⟩ := hk
      omega
    case isTrue hlt =>
      have hper : fatPerSector sb = 128 := by
        unfold fatPerSector
        rw [hf.sectorSize]
      have hspec := @fatScan_spec sb (d (sb.fatbase + q)) 128 0 (128 * q + 3) (by omega)
      have hsector : ∀ {i : Nat}, i ≤ 128 →
          (∀ j < i, getDword (d (sb.fatbase + q)) (4 * (0 + j)) ≠ 0) →
          ∀ j < 128 * q + i, rawEntry sb d j ≠ 0 := by
        intro i hi hnz j hj
        by_cases hjq : j < 128 * q
        · exact hq j hjq
        · have hnz' := hnz (j - 128 * q) (by omega)
          rw [Nat.zero_add, ← rawEntry_eq q (by omega),
            show 128 * q + (j - 128 * q) = j by omega] at hnz'
          exact hnz'
      rw [Prog.run_bind, readSector, Prog.run_get, Res.ok_bind, hper]
      cases hx : fatScan sb (d (sb.fatbase + q)) 128 0 (128 * q + 3) with
      | full =>
        rw [hx] at hspec
        obtain ⟨i, hi, hci, hnz⟩ := hspec
        refine .inr ⟨fun k hk => hsector (by omega) hnz k ?_, rfl⟩
        have h1 := hk.1
        omega
      | free c' =>
        rw [hx] at hspec
        obtain ⟨i, hi, hc', hz, hnz, hle⟩ := hspec
        refine .inl ⟨128 * q + i, ⟨by omega, by omega⟩, ⟨?_, hsector (by omega) hnz⟩, ?_⟩
        · rw [rawEntry_eq q hi]
          rwa [Nat.zero_add] at hz
        · rw [hc', show 128 * q + 3 + i = 128 * q + i + 3 by omega]
          rfl
      | more c' =>
        rw [hx] at hspec
        obtain ⟨hc', hnz⟩ := hspec
        have h1 := hf.fat
        have h2 := hf.sectors
        have hsec : u32 (sb.fatbase + q + 1) = sb.fatbase + (q + 1) := u32_of_lt (by omega)
        dsimp only
        rw [hc', hsec, show 128 * q + 3 + 128 = 128 * (q + 1) + 3 by omega]
        exact ih (q + 1) (by omega) (by omega) fun j hj => hsector (Nat.le_refl _) hnz j (by omega)

/-- **`fat32_fat_alloc`** returns, on every FAT. -/
theorem fatAlloc_run (hf : FatOk sb) (d : Nat → Sector) :
    FatAllocEnds sb d ((fat32FatAlloc sb).run d) :=
  fatAllocLoop_run hf _ 0 (Nat.succ_pos _) (by rw [hf.fatClusterMax_eq]) fun j hj => absurd hj (by omega)

theorem fatAlloc_ok (hf : FatOk sb) {c : Nat} (h : (fat32FatAlloc sb).run d = .ok (c, d'))
    (hc : c ≠ 0) :
    ∃ k, c = k + 3 ∧ FirstZero sb d k ∧ c ≤ countofClusters sb + 1 ∧ d' = fatPut sb d c eoc := by
  obtain ⟨k, hk, hz, hr⟩ | ⟨-, hr⟩ := fatAlloc_run hf d
  · rw [hr] at h
    cases h
    exact ⟨k, rfl, hz, hk.1, rfl⟩
  · rw [hr] at h
    cases h
    exact absurd rfl hc

/-- A data cluster from 3 on with a FREE entry. -/
def FreeCluster (sb : Superblock) (d : Nat → Sector) (c : Nat) : Prop :=
  3 ≤ c ∧ c ≤ countofClusters sb + 1 ∧ fatNext sb d c = 0

/-- Of the entries exactly that of `c` differs, and it is an end of a chain in `d'`. -/
def EndsAt (sb : Superblock) (d d' : Nat → Sector) (c : Nat) : Prop :=
  Iseof (fatNext sb d' c) ∧ ∀ e ≤ countofClusters sb + 1, e ≠ c → fatNext sb d' e = fatNext sb d e

/-- What one expects of an allocator that returns `c`: no cluster and no change when none is free, and
otherwise a free one that it marks. -/
def FatAllocSpec (sb : Superblock) (d : Nat → Sector) (c : Nat) (d' : Nat → Sector) : Prop :=
  ((∀ e, ¬ FreeCluster sb d e) ∧ c = 0 ∧ d' = d) ∨ FreeCluster sb d c ∧ EndsAt sb d d' c

theorem endsAt_fatPut (hf : FatOk sb) {c : Nat} (hc : c ≤ countofClusters sb + 1) :
    EndsAt sb d (fatPut sb d c eoc) c := by
  refine ⟨?_, fun e he hne => fatNext_fatPut_ne hf hc he hne eoc⟩
  rw [fatNext_fatPut]
  decide

/-- The entry of cluster `m` is the one that `fat32_cluster_alloc` marks: that of the hint when it
passes the test, and otherwise the one three behind the first that is zero. -/
def Marks (sb : Superblock) (d : Nat → Sector) (m : Nat) : Prop :=
  if Name0FreeAll (d (firstSectorofCluster sb sb.nxtFree) 0) ∧ sb.nxtFree < countofClusters sb then
    m = sb.nxtFree
  else ∃ k, m = k + 3 ∧ FirstZero sb d k

theorem Marks.unique {m m' : Nat} (h : Marks sb d m) (h' : Marks sb d m') : m = m' := by
  unfold Marks at h h'
  split at h
  case isTrue ht =>
    rw [if_pos ht] at h'
    rw [h, h']
  case isFalse ht =>
    rw [if_neg ht] at h'
    obtain ⟨k, rfl, hk⟩ := h
    obtain ⟨k', rfl, hk'⟩ := h'
    rw [hk.unique hk']

theorem takeCluster_ok (hv : VolumeOk sb) (hh : DataCluster sb sb.nxtFree) {dev : Dev}
    {sb' : Superblock} (h : (takeCluster sb dev).run d = .ok (sb', d')) :
    ∃ m, Marks sb d m ∧ DataCluster sb m ∧ sb' = sb.withFree sb.freeCount (m + 1) ∧
      d' = fatPut sb d m eoc := by
  have hclus := hv.clusters
  have hmax : subU32 (fatClusterMax sb) 1 = countofClusters sb := by
    rw [hv.fatOk.fatClusterMax_eq, subU32_of_le (by omega) (by omega)]
    omega
  have hnxt : ∀ {m}, DataCluster sb m → u32 (m + 1) = m + 1 := by
    intro m hm
    have h1 := hm.2
    exact u32_of_lt (by omega)
  obtain ⟨b, d₁, hread, hrest⟩ := Prog.run_bind_eq_ok.1 h
  cases hread
  rw [hmax] at hrest
  split at hrest
  case isTrue hhit =>
    obtain ⟨u, d₂, hset, hlast⟩ := Prog.run_bind_eq_ok.1 hrest
    cases hset
    cases hlast
    refine ⟨sb.nxtFree, ?_, hh, ?_, rfl⟩
    · unfold Marks
      rw [if_pos hhit]
    · rw [hnxt hh]
      rfl
  case isFalse hmiss =>
    obtain ⟨c, d₂, halloc, hlast⟩ := Prog.run_bind_eq_ok.1 hrest
    split at hlast
    · cases hlast
    · rename_i hc
      obtain ⟨k, rfl, hk, hle, rfl⟩ := fatAlloc_ok hv.fatOk halloc hc
      have hm : DataCluster sb (k + 3) := ⟨by omega, hle⟩
      cases hlast
      refine ⟨k + 3, ?_, hm, ?_, rfl⟩
      · unfold Marks
        rw [if_neg hmiss]
        exact ⟨k, rfl, hk⟩
      · rw [hnxt hm]
        rfl

/-- The disk after `fat32_cluster_alloc` marked the entry of `m`, for the hint `h`. -/
def allocated (sb : Superblock) (d : Nat → Sector) (m h : Nat) : Nat → Sector :=
  let d₁ := fatPut sb d m eoc
  let d₂ := Function.update d₁ sectorFsinfo (setFsinfo sb (d₁ sectorFsinfo))
  zeroAt sb (Function.update d₂ sectorFsinfoBackup (setFsinfo sb (d₂ sectorFsinfoBackup))) h

/-- **`fat32_cluster_alloc`**, whichever entry it marks. -/
theorem clusterAlloc_ok (hv : VolumeOk sb) (hh : DataCluster sb sb.nxtFree) {dev : Dev}
    {r : Nat × Superblock} (h : (fat32ClusterAlloc sb dev).run d = .ok (r, d')) :
    ∃ m, Marks sb d m ∧ DataCluster sb m ∧ sb.freeCount ≠ 0 ∧
      r = (sb.nxtFree, sb.withFree (sb.freeCount - 1) (m + 1)) ∧
      d' = allocated (sb.withFree (sb.freeCount - 1) (m + 1)) d m sb.nxtFree := by
  unfold fat32ClusterAlloc at h
  split at h
  · cases h
  · rename_i hfc
    have hv' := hv.withFree (sb.freeCount - 1) sb.nxtFree
    obtain ⟨sb₁, d₁, htake, h₁⟩ := Prog.run_bind_eq_ok.1 h
    obtain ⟨m, hm, hmd, rfl, rfl⟩ := takeCluster_ok hv' hh htake
    have hz := run_zeroCluster (hv.withFree (sb.freeCount - 1) (m + 1)) hh
    refine ⟨m, hm, hmd, hfc, ?_⟩
    simp only [withFree_withFree, withFree_freeCount, fatPut_withFree, Prog.run_bind, Res.ok_bind,
      updateSector, Prog.run_alter, hz, Prog.run_pure, Except.ok.injEq, Prod.mk.injEq] at h₁
    obtain ⟨rfl, rfl⟩ := h₁
    refine ⟨rfl, ?_⟩
    unfold allocated
    rw [fatPut_withFree]

section
variable {m h : Nat}

theorem allocated_change (hv : VolumeOk sb) (hm : DataCluster sb m) (hh : DataCluster sb h) :
    Change sb d (allocated sb d m h) [m] [h] := by
  unfold allocated
  exact (Change.fatPut hv hm.2 eoc).trans ((Change.fsinfo hv (by decide) _).trans
    ((Change.fsinfo hv (by decide) _).trans (Change.zeroCluster hv hh _)))

theorem allocated_self (hv : VolumeOk sb) (hm : DataCluster sb m) (hh : DataCluster sb h) :
    fatNext sb (allocated sb d m h) m = fatValidMask := by
  unfold allocated
  dsimp only
  rw [(Change.zeroCluster hv hh _).fat m hm.2 List.not_mem_nil,
    (Change.fsinfo hv (by decide) _).fat m hm.2 List.not_mem_nil,
    (Change.fsinfo hv (by decide) _).fat m hm.2 List.not_mem_nil, fatNext_fatPut]
  rfl

end

/-- Only the entry that is marked changes, and the hint's cluster becomes zero. -/
theorem clusterAlloc_change (hv : VolumeOk sb) (hh : DataCluster sb sb.nxtFree) {dev : Dev}
    {r : Nat × Superblock} (h : (fat32ClusterAlloc sb dev).run d = .ok (r, d')) :
    ∃ m, Marks sb d m ∧ DataCluster sb m ∧
      r = (sb.nxtFree, sb.withFree (sb.freeCount - 1) (m + 1)) ∧
      Change sb d d' [m] [sb.nxtFree] ∧ fatNext sb d' m = fatValidMask := by
  obtain ⟨m, hm, hmd, -, rfl, rfl⟩ := clusterAlloc_ok hv hh h
  have hv' := hv.withFree (sb.freeCount - 1) (m + 1)
  have hch := @allocated_change _ d m sb.nxtFree hv' hmd hh
  have hself := @allocated_self _ d m sb.nxtFree hv' hmd hh
  rw [fatNext_withFree] at hself
  exact ⟨m, hm, hmd, rfl, hch.of_withFree, hself⟩

/-- What one expects of `fat32_cluster_alloc` when it returns cluster `c`. -/
structure ClusterAllocSpec (sb : Superblock) (d : Nat → Sector) (c : Nat) (d' : Nat → Sector) :
    Prop where
  data : DataCluster sb c
  free : fatNext sb d c = 0
  ends : EndsAt sb d d' c
  zero : ∀ b, InCluster sb c b → d' b = fun _ => 0
  other : ∀ e b, DataCluster sb e → e ≠ c → InCluster sb e b → d' b = d b

/-- The condition for it: the hint is free and is the cluster that is marked. -/
def HintFree (sb : Superblock) (d : Nat → Sector) : Prop :=
  fatNext sb d sb.nxtFree = 0 ∧ Marks sb d sb.nxtFree

/-- A call of `fat32_cluster_alloc` that returns does what one expects exactly if the hint is free and
is also the cluster whose entry the call marks. -/
theorem cluster_alloc_exact (hv : VolumeOk sb) (hh : DataCluster sb sb.nxtFree) {dev : Dev}
    {r : Nat × Superblock} (h : (fat32ClusterAlloc sb dev).run d = .ok (r, d')) :
    ClusterAllocSpec sb d r.1 d' ↔ HintFree sb d := by
  obtain ⟨m, hm, -, rfl, hch, hself⟩ := clusterAlloc_change hv hh h
  refine ⟨fun hs => ⟨hs.free, ?_⟩, fun hc => ?_⟩
  · -- only the entry of `m` is new, and that of the hint is
    by_cases hne : sb.nxtFree = m
    · rw [hne]
      exact hne ▸ hm
    · have h1 := hs.ends.1
      rw [hch.fat _ hh.2 (by simpa using hne), hs.free] at h1
      exact absurd h1 (by decide)
  · obtain rfl : m = sb.nxtFree := hm.unique hc.2
    refine ⟨hh, hc.1, ⟨?_, fun e he hne => hch.fat e he (by simpa using hne)⟩, fun b hb => ?_,
      fun e b he hne hb => ?_⟩
    · rw [hself]
      decide
    · exact hch.zero b (hv.inCluster_data hh hb).1 ⟨_, List.mem_singleton_self _, hb⟩
    · refine hch.data b (hv.inCluster_data he hb).1 fun e' he' hb' => hne ?_
      rw [List.mem_singleton] at he'
      rw [he'] at hb'
      exact hv.inCluster_unique he hh hb hb'

/-- Cluster 5 is the hint, free, and its data is zero. -/
theorem cluster_alloc_exact_five : ∃ r d',
    (fat32ClusterAlloc blankSb blankSb.sDev).run (fatDisk [(2, eoc), (3, eoc), (4, eoc)]) = .ok (r, d') ∧
      r.1 = 5 ∧ ClusterAllocSpec blankSb (fatDisk [(2, eoc), (3, eoc), (4, eoc)]) r.1 d' := by
  have hr : ((fat32ClusterAlloc blankSb blankSb.sDev).run
      (fatDisk [(2, eoc), (3, eoc), (4, eoc)])).toOption.any (fun r => decide (r.1.1 = 5)) = true := by
    decide +kernel
  obtain ⟨⟨r, d'⟩, hr, hx⟩ := Res.exists_ok_of_any hr
  refine ⟨r, d', hr, of_decide_eq_true hx, (cluster_alloc_exact blankSb_volumeOk ⟨by decide, by decide⟩
    hr).2 ⟨by decide +kernel, ?_⟩⟩
  unfold Marks
  rw [if_pos ⟨by decide +kernel, by decide⟩]

/-- The hint is cluster 5. When it is in use and its data starts with a 0 byte, the call returns it.
When it is free and its data starts with a 1, the call returns it and marks cluster 8 instead. -/
theorem cluster_alloc_takes_used : ∃ (d₁ d₂ d₁' d₂' : Nat → Sector) (sb₁ sb₂ : Superblock),
    (fatNext blankSb d₁ 5 ≠ 0 ∧ FreeCluster blankSb d₁ 6 ∧
      (fat32ClusterAlloc blankSb blankSb.sDev).run d₁ = .ok ((5, sb₁), d₁') ∧
      ¬ ClusterAllocSpec blankSb d₁ 5 d₁') ∧
    (FreeCluster blankSb d₂ 5 ∧
      (fat32ClusterAlloc blankSb blankSb.sDev).run d₂ = .ok ((5, sb₂), d₂') ∧
      ¬ ClusterAllocSpec blankSb d₂ 5 d₂') := by
  let fat := [(0, eoc), (1, eoc), (2, eoc), (3, eoc), (4, eoc)]
  let d₁ := fatDisk (fat ++ [(5, eoc)])
  -- the first byte of cluster 5 is 1
  let d₂ := Function.update (fatDisk fat) 12 fun _ => 1
  have h1 : ((fat32ClusterAlloc blankSb blankSb.sDev).run d₁).toOption.any
      (fun r => decide (r.1.1 = 5)) = true := by decide +kernel
  have h2 : ((fat32ClusterAlloc blankSb blankSb.sDev).run d₂).toOption.any
      (fun r => decide (r.1.1 = 5 ∧ fatNext blankSb r.2 5 = 0)) = true := by decide +kernel
  obtain ⟨⟨⟨c₁, sb₁⟩, d₁'⟩, hr₁, hx₁⟩ := Res.exists_ok_of_any h1
  obtain ⟨⟨⟨c₂, sb₂⟩, d₂'⟩, hr₂, hx₂⟩ := Res.exists_ok_of_any h2
  obtain rfl : c₁ = 5 := of_decide_eq_true hx₁
  obtain ⟨rfl, hfree⟩ : c₂ = 5 ∧ fatNext blankSb d₂' 5 = 0 := of_decide_eq_true hx₂
  have hused : fatNext blankSb d₁ 5 ≠ 0 := by decide +kernel
  refine ⟨d₁, d₂, d₁', d₂', sb₁, sb₂, ⟨hused, ⟨by decide, by decide, by decide +kernel⟩,
    hr₁, fun hs => hused hs.free⟩, ⟨by decide, by decide, by decide +kernel⟩,
    hr₂, fun hs => ?_⟩
  have hend := hs.ends.1
  rw [hfree] at hend
  exact absurd hend (by decide)

end Fs
