import OS404.Fs.Proof.Remount

/-!
# The chains when the machine stops

`crash_chains`: when the machine stops anywhere in a call that finds its hints free, the chain of every
file on the disk is its chain from before the call, or that with some of the hints behind it; no
two files share a cluster, and the data of the files is as before.

`fat32_cluster_alloc` marks and zeroes a cluster before `fat32_inode_write` links it to the chain. Until
then the disk differs from that before the allocation in clusters of nobody: `Torn` says which sectors
may differ, and `Crash` that some of the hints were appended and the rest may be torn.
-/

namespace Fs

open Lib (Prog Run Linked)
open Driver (Sector BufferCache)
open Str

variable {sb : Superblock} {d d₁ d₂ d' : Nat → Sector} {ip : Inode} {L M S : List Nat}
  {e p h k x : Nat}

/-! ## Torn clusters -/

/-- The disks differ at most in the entries and the sectors of the clusters `S`, in entries of no data
cluster, in the reserved sectors and in the sector `e`. -/
structure Torn (sb : Superblock) (e : Nat) (d d' : Nat → Sector) (S : List Nat) : Prop where
  fat : ∀ c, DataCluster sb c → c ∉ S → fatNext sb d' c = fatNext sb d c
  data : ∀ b, firstDataSector sb ≤ b → b ≠ e → (∀ c ∈ S, ¬ InCluster sb c b) → d' b = d b

namespace Torn

theorem refl (sb : Superblock) (e : Nat) (d : Nat → Sector) (S : List Nat) : Torn sb e d d S :=
  ⟨fun _ _ _ => rfl, fun _ _ _ _ => rfl⟩

theorem trans (h₁ : Torn sb e d d₁ S) (h₂ : Torn sb e d₁ d₂ S) : Torn sb e d d₂ S where
  fat c hc hS := (h₂.fat c hc hS).trans (h₁.fat c hc hS)
  data b hb he hS := (h₂.data b hb he hS).trans (h₁.data b hb he hS)

theorem mono {S' : List Nat} (ht : Torn sb e d d' S) (hS : ∀ c ∈ S, c ∈ S') : Torn sb e d d' S' where
  fat c hc hcS := ht.fat c hc fun hm => hcS (hS c hm)
  data b hb he hbS := ht.data b hb he fun c hm => hbS c (hS c hm)

/-- What a change of the FAT and of clusters that become zero may tear. -/
theorem of_change {Z : List Nat} (hc : Change sb d d' S Z) (hZ : ∀ c ∈ Z, c ∈ S) :
    Torn sb e d d' S where
  fat c hd hS := hc.fat c hd.2 hS
  data b hb _ hbS := hc.data b hb fun c hm => hbS c (hZ c hm)

/-- A sector outside the FAT. -/
theorem update {b : Nat} (hf : ∀ c, DataCluster sb c → thisFATEntSecNum sb c ≠ b)
    (hb : firstDataSector sb ≤ b → b ≠ e → ∃ c ∈ S, InCluster sb c b) (v : Sector) :
    Torn sb e d (Function.update d b v) S where
  fat c hc _ := by
    unfold fatNext
    rw [Function.update_of_ne (hf c hc)]
  data b' hb' he hbS := by
    by_cases hbb : b' = b
    · subst hbb
      obtain ⟨c, hc, hin⟩ := hb hb' he
      exact absurd hin (hbS c hc)
    · exact Function.update_of_ne hbb ..

variable (hv : VolumeOk sb)
include hv

/-- A reserved sector. -/
theorem reserved {b : Nat} (hb : b ≤ 7) (v : Sector) : Torn sb e d (Function.update d b v) S := by
  refine update (fun c hc => ?_) (fun hb' => ?_) v
  · have := hv.fsinfo_lt_entSec hc.2
    omega
  · have := hv.fsinfo_lt_data
    omega

/-- A sector of the data region: the sector `e`, or one of a torn cluster. -/
theorem dataSector {b : Nat} (hb : firstDataSector sb ≤ b) (hS : b ≠ e → ∃ c ∈ S, InCluster sb c b)
    (v : Sector) : Torn sb e d (Function.update d b v) S := by
  refine update (fun c hc => ?_) (fun _ => hS) v
  have := hv.entSec_lt hc.2
  omega

/-- An entry. -/
theorem fatPut {v : Nat} (hx : x ≤ countofClusters sb + 1)
    (hS : ∀ c, DataCluster sb c → c ∉ S → c ≠ x) : Torn sb e d (fatPut sb d x v) S where
  fat c hc hcS := fatNext_fatPut_ne hv.fatOk hx hc.2 (hS c hc hcS) v
  data b hb _ _ := by
    have := hv.entSec_lt hx
    exact Function.update_of_ne (by omega) ..

end Torn

/-! ## `fat32_cluster_alloc` on a hint -/

section
variable {C : (Nat → Sector) → Prop} (hv : VolumeOk sb) (hC : ∀ d', Torn sb e d d' S → C d')
include hv hC

/-- A reserved sector is written. -/
theorem reserved_torn {b : Nat} (hb : b ≤ 7) (g : Sector → Sector) (ht : Torn sb e d d₁ S) :
    (Prog.alter b g : FsProg Unit).Safe C (fun _ d' => Torn sb e d d' S) d₁ :=
  have ht' := ht.trans (.reserved hv hb (g (d₁ b)))
  .alter (hC _ ht) (hC _ ht') ht'

variable (hS : h ∈ S)
include hS

theorem zeroSectors_torn {f n : Nat} (hd : DataCluster sb h) : ∀ {k s : Nat} {d₁ : Nat → Sector},
    Torn sb e d d₁ S → s + k ≤ sb.sectorsPerBlock →
    (zeroSectors (sb.withFree f n) (firstSectorofCluster sb h) k s).Safe C
      (fun _ d' => Torn sb e d d' S) d₁
  | 0, _, _, ht, _ => .pure (hC _ ht) ht
  | k + 1, s, d₁, ht, hs => by
    have hin : InCluster sb h (u32 (firstSectorofCluster sb h + s)) := by
      rw [hv.sector_eq hd (by omega)]
      exact ⟨by omega, by omega⟩
    have ht' : Torn sb e d (Function.update d₁ (u32 (firstSectorofCluster sb h + s)) fun _ => 0) S :=
      ht.trans (.dataSector hv (hv.inCluster_data hd hin).1 (fun _ => ⟨h, hS, hin⟩) _)
    refine .bind (Q := fun _ d' => Torn sb e d d' S) (.alter (hC _ ht) (hC _ ht') ht') fun _ d₂ h₂ => ?_
    exact zeroSectors_torn hd h₂ (by omega)

theorem clusterAlloc_torn (hh : Hint sb d h) {dev : Dev} :
    (fat32ClusterAlloc (sb.withFree x h) dev).Safe C (fun _ d' => Torn sb e d d' S) d := by
  have h0 := hC d (.refl ..)
  have hmax : subU32 (fatClusterMax sb) 1 = countofClusters sb := by
    have hc := hv.clusters
    rw [hv.fatOk.fatClusterMax_eq, subU32_of_le (by omega) (by omega)]
    omega
  unfold fat32ClusterAlloc
  split
  · exact h0
  have htake : (takeCluster (sb.withFree (x - 1) h) dev).Safe C
      (fun r d' => r = sb.withFree (x - 1) (u32 (h + 1)) ∧ Torn sb e d d' S) d := by
    unfold takeCluster
    refine .bind (Q := fun v d' => v = d (firstSectorofCluster sb h) ∧ d' = d) (.get h0 ⟨rfl, rfl⟩)
      fun v d' hvd => ?_
    obtain ⟨rfl, hd⟩ := hvd
    subst d'
    have hmark : Torn sb e d (Fs.fatPut sb d h eoc) S :=
      .fatPut hv hh.data.2 fun c _ hc hch => hc (hch ▸ hS)
    rw [if_pos ⟨hh.first, by exact hmax ▸ hh.lt⟩]
    refine .bind (Q := fun _ d' => Torn sb e d d' S) (.alter h0 (hC _ hmark) hmark) fun _ d₁ h₁ => ?_
    exact .pure (hC _ h₁) ⟨rfl, h₁⟩
  refine .bind htake fun sb' d₁ h₁ => ?_
  obtain ⟨rfl, h₁⟩ := h₁
  refine .bind (reserved_torn hv hC (by decide) _ h₁) fun _ d₂ h₂ => ?_
  refine .bind (reserved_torn hv hC (by decide) _ h₂) fun _ d₃ h₃ => ?_
  refine .bind (zeroSectors_torn hv hC hS hh.data h₃ (by simp)) fun _ d₄ h₄ => ?_
  exact .pure (hC _ h₄) h₄

/-- The new cluster is linked by the last write. -/
theorem appendCluster_torn (hh : Hint sb d h) {iter : Nat}
    (hend : ∀ r d', (appendCluster (sb.withFree x h) ip iter).run d = .ok (r, d') → C d') :
    (appendCluster (sb.withFree x h) ip iter).Safe C
      (fun r d' => (appendCluster (sb.withFree x h) ip iter).run d = .ok (r, d')) d := by
  refine .mono (fun _ hc => hc) (fun _ _ h => h.2) (Prog.Safe.with_run (Q := fun _ _ => True) ?_)
  refine .bind (clusterAlloc_torn hv hC hS hh).with_run fun r d₁ h₁ => ?_
  obtain ⟨c, sb'⟩ := r
  obtain ⟨h₁, hrun⟩ := h₁
  have hC' := hend _ _ (Prog.run_bind_eq_ok.2 ⟨_, _, hrun, rfl⟩)
  refine .bind (Q := fun _ d' => C d') (.alter (hC _ h₁) hC' hC') fun _ d₂ h₂ => ?_
  exact .pure h₂ trivial

end

/-! ## The loop over the clusters -/

/-- Some of the `k` hints from `h` on were appended to the chain `M`, and the rest may be torn. -/
def Crash (sb : Superblock) (e : Nat) (d : Nat → Sector) (p : Nat) (M : List Nat) (h k : Nat)
    (d' : Nat → Sector) : Prop :=
  ∃ j d₁, j ≤ k ∧ Appended sb d d₁ p M h j ∧ Torn sb e d₁ d' (List.range' (h + j) (k - j))

theorem Crash.of_appended {j : Nat} (hj : j ≤ k) (ha : Appended sb d d' p M h j) :
    Crash sb e d p M h k d' :=
  ⟨j, d', hj, ha, .refl ..⟩

theorem Crash.of_torn (hm : FatChain sb d p M) (ht : Torn sb e d d' (List.range' h k)) :
    Crash sb e d p M h k d' :=
  ⟨0, d, Nat.zero_le k, .refl hm h, ht⟩

/-- Some clusters that were appended before the others. -/
theorem Crash.trans {j : Nat} (ha : Appended sb d d₁ p M h j)
    (hc : Crash sb e d₁ p (M ++ List.range' h j) (h + j) k d') : Crash sb e d p M h (j + k) d' := by
  obtain ⟨i, d₂, hi, ha₂, ht⟩ := hc
  refine ⟨j + i, d₂, by omega, ha.trans ha₂, ?_⟩
  rwa [← Nat.add_assoc, Nat.add_sub_add_left]

theorem Crash.mono {k' : Nat} (hc : Crash sb e d p M h k d') (hk : k ≤ k') :
    Crash sb e d p M h k' d' := by
  obtain ⟨j, d₁, hj, ha, ht⟩ := hc
  refine ⟨j, d₁, by omega, ha, ht.mono fun c hm => ?_⟩
  rw [List.mem_range'_1] at hm ⊢
  omega

/-- Where the loop over the clusters ends. -/
def Appends (sb : Superblock) (d : Nat → Sector) (p : Nat) (M : List Nat) (h k : Nat)
    (ino : Nat) (r : Nat × Superblock × Inode) (d' : Nat → Sector) : Prop :=
  (∃ j, j ≤ k ∧ Appended sb d d' p M h j) ∧ (∃ f n, r.2.1 = sb.withFree f n) ∧ r.2.2.iIno = ino

theorem Appends.trans {r : Nat × Superblock × Inode} {ino j : Nat} (ha : Appended sb d d₁ p M h j)
    (hr : Appends sb d₁ p (M ++ List.range' h j) (h + j) k ino r d') :
    Appends sb d p M h (j + k) ino r d' := by
  obtain ⟨⟨i, hi, ha₂⟩, hr⟩ := hr
  exact ⟨⟨j + i, by omega, ha.trans ha₂⟩, hr⟩

/-- A new cluster behind the last one. -/
theorem appendCluster_crash (hv : VolumeOk sb) {iter i : Nat} (hm : FatChain sb d p M)
    (hi : M[i]? = some iter) (hl : i + 1 = M.length) (hk : HintsOk sb d h (1 + k) M) :
    (appendCluster (sb.withFree x h) ip iter).Safe (Crash sb e d p M h (1 + k))
      (fun r d' => (appendCluster (sb.withFree x h) ip iter).run d = .ok (r, d')) d := by
  refine appendCluster_torn hv (fun d' => .of_torn hm) ?_ (hk 0 (by omega)).1 fun r d' hr => ?_
  · rw [List.mem_range'_1]
    omega
  · rw [Nat.add_comm] at hk
    obtain ⟨-, ha, -⟩ := appendCluster_hits hv hm hi hl hk hr
    exact .of_appended (by omega) ha

/-- **The loop over the clusters**, from position `off + tot` in the `i`-th cluster on. -/
theorem writeClusters_crash (hv : VolumeOk sb) {n off p e ino : Nat} :
    ∀ {fuel iter sN sO tot x h i k : Nat} {src : List (BitVec 8)} {ip : Inode} {M : List Nat}
    {d : Nat → Sector}, ip.iIno = ino → FatChain sb d p M → M[i]? = some iter →
    i = min ((off + tot) / bytesPerCluster sb) (M.length - 1) → tot ≤ n →
    sN = (off + tot) % bytesPerCluster sb / 512 → sO = (off + tot) % bytesPerCluster sb % 512 →
    clustersFor sb (off + n) - M.length ≤ k → HintsOk sb d h k M →
    (writeClusters n fuel iter sN sO tot src (sb.withFree x h) ip).Safe (Crash sb e d p M h k)
      (Appends sb d p M h k ino) d
  | 0, _, _, _, _, _, h, _, k, _, _, _, _, _, hm, _, _, _, _, _, _, _ =>
    Crash.of_appended (Nat.zero_le k) (.refl hm h)
  | fuel + 1, iter, sN, sO, tot, x, h, i, k, src, ip, M, d, hino, hm, hi, hmin, ht, hsN, hsO, hcf,
      hk => by
    have h0 : Crash sb e d p M h k d := .of_appended (Nat.zero_le k) (.refl hm h)
    have hdone : ∀ t, Appends sb d p M h k ino (t, sb.withFree x h, ip) d := fun _ =>
      ⟨⟨0, Nat.zero_le k, .refl hm h⟩, ⟨x, h, rfl⟩, hino⟩
    have hic := hm.data iter (List.mem_of_getElem? hi)
    have hil : i < M.length := (List.getElem?_eq_some_iff.1 hi).1
    by_cases htn : tot < n
    · have hsec := hv.sectors.sector_lt (off + tot)
      have hrest := hv.sectors.clusterRest_eq (off + tot)
      rw [← hsN, ← hsO] at hrest
      obtain ⟨src', hw, -⟩ := @writeSectors_run ip (firstSectorofCluster sb iter) n
        (sb.sectorsPerBlock - sN) sN sO tot src d ht (hsO ▸ Nat.mod_lt _ (by decide))
      rw [if_pos ⟨by omega, htn⟩, hrest] at hw
      rw [writeClusters_succ (hic.not_iseof hv) htn, firstSectorofCluster_withFree,
        withFree_sectorsPerBlock]
      refine .bind (writeSectors_safe h0 ..).with_run fun w d' hwd => ?_
      obtain ⟨hd', hrun⟩ := hwd
      subst d'
      rw [hw] at hrun
      cases hrun
      dsimp only
      by_cases hend : n ≤ tot + (bytesPerCluster sb - (off + tot) % bytesPerCluster sb)
      · -- the last cluster of the request
        rw [Nat.min_eq_left hend, if_pos rfl]
        exact .pure h0 (hdone n)
      · -- the rest of the cluster, and on
        rw [Nat.min_eq_right (Nat.le_of_not_le hend), if_neg (by omega)]
        have hpos := hv.sectors.nextCluster_pos (off + tot)
        obtain ⟨hq₁, hm₁⟩ := hv.sectors.nextCluster_start off tot
        have hmore : (off + tot) / bytesPerCluster sb + 1 < clustersFor sb (off + n) :=
          (lt_clustersFor hv).2 (by omega)
        refine .bind (.with_run (.readsOnly (readsOnly_nextCluster _) h0)) fun next d' hnx => ?_
        obtain ⟨hd', hnx⟩ := hnx
        subst d'
        obtain ⟨-, rfl, -⟩ := nextCluster_eq_ok.1 hnx
        rw [fatNext_withFree]
        generalize tot + (bytesPerCluster sb - (off + tot) % bytesPerCluster sb) = tot₁ at *
        have hsN' : 0 = (off + tot₁) % bytesPerCluster sb / 512 := by rw [hm₁]
        have hsO' : 0 = (off + tot₁) % bytesPerCluster sb % 512 := by rw [hm₁]
        by_cases hlast : i + 1 = M.length
        · rw [if_pos (hm.linked.stop_next hi hlast)]
          obtain ⟨k, rfl⟩ : ∃ k₀, k = 1 + k₀ := ⟨k - 1, by omega⟩
          refine .bind (appendCluster_crash hv hm hi hlast hk) fun a d₁ hap => ?_
          rw [Nat.add_comm] at hk
          obtain ⟨rfl, happ, hk'⟩ := appendCluster_hits hv hm hi hlast hk hap
          have hm' : FatChain sb d₁ p (M ++ [h]) := happ.chain
          have hlen : (M ++ [h]).length = M.length + 1 := List.length_append
          have hmin' : M.length =
              min ((off + tot₁) / bytesPerCluster sb) ((M ++ [h]).length - 1) := by omega
          have hnew : (M ++ [h])[M.length]? = some h := by simp
          have hcf' : clustersFor sb (off + n) - (M ++ [h]).length ≤ k := by omega
          refine .mono (fun _ hc => Crash.trans happ hc) (fun _ _ hr => Appends.trans happ hr) ?_
          exact writeClusters_crash hv hino hm' hnew hmin' (Nat.le_of_not_le hend) hsN' hsO' hcf' hk'
        · obtain ⟨nx, hnx⟩ : ∃ nx, M[i + 1]? = some nx := ⟨_, List.getElem?_eq_getElem (by omega)⟩
          have hnd := hm.data nx (List.mem_of_getElem? hnx)
          have hmin' : i + 1 = min ((off + tot₁) / bytesPerCluster sb) (M.length - 1) := by omega
          rw [hm.linked.next_eq hi hnx, if_neg (hnd.not_iseof hv)]
          exact writeClusters_crash hv hino hm hnx hmin' (Nat.le_of_not_le hend) hsN' hsO' hcf hk
    · rw [writeClusters, if_neg fun hh => htn hh.2]
      exact .pure h0 (hdone tot)

/-! ## `fat32_inode_write` -/

theorem inodeUpdate_torn (ip : Inode) {C : (Nat → Sector) → Prop} {f n : Nat} (hv : VolumeOk sb)
    (hd : DirentOk sb ip.iIno) (hC : ∀ d', Torn sb (fatinumToSector sb ip.iIno) d d' S → C d') :
    (fat32InodeUpdate (sb.withFree f n) ip).Safe C (fun _ d' => C d') d := by
  have h0 := hC d (.refl ..)
  unfold fat32InodeUpdate
  split
  · exact .bind (.get h0 h0) fun _ _ h' => .pure h' h'
  next hino =>
    have h1 : C (Function.update d (fatinumToSector sb ip.iIno)
        (setDirent sb ip (d (fatinumToSector sb ip.iIno)))) :=
      hC _ (.dataSector hv (hd hino) (fun hne => absurd rfl hne) _)
    exact .alter h0 h1 h1

section
variable {off n : Nat} {src : List (BitVec 8)}

/-- The loop over the clusters, and the directory entry. -/
theorem writeRest_crash (hv : VolumeOk sb) {iter i : Nat} (hm : FatChain sb d p M)
    (hi : M[i]? = some iter) (hmin : i = min (off / bytesPerCluster sb) (M.length - 1))
    (hk : HintsOk sb d h (clustersFor sb (off + n) - M.length) M) (hd : DirentOk sb ip.iIno) :
    (do
      let (tot, sb, ip) ← writeClusters n (n + 1) iter (logisticSNum sb off) (logisticSOffset sb off) 0
        src (sb.withFree x h) ip
      let ip := { ip with iSize := sizeAfter sb ip off n tot }
      fat32InodeUpdate sb ip
      return (tot, sb, ip) : FsProg (Nat × Superblock × Inode)).Safe
      (Crash sb (fatinumToSector sb ip.iIno) d p M h (clustersFor sb (off + n) - M.length))
      (fun _ _ => True) d := by
  refine .bind (writeClusters_crash hv rfl hm hi hmin (Nat.zero_le n) (hv.sectors.logisticSNum_eq off)
    (hv.sectors.logisticSOffset_eq off) (Nat.le_refl _) hk) fun w d' hw => ?_
  obtain ⟨tot, sb', ip'⟩ := w
  obtain ⟨⟨j, hj, ha⟩, ⟨f, n', rfl⟩, hino⟩ := hw
  have hino : ip'.iIno = ip.iIno := hino
  rw [← hino] at hd ⊢
  refine .bind (inodeUpdate_torn { ip' with iSize := _ } hv hd fun d'' ht => ⟨j, d', hj, ha, ht⟩)
    fun _ d'' hc => ?_
  exact .pure hc trivial

/-- **A write to a file with a chain.** -/
theorem inodeWrite_crash (hv : VolumeOk sb) (hL : L ≠ []) (hc : FatChain sb d ip.clusterStart L)
    (hcnt : ip.clusterCnt = L.length) (hoff : off < 2 ^ 32)
    (hk : HintsOk sb d sb.nxtFree (writeNeeds sb ip off n) L) (hd : DirentOk sb ip.iIno)
    (ha : writeAccepts sb ip off n = true) :
    (fat32InodeWrite sb ip src off n).Safe
      (Crash sb (fatinumToSector sb ip.iIno) d ip.clusterStart L sb.nxtFree (writeNeeds sb ip off n))
      (fun _ _ => True) d := by
  have h0 : ∀ e, Crash sb e d ip.clusterStart L sb.nxtFree (writeNeeds sb ip off n) d := fun _ =>
    .of_appended (Nat.zero_le _) (.refl hc _)
  have hlen : 0 < L.length := List.length_pos_of_ne_nil hL
  obtain ⟨iter, hi, htr⟩ := travel_run (Nat.succ_pos (off / bytesPerCluster sb)) hL hc.linked
    (Nat.min_le_left ..)
  have hmax : max (off / bytesPerCluster sb + 1) (clustersFor sb (off + n)) - ip.clusterCnt =
    writeNeeds sb ip off n := rfl
  unfold fat32InodeWrite
  rw [if_pos ha, hv.sectors.cNumOff_eq hoff]
  refine .bind (.with_run (.readsOnly (readsOnly_travel ..) (h0 _))) fun t d' ht => ?_
  obtain ⟨hd', ht⟩ := ht
  subst d'
  rw [htr] at ht
  split at ht
  next hacc =>
    cases ht
    dsimp only
    have hfirst : (if ip.clusterCnt < off / bytesPerCluster sb + 1 then appendCluster sb ip iter
        else pure (iter, sb, ip) : FsProg (Nat × Superblock × Inode)).Safe
        (Crash sb (fatinumToSector sb ip.iIno) d ip.clusterStart L sb.nxtFree (writeNeeds sb ip off n))
        (fun _ _ => True) d := by
      split
      next hlt =>
        have hlast : min (off / bytesPerCluster sb) (L.length - 1) + 1 = L.length := by omega
        obtain ⟨k, hk'⟩ : ∃ k, writeNeeds sb ip off n = 1 + k := ⟨writeNeeds sb ip off n - 1, by omega⟩
        rw [hk'] at hk ⊢
        exact .mono (fun _ hc => hc) (fun _ _ _ => trivial)
          (appendCluster_crash (x := sb.freeCount) hv hc hi hlast hk)
      next => exact .pure (h0 _) trivial
    refine .bind hfirst.with_run fun a d₁ har => ?_
    obtain ⟨j, e, iter', hap, rfl, hi', hk', hj, -⟩ := firstCluster_spec hv hc hcnt hi hk har.2
    have hml : (L ++ List.range' sb.nxtFree j).length = L.length + j := by simp
    rw [← hml] at hi' hk'
    refine .mono (fun d' hcr => ?_) (fun _ _ _ => trivial)
      (writeRest_crash hv hap.chain hi' rfl hk' hd)
    refine (Crash.trans hap hcr).mono ?_
    rw [← hmax, hcnt, hml]
    exact needs_le hj (Nat.le_refl _)
  next => cases ht

/-! ### Files whose first cluster is 0 -/

/-- What a crash leaves alone. -/
theorem Crash.torn (hc : Crash sb e d p M h k d') :
    Torn sb e d d' (M.getLast?.toList ++ List.range' h k) := by
  obtain ⟨j, d₁, hj, ha, ht⟩ := hc
  have h1 : Torn sb e d d₁ (M.getLast?.toList ++ List.range' h j) :=
    .of_change ha.change fun c hm => List.mem_append_right _ hm
  refine (h1.mono fun c hm => ?_).trans (ht.mono fun c hm => ?_)
  · rw [List.mem_append, List.mem_range'_1] at hm ⊢
    exact hm.imp_right fun hm => by omega
  · rw [List.mem_append, List.mem_range'_1]
    rw [List.mem_range'_1] at hm
    exact .inr (by omega)

/-- The loop over the clusters does not get past cluster 0. -/
theorem writeClusters_zero_safe {C : (Nat → Sector) → Prop} (hc : C d) :
    ∀ {fuel sN sO tot : Nat},
    (writeClusters n fuel 0 sN sO tot src sb ip).Safe C (fun r d' => r.2 = (sb, ip) ∧ d' = d) d
  | 0, _, _, _ => hc
  | fuel + 1, sN, sO, tot => by
    unfold writeClusters
    split
    · refine .bind (writeSectors_safe hc ..) fun w d' hd => ?_
      subst d'
      dsimp only
      split
      · exact .pure hc ⟨rfl, rfl⟩
      · unfold fat32NextCluster
        rw [if_neg (by omega)]
        exact hc
    · exact .pure hc ⟨rfl, rfl⟩

/-- **A write to a file whose first cluster is 0.** -/
theorem inodeWrite_empty_crash (hv : VolumeOk sb) (h0 : ip.clusterStart = 0) (hoff : off < 2 ^ 32)
    (hk : HintsOk sb d sb.nxtFree (writeNeeds sb ip off n) []) (hd : DirentOk sb ip.iIno)
    (ha : writeAccepts sb ip off n = true) :
    (fat32InodeWrite sb ip src off n).Safe (fun d' => Torn sb (fatinumToSector sb ip.iIno) d d'
      (List.range' sb.nxtFree (writeNeeds sb ip off n))) (fun _ _ => True) d := by
  have hrefl := Torn.refl sb (fatinumToSector sb ip.iIno) d
    (List.range' sb.nxtFree (writeNeeds sb ip off n))
  unfold fat32InodeWrite
  rw [if_pos ha, hv.sectors.cNumOff_eq hoff]
  refine .bind (.with_run (.readsOnly (readsOnly_travel ..) hrefl)) fun t d' ht => ?_
  obtain ⟨hd', ht⟩ := ht
  subst d'
  obtain ⟨hq, rfl, -⟩ := travel_zero (Nat.succ_pos _) h0 ht
  have hq0 : off / bytesPerCluster sb = 0 := by omega
  dsimp only
  split
  next hlt =>
    have hcnt : ip.clusterCnt = 0 := by omega
    have hneeds : writeNeeds sb ip off n = max 1 (clustersFor sb (off + n)) := by
      rw [writeNeeds, hcnt, hq0, Nat.zero_add, Nat.sub_zero]
    have hh : Hint sb d sb.nxtFree := (hk 0 (by omega)).1
    have hne : 0 ≠ sb.nxtFree := by
      have := hh.two_le
      omega
    have hmem : sb.nxtFree ∈ List.range' sb.nxtFree (writeNeeds sb ip off n) := by
      rw [List.mem_range'_1]
      omega
    have hhit : ∀ r d', (appendCluster sb ip 0).run d = .ok (r, d') → _ := fun r d' hr =>
      appendCluster_hit hv (x := sb.freeCount) hh (Nat.zero_le _) hne hr
    have htorn : ∀ d', Change sb d d' [sb.nxtFree, 0] [sb.nxtFree] →
        Torn sb (fatinumToSector sb ip.iIno) d d'
          (List.range' sb.nxtFree (writeNeeds sb ip off n)) := by
      intro d' hch
      refine ⟨fun c hcd hcr => hch.fat c hcd.2 ?_, fun b hb _ hbr => hch.data b hb fun c hm => ?_⟩
      · have := hcd.1
        rw [List.mem_pair]
        rintro (rfl | rfl)
        · exact hcr hmem
        · omega
      · rw [List.mem_singleton.1 hm]
        exact hbr _ hmem
    refine .bind (appendCluster_torn (x := sb.freeCount) hv (fun _ ht => ht) hmem hh fun r d' hr =>
      htorn d' (hhit r d' hr).2.1) fun a d₁ har => ?_
    obtain ⟨rfl, hch, -, hn₂⟩ := hhit a d₁ har
    have hm : FatChain sb d₁ sb.nxtFree [sb.nxtFree] := by
      refine ⟨⟨rfl, hh.data.not_iseof hv, ?_⟩, fun c hc => ?_⟩
      · rw [Lib.linked_nil, hn₂]
        decide
      · rw [List.mem_singleton.1 hc]
        exact hh.data
    have hk₁ : HintsOk sb d sb.nxtFree (clustersFor sb (off + n) - 1 + 1) [] := hk.mono (by omega)
    refine .mono (fun d' hcr => ?_) (fun _ _ _ => trivial)
      (writeRest_crash hv hm rfl (i := 0) (by simp) (hk₁.tail hv hch) hd)
    refine (htorn d₁ hch).trans (hcr.torn.mono fun c hcm => ?_)
    simp only [List.getLast?_singleton, Option.toList_some, List.mem_append, List.mem_singleton,
      List.mem_range'_1, List.length_singleton] at hcm ⊢
    omega
  next hge =>
    refine .bind (Q := fun r d' => r = (0, sb, ip) ∧ d' = d) (.pure hrefl ⟨rfl, rfl⟩) fun a d' had => ?_
    obtain ⟨rfl, hd'⟩ := had
    subst d'
    refine .bind (writeClusters_zero_safe hrefl) fun w d' hw => ?_
    obtain ⟨tot, w⟩ := w
    obtain ⟨rfl, hd'⟩ := hw
    subst d'
    refine .bind (inodeUpdate_torn { ip with iSize := _ } (f := sb.freeCount) (n := sb.nxtFree) hv hd
      fun d'' ht => ht) fun _ d'' hc => ?_
    exact .pure hc trivial

/-! ### All files -/

/-- The chain of a file, which was `L` on the disk `d`, is `L` with zero clusters behind it on `d'`. The
inode is the one that is made of the disk, with the number of clusters that is found. -/
structure FileSurvives (sb : Superblock) (e : Nat) (d : Nat → Sector) (ip : Inode) (L : List Nat)
    (d' : Nat → Sector) (L' : List Nat) : Prop where
  chainOf : ChainOf sb d' { ip with clusterCnt := L'.length } L'
  grown : L <+: L'
  data : ∀ c ∈ L', ∀ b, InCluster sb c b → b ≠ e → d' b = if c ∈ L then d b else fun _ => 0

/-- The disk during a write that may take the `k` hints from `h` on. -/
structure Survives (sb : Superblock) (e : Nat) (d : Nat → Sector) (ip : Inode) (L : List Nat) (h k : Nat)
    (d' : Nat → Sector) (L' : List Nat) : Prop where
  file : FileSurvives sb e d ip L d' L'
  sub : ∀ c ∈ L', c ∈ L ∨ c ∈ List.range' h k
  torn : Torn sb e d d' (L ++ List.range' h k)
  data : ∀ b, firstDataSector sb ≤ b → b ≠ e → (∀ c ∈ List.range' h k, ¬ InCluster sb c b) → d' b = d b

/-- A file of which no cluster differs. -/
theorem ChainOf.survives (hc : ChainOf sb d ip L)
    (hd : ∀ c ∈ L, fatNext sb d' c = fatNext sb d c)
    (hdata : ∀ c ∈ L, ∀ b, InCluster sb c b → b ≠ e → d' b = d b) :
    FileSurvives sb e d ip L d' L := by
  refine ⟨?_, List.prefix_rfl, fun c hm b hin hbe => ?_⟩
  · rcases hc with hc | ⟨hL, hc, -⟩
    · exact .inl hc
    · exact .inr ⟨hL, ⟨hc.linked.congr hd, hc.data⟩, rfl⟩
  · rw [if_pos hm]
    exact hdata c hm b hin hbe

/-- The sectors of clusters that are not among `N`. -/
theorem data_of_not_mem (hv : VolumeOk sb) {N : List Nat} (hN : ∀ c ∈ N, DataCluster sb c)
    (h : ∀ b, firstDataSector sb ≤ b → b ≠ e → (∀ c ∈ N, ¬ InCluster sb c b) → d' b = d b)
    {c b : Nat} (hc : DataCluster sb c) (hcN : c ∉ N) (hin : InCluster sb c b) (hbe : b ≠ e) :
    d' b = d b := by
  refine h b (hv.inCluster_data hc hin).1 hbe fun c' hc' hin' => hcN ?_
  rwa [← hv.inCluster_unique (hN c' hc') hc hin' hin]

theorem HintsOk.of_mem (hk : HintsOk sb d h k L) {c : Nat} (hm : c ∈ List.range' h k) :
    Hint sb d c ∧ c ∉ L := by
  obtain ⟨j, hj, rfl⟩ := List.mem_range'.1 hm
  rw [Nat.one_mul]
  exact hk j hj

/-- A crash of a write to a file with a chain. -/
theorem Crash.survives (hv : VolumeOk sb) (hL : L ≠ []) (hk : HintsOk sb d h k L)
    (hc : Crash sb e d ip.clusterStart L h k d') : ∃ L', Survives sb e d ip L h k d' L' := by
  have htorn := hc.torn
  obtain ⟨j, d₁, hj, ha, ht⟩ := hc
  have hsub : ∀ c ∈ List.range' (h + j) (k - j), c ∈ List.range' h k := by
    intro c hm
    rw [List.mem_range'_1] at hm ⊢
    omega
  have hsub' : ∀ c ∈ List.range' h j, c ∈ List.range' h k := by
    intro c hm
    rw [List.mem_range'_1] at hm ⊢
    omega
  have hdata : ∀ c ∈ List.range' h k, DataCluster sb c := fun c hm => (hk.of_mem hm).1.data
  -- the hints that were not appended are not on the chain
  have hout : ∀ c ∈ L ++ List.range' h j, c ∉ List.range' (h + j) (k - j) := by
    intro c hm hr
    rcases List.mem_append.1 hm with hm | hm
    · exact (hk.of_mem (hsub c hr)).2 hm
    · rw [List.mem_range'_1] at hm hr
      omega
  have hkeep : ∀ b, firstDataSector sb ≤ b → b ≠ e → (∀ c ∈ List.range' h k, ¬ InCluster sb c b) →
      d' b = d b := by
    intro b hb hbe hbr
    rw [ht.data b hb hbe fun c hm => hbr c (hsub c hm)]
    exact ha.change.data b hb fun c hm => hbr c (hsub' c hm)
  refine ⟨L ++ List.range' h j, ⟨?_, List.prefix_append .., ?_⟩, fun c hm => ?_, ?_, hkeep⟩
  · refine .inr ⟨by simp [hL], ⟨ha.chain.linked.congr fun c hm => ?_, ha.chain.data⟩, rfl⟩
    exact ht.fat c (ha.chain.data c hm) (hout c hm)
  · intro c hm b hin hbe
    split
    next hcL =>
      exact data_of_not_mem hv hdata hkeep (ha.chain.data c hm) (fun hr => (hk.of_mem hr).2 hcL) hin hbe
    next hcL =>
      have hmj : c ∈ List.range' h j := (List.mem_append.1 hm).resolve_left hcL
      have hcd := hdata c (hsub' c hmj)
      rw [data_of_not_mem hv (fun c hm => hdata c (hsub c hm)) ht.data hcd (hout c hm) hin hbe,
        ha.change.zero b (hv.inCluster_data hcd hin).1 ⟨c, hmj, hin⟩]
  · exact (List.mem_append.1 hm).imp_right (hsub' c)
  · refine htorn.mono fun c hm => ?_
    rw [List.mem_append] at hm ⊢
    exact hm.imp_left fun hm => List.mem_of_getLast? (Option.mem_toList.1 hm)

/-- **`fat32_inode_write`** and the chain of its file. -/
theorem inodeWrite_survives (hv : VolumeOk sb) (hc : ChainOf sb d ip L) (hd : DirentOk sb ip.iIno)
    (hoff : off < 2 ^ 32)
    (hk : HintsOk sb d sb.nxtFree (if writeAccepts sb ip off n then writeNeeds sb ip off n else 0) L) :
    (fat32InodeWrite sb ip src off n).Safe (fun d' => ∃ L', Survives sb (fatinumToSector sb ip.iIno) d
      ip L sb.nxtFree (if writeAccepts sb ip off n then writeNeeds sb ip off n else 0) d' L')
      (fun _ _ => True) d := by
  by_cases ha : writeAccepts sb ip off n = true
  · rw [if_pos ha] at hk ⊢
    rcases hc with ⟨h0, rfl⟩ | ⟨hL, hc, hcnt⟩
    · refine .mono (fun d' ht => ⟨[], ?_⟩) (fun _ _ h => h) (inodeWrite_empty_crash hv h0 hoff hk hd ha)
      have hnil : ∀ c ∈ ([] : List Nat), False := fun _ hm => absurd hm List.not_mem_nil
      exact ⟨⟨.inl ⟨h0, rfl⟩, List.prefix_rfl, fun _ hm => (hnil _ hm).elim⟩, fun _ hm => .inl hm, ht,
        ht.data⟩
    · exact .mono (fun d' hcr => hcr.survives hv hL hk) (fun _ _ h => h)
        (inodeWrite_crash hv hL hc hcnt hoff hk hd ha)
  · unfold fat32InodeWrite
    rw [if_neg ha, if_neg ha]
    exact .pure ⟨L, hc.survives (fun _ _ => rfl) fun _ _ _ _ _ => rfl, fun _ hm => .inl hm, .refl ..,
      fun _ _ _ _ => rfl⟩ trivial

end

/-! ## `fat32_fcb_init` -/

theorem fcbInit_torn (hv : VolumeOk sb) {fuel attr : Nat} {longName : CStr}
    {fileName fileExt : List (BitVec 8)}
    (hk : isDotName longName.chars ≠ .ok true → Hint sb d sb.nxtFree ∧ sb.nxtFree ∈ S) :
    (fat32FcbInit sb fuel ip longName attr fileName fileExt).Safe (fun d' => Torn sb e d d' S)
      (fun _ _ => True) d := by
  refine fcbInit_safe (Q := fun _ _ => True) (.refl ..) trivial fun hdot => ?_
  obtain ⟨hh, hS⟩ := hk hdot
  exact .mono (fun _ hc => hc) (fun _ _ ht => ⟨ht, trivial⟩)
    (clusterAlloc_torn (x := sb.freeCount) hv (fun _ ht => ht) hS hh)

/-! ## Calls and runs -/

namespace Volume

variable {s s₀ : Volume} {call : Call} {chain : Nat → List Nat}

/-- The sector with the directory entry that a call stores. -/
def entrySector (s : Volume) : Call → Nat
  | .write i _ _ _ => (s.files[i]?.map fun ip => fatinumToSector s.sb ip.iIno).getD 0
  | .fcbInit .. => 0

/-- The chains of the files on the disk `d` are `chain'`. -/
structure Survived (s : Volume) (call : Call) (d : Nat → Sector) (chain chain' : Nat → List Nat) : Prop where
  file : ∀ i ip, s.files[i]? = some ip →
    FileSurvives s.sb (s.entrySector call) s.disk ip (chain i) d (chain' i)
  disjoint : ∀ i j, i < s.files.length → j < s.files.length → i ≠ j → (chain' i).Disjoint (chain' j)

/-- A file of which no cluster is among those that may differ. -/
theorem Chains.intact (hc : s.Chains chain) {N : List Nat} {j : Nat}
    (hj : s.files[j]? = some ip) (ht : Torn s.sb e s.disk d (M ++ N))
    (hdata : ∀ b, firstDataSector s.sb ≤ b → b ≠ e → (∀ c ∈ N, ¬ InCluster s.sb c b) → d b = s.disk b)
    (hM : ∀ c ∈ chain j, c ∉ M) (hN : ∀ c ∈ chain j, c ∉ N) (hNd : ∀ c ∈ N, DataCluster s.sb c) :
    FileSurvives s.sb e s.disk ip (chain j) d (chain j) := by
  have hch := hc.chainOf j ip hj
  refine hch.survives (fun c hm => ht.fat c (hch.data hm) fun hor => ?_) fun c hm b hin hbe => ?_
  · exact (List.mem_append.1 hor).elim (hM c hm) (hN c hm)
  · exact data_of_not_mem hc.volume hNd hdata (hch.data hm) (hN c hm) hin hbe

/-- The hints of a call are clusters. -/
theorem HintsFree.data (hh : s.HintsFree call) {c : Nat}
    (hm : c ∈ List.range' s.sb.nxtFree (s.needs call)) : DataCluster s.sb c :=
  (HintsOk.of_mem (L := []) (fun j hj => ⟨(hh j hj).1, List.not_mem_nil⟩) hm).1.data

theorem write_survived {i : Nat} {src : List (BitVec 8)} {off n : BitVec 32} {c : BufferCache}
    (hc : s.Chains chain) (hh : s.HintsFree (.write i src off n)) (hs : s.Stops (.write i src off n) c) :
    ∃ chain', Survived s (.write i src off n) c.disk chain chain' := by
  obtain ⟨ip, hip, hs⟩ := hs
  have hil := (List.getElem?_eq_some_iff.1 hip).1
  have hneeds : s.needs (.write i src off n) = if writeAccepts s.sb ip off.toNat n.toNat then
      writeNeeds s.sb ip off.toNat n.toNat else 0 := by
    simp only [needs, hip]
  have hk : HintsOk s.sb s.disk s.sb.nxtFree (if writeAccepts s.sb ip off.toNat n.toNat then
      writeNeeds s.sb ip off.toNat n.toNat else 0) (chain i) := by
    rw [← hneeds]
    exact fun j hj => ⟨(hh j hj).1,
      (hh j hj).2 ip (List.mem_of_getElem? hip) _ (hc.chainOf i ip hip)⟩
  obtain ⟨L', hL⟩ := (BufferCache.refines_disk rootDev).safe_cut hc.cache
    (inodeWrite_survives hc.volume (hc.chainOf i ip hip) (hc.dirent ip (List.mem_of_getElem? hip))
      off.isLt hk) hs
  rw [← hneeds] at hL
  have hentry : s.entrySector (.write i src off n) = fatinumToSector s.sb ip.iIno := by
    rw [entrySector, hip, Option.map_some, Option.getD_some]
  have hfree : ∀ j < s.files.length, ∀ x ∈ chain j, x ∉ List.range' s.sb.nxtFree
      (s.needs (.write i src off n)) := fun j hj x hx hm =>
    hh.not_mem hc (Nat.le_refl _) hm j hj hx
  -- a file that is not written
  have hother : ∀ j, j ≠ i → ∀ ip', s.files[j]? = some ip' →
      FileSurvives s.sb (fatinumToSector s.sb ip.iIno) s.disk ip' (chain j) c.disk (chain j) := by
    intro j hji ip' hip'
    have hjl := (List.getElem?_eq_some_iff.1 hip').1
    refine hc.intact hip' hL.torn hL.data (fun x hx hxi => ?_) (hfree j hjl) fun x => hh.data
    exact hc.disjoint j i hjl hil hji hx hxi
  have hnew : ∀ j, j ≠ i → j < s.files.length → L'.Disjoint (chain j) := by
    intro j hji hjl x hx hxj
    rcases hL.sub x hx with hxi | hxr
    · exact hc.disjoint i j hil hjl (Ne.symm hji) hxi hxj
    · exact hfree j hjl x hxj hxr
  refine ⟨Function.update chain i L', ?_, ?_⟩
  · rw [hentry]
    intro j ip' hip'
    by_cases hji : j = i
    · subst hji
      rw [hip] at hip'
      cases hip'
      rw [Function.update_self]
      exact hL.file
    · rw [Function.update_of_ne hji]
      exact hother j hji ip' hip'
  · intro j k hjl hkl hjk
    by_cases hji : j = i
    · subst hji
      rw [Function.update_self, Function.update_of_ne (Ne.symm hjk)]
      exact hnew k (Ne.symm hjk) hkl
    · rw [Function.update_of_ne hji]
      by_cases hki : k = i
      · subst hki
        rw [Function.update_self]
        exact fun x h1 h2 => hnew j hji hjl h2 h1
      · rw [Function.update_of_ne hki]
        exact hc.disjoint j k hjl hkl hjk

theorem fcbInit_survived {fuel attr : Nat} {parent ip : Inode} {longName : CStr}
    {fileName fileExt : List (BitVec 8)} {c : BufferCache} (hc : s.Chains chain)
    (hh : s.HintsFree (.fcbInit fuel parent longName attr fileName fileExt ip))
    (hs : s.Stops (.fcbInit fuel parent longName attr fileName fileExt ip) c) :
    Survived s (.fcbInit fuel parent longName attr fileName fileExt ip) c.disk chain chain := by
  have ht : Torn s.sb 0 s.disk c.disk ([] ++ List.range' s.sb.nxtFree
      (s.needs (.fcbInit fuel parent longName attr fileName fileExt ip))) := by
    refine (BufferCache.refines_disk rootDev).safe_cut hc.cache
      (fcbInit_torn hc.volume fun hdot => ?_) hs
    have hneeds : s.needs (.fcbInit fuel parent longName attr fileName fileExt ip) = 1 := if_neg hdot
    refine ⟨(hh 0 (by omega)).1, ?_⟩
    rw [hneeds, List.range'_one]
    exact List.mem_singleton_self _
  refine ⟨fun j ip' hip' => ?_, hc.disjoint⟩
  have hjl := (List.getElem?_eq_some_iff.1 hip').1
  refine hc.intact hip' ht ht.data (fun x _ hx => absurd hx List.not_mem_nil) (fun x hx hm => ?_)
    fun x => hh.data
  exact hh.not_mem hc (Nat.le_refl _) hm j hjl hx

theorem stops_survived {c : BufferCache} (hc : s.Chains chain) (hh : s.HintsFree call)
    (hs : s.Stops call c) : ∃ chain', Survived s call c.disk chain chain' := by
  cases call with
  | write i src off n => exact write_survived hc hh hs
  | fcbInit fuel parent longName attr fileName fileExt ip => exact ⟨chain, fcbInit_survived hc hh hs⟩

/-- **A crash loses no chain.** On a volume whose files have disjoint chains at the mount, in every
state that calls reach which find their hints free: wherever the machine stops in a further such call,
the chains on the disk are those from before the call with zero clusters behind them, disjoint, and the
files have their data. -/
theorem crash_chains {disk : Nat → Sector} {chain₀ : Nat → List Nat} {calls : List Call}
    (hm : s₀.Mounted disk) (hv : VolumeOk s₀.sb)
    (hc : ∀ i ip, s₀.files[i]? = some ip → ChainOf s₀.sb disk ip (chain₀ i))
    (hd : ∀ ip ∈ s₀.files, DirentOk s₀.sb ip.iIno)
    (hdis : ∀ i j, i < s₀.files.length → j < s₀.files.length → i ≠ j →
      (chain₀ i).Disjoint (chain₀ j))
    (hrun : Run GoodStep s₀ calls s) :
    ∃ chain, s.Chains chain ∧ ∀ call c, s.HintsFree call → s.Stops call c →
      ∃ chain', Survived s call c.disk chain chain' := by
  have h : ∃ chain, s.Chains chain := by
    refine hrun.invariant (I := fun s => ∃ chain, s.Chains chain) ?_ ?_
    · obtain ⟨hok, hdisk⟩ := hm.cache
      exact ⟨chain₀, hok, hv, by rwa [hdisk], hd, hdis⟩
    · intro s call s' ⟨chain, hch⟩ hg
      obtain ⟨chain', hch', -⟩ := step_ok hch hg.1 hg.2
      exact ⟨chain', hch'⟩
  obtain ⟨chain, hch⟩ := h
  exact ⟨chain, hch, fun call c hh hs => stops_survived hch hh hs⟩

/-- The machine stops after four requests of a write that appends cluster 5 to the chain of cluster 3:
the cluster is marked, and not linked. -/
theorem crash_chains_marked : ∃ s c, s.Mounted (smallDisk 5) ∧ s.HintsFree appendCall ∧
    s.Stops appendCall c ∧ Iseof (fatNext s.sb c.disk 5) ∧ fatNext s.sb s.disk 5 = 0 ∧
      ∃ chain, s.Chains chain ∧ ∃ chain', Survived s appendCall c.disk chain chain' := by
  have hx : ((smallMount 5).any fun s =>
      decide (s.sb = smallSb 5 5 ∧ s.needs appendCall = 1 ∧
        s.disk (firstSectorofCluster s.sb 5) 0 = 0) &&
      ((fat32InodeWrite s.sb (smallFile 1 3) [] 512 1).after (BufferCache.handler rootDev) 4 s.cache).any
        fun c => decide (Iseof (fatNext s.sb c.disk 5) ∧ fatNext s.sb s.disk 5 = 0)) = true := by
    decide +kernel
  obtain ⟨s, hm, hx⟩ := (Option.any_eq_true _ _).1 hx
  obtain ⟨hx, hcut⟩ := Bool.and_eq_true_iff.1 hx
  obtain ⟨c, hcut, hmark⟩ := (Option.any_eq_true _ _).1 hcut
  obtain ⟨hmark, hfree⟩ := of_decide_eq_true hmark
  obtain ⟨hsb, hneeds, hfirst⟩ := of_decide_eq_true hx
  have hv : VolumeOk s.sb := hsb ▸ smallSb_volumeOk 5 5
  obtain ⟨hmt, hfiles⟩ := smallMount_mounted hm
  have hf : Iseof (fatNext s.sb (smallDisk 5) 3) ∧ Iseof (fatNext s.sb (smallDisk 5) 4) := by
    rw [hsb]
    decide +kernel
  obtain ⟨hc, hd, hdis⟩ := small_chains hm hsb hf
  have hnxt : s.sb.nxtFree = 5 := by rw [hsb]; rfl
  have hh : s.HintsFree appendCall := by
    intro j hj
    obtain rfl : j = 0 := by omega
    rw [hnxt]
    refine ⟨⟨by decide, by rw [hsb, smallSb_count]; decide, hfirst⟩, fun ip hip L hL h5 => ?_⟩
    obtain ⟨i, hip⟩ := List.getElem?_of_mem hip
    have hil := (List.getElem?_eq_some_iff.1 hip).1
    rw [hmt.cache.2] at hL
    rw [hL.unique (hc i ip hip), List.mem_singleton] at h5
    rw [hfiles] at hil
    simp at hil
    omega
  have hs : s.Stops appendCall c := ⟨smallFile 1 3, by rw [hfiles]; rfl, Prog.cut_of_after hcut⟩
  obtain ⟨chain, hch, h⟩ := crash_chains hmt hv hc hd hdis .nil
  exact ⟨s, c, hmt, hh, hs, hmark, hfree, chain, hch, h appendCall c hh hs⟩

end Volume

end Fs
