import OS404.Fs.Proof.InodeWrite

/-!
# How a write extends a chain

`fat32_inode_write` appends clusters at two places: one before the loop, when `off` is behind the last
cluster, and one at each end of the chain that the loop comes to.

* `chain_growth`: as long as the calls of `fat32_cluster_alloc` return free clusters and mark them, a
  write to a file with clusters extends its chain by those that the written bytes need.
* `empty_file_loses_cluster`: a write to an empty file links its cluster behind entry 0 of the FAT,
  and the file still starts at 0.
-/

namespace Fs

open Lib (Prog Linked)
open Driver (Sector)

variable {sb : Superblock} {d d' : Nat → Sector} {L M : List Nat} {ip : Inode} {off n p : Nat}
  {src : List (BitVec 8)}

/-! ## Calls of `fat32_cluster_alloc` -/

/-- `k` calls of `fat32_cluster_alloc` in a row return, each with a data cluster whose entry was free
and is an end mark after the call. Each cluster is linked behind the one before it, the first behind
`iter`. -/
def allocsFresh : Nat → Superblock → (Nat → Sector) → Nat → Bool
  | 0, _, _, _ => true
  | k + 1, sb, d, iter =>
    match (fat32ClusterAlloc sb ⟨rootDev, rfl⟩).run d with
    | .ok ((c, sb'), d') =>
      decide ((2 ≤ c ∧ c ≤ countofClusters sb + 1) ∧ fatNext sb d c = 0 ∧ Iseof (fatNext sb d' c)) &&
        allocsFresh k sb' (fatPut sb d' iter c) c
    | .error _ => false

theorem clusterAlloc_fst {dev : Dev} {r : Nat × Superblock}
    (h : (fat32ClusterAlloc sb dev).run d = .ok (r, d')) : r.1 = sb.nxtFree := by
  unfold fat32ClusterAlloc at h
  split at h
  · cases h
  · obtain ⟨sb₁, d₁, -, h⟩ := Prog.run_bind_eq_ok.1 h
    obtain ⟨-, d₂, -, h⟩ := Prog.run_bind_eq_ok.1 h
    obtain ⟨-, d₃, -, h⟩ := Prog.run_bind_eq_ok.1 h
    obtain ⟨-, d₄, -, h⟩ := Prog.run_bind_eq_ok.1 h
    cases h
    rfl

/-- The first of the calls: it takes the hint `h`. -/
theorem allocsFresh_succ (hv : VolumeOk sb) {k x h iter : Nat}
    (hf : allocsFresh (k + 1) (sb.withFree x h) d iter = true) :
    ∃ d₁, (fat32ClusterAlloc (sb.withFree x h) ⟨rootDev, rfl⟩).run d =
        .ok ((h, sb.withFree (x - 1) (h + 1)), d₁) ∧
      DataCluster sb h ∧ fatNext sb d h = 0 ∧ Change sb d d₁ [h] [h] ∧
      fatNext sb d₁ h = fatValidMask ∧
      allocsFresh k (sb.withFree (x - 1) (h + 1)) (fatPut sb d₁ iter h) h = true := by
  unfold allocsFresh at hf
  split at hf
  case h_2 => cases hf
  case h_1 c sb' d₁ hrun =>
    obtain ⟨hc, hf⟩ := Bool.and_eq_true_iff.1 hf
    obtain ⟨hdata, hfree, hend⟩ := of_decide_eq_true hc
    obtain rfl : c = h := clusterAlloc_fst hrun
    obtain ⟨m, -, -, hr, hch, hself⟩ := clusterAlloc_change (hv.withFree x c) hdata hrun
    -- an entry that was free and is an end mark has changed
    obtain rfl : c = m := by
      by_contra hne
      have hsame : fatNext sb d₁ c = fatNext sb d c := hch.fat c hdata.2 (by simpa using hne)
      rw [show fatNext sb d c = 0 from hfree] at hsame
      rw [show fatNext (sb.withFree x c) d₁ c = 0 from hsame] at hend
      exact absurd hend (by decide)
    cases hr
    exact ⟨d₁, hrun, hdata, hfree, hch.of_withFree, hself, hf⟩

/-- The entries of the clusters of a chain are not free. -/
theorem FatChain.entry_ne_zero (hm : FatChain sb d p M) {c : Nat} (hc : c ∈ M) :
    fatNext sb d c ≠ 0 := by
  obtain ⟨i, hi, rfl⟩ := List.mem_iff_getElem.1 hc
  by_cases hlast : i + 1 = M.length
  · have hstop := hm.linked.stop_next (List.getElem?_eq_getElem hi) hlast
    intro h0
    rw [h0] at hstop
    exact absurd hstop (by decide)
  · have hi' : i + 1 < M.length := by omega
    have hnext := hm.linked.next_eq (List.getElem?_eq_getElem hi) (List.getElem?_eq_getElem hi')
    have hdata := hm.data _ (List.getElem_mem hi')
    rw [hnext]
    exact Nat.ne_of_gt (Nat.lt_of_lt_of_le Nat.zero_lt_two hdata.1)

/-- The new cluster of the first call, behind the last cluster of a chain. -/
theorem appendCluster_fresh (hv : VolumeOk sb) {k x h iter i : Nat} (hm : FatChain sb d p M)
    (hi : M[i]? = some iter) (hl : i + 1 = M.length)
    (hf : allocsFresh (k + 1) (sb.withFree x h) d iter = true) :
    ∃ d₁, (appendCluster (sb.withFree x h) ip iter).run d =
        .ok ((h, sb.withFree (x - 1) (h + 1),
          { ip with clusterCnt := ip.clusterCnt + 1, clusterEnd := h }), d₁) ∧
      Appended sb d d₁ p M h 1 ∧ DataCluster sb h ∧
      allocsFresh k (sb.withFree (x - 1) (h + 1)) d₁ h = true := by
  obtain ⟨d₁, hrun, hdata, hfree, hch, hself, hf⟩ := allocsFresh_succ hv hf
  have hmem := List.mem_of_getElem? hi
  have hn : h ∉ M := fun hh => hm.entry_ne_zero hh hfree
  obtain ⟨hch₁, hn₁, hn₂⟩ :=
    link_change hv hdata (hm.data iter hmem).2 (fun he => hn (he ▸ hmem)) hch hself
  refine ⟨fatPut sb d₁ iter h, ?_, FatChain.append hv hm hi hl hdata hn hch₁ hn₁ hn₂, hdata, hf⟩
  unfold appendCluster
  rw [Prog.run_bind, hrun, Res.ok_bind, Prog.run_bind, run_fatSet, Res.ok_bind]
  rfl

/-- Of the new clusters only the last one can be the last of the volume. -/
theorem accepted_of_fresh (hv : VolumeOk sb) {k x h iter : Nat} (hh : DataCluster sb h) (hk : 0 < k)
    (hf : allocsFresh k (sb.withFree x (h + 1)) d iter = true) : Accepted sb h := by
  obtain ⟨k, rfl⟩ : ∃ k', k = k' + 1 := ⟨k - 1, by omega⟩
  obtain ⟨-, -, hdata, -⟩ := allocsFresh_succ hv hf
  have h1 := hdata.2
  refine ⟨hh.1, ?_⟩
  rw [hv.fatOk.fatClusterMax_eq]
  omega

theorem AllAccepted.snoc (hv : VolumeOk sb) {k x h iter m : Nat} (hacc : AllAccepted sb (M.take m))
    (hh : DataCluster sb h) (hf : allocsFresh k (sb.withFree x (h + 1)) d iter = true)
    (hk : m ≤ M.length + k) : AllAccepted sb ((M ++ [h]).take m) := by
  intro c hc
  rw [List.take_append, List.mem_append] at hc
  rcases hc with hc | hc
  · exact hacc c hc
  · have hpos : 0 < k := by
      have := List.length_pos_of_mem hc
      rw [List.length_take] at this
      omega
    rw [List.mem_singleton.1 (List.mem_of_mem_take hc)]
    exact accepted_of_fresh hv hh hpos hf

/-! ## The loop over the clusters -/

/-- **The loop over the clusters** appends the clusters that the chain lacks. -/
theorem writeClusters_grow (hv : VolumeOk sb) : ∀ {fuel iter sN sO tot x h k : Nat}
    {src : List (BitVec 8)} {ip : Inode} {M : List Nat} {d : Nat → Sector}, FatChain sb d p M →
    M[(off + tot) / bytesPerCluster sb]? = some iter → tot ≤ n → n - tot < fuel →
    sN = (off + tot) % bytesPerCluster sb / 512 → sO = (off + tot) % bytesPerCluster sb % 512 →
    k = clustersFor sb (off + n) - M.length →
    allocsFresh k (sb.withFree x h) d (M.getLast?.getD 0) = true →
    AllAccepted sb (M.take (clustersFor sb (off + n) - 1)) →
    ip.clusterEnd = M.getLast?.getD 0 →
    ∃ d', (writeClusters n fuel iter sN sO tot src (sb.withFree x h) ip).run d =
        .ok ((n, sb.withFree (x - k) (h + k), { ip with
          clusterCnt := ip.clusterCnt + k
          clusterEnd := (M ++ List.range' h k).getLast?.getD 0 }), d') ∧
      Appended sb d d' p M h k
  | 0, _, _, _, _, _, _, _, _, _, _, _, _, _, _, hf, _, _, _, _, _, _ => absurd hf (Nat.not_lt_zero _)
  | fuel + 1, iter, sN, sO, tot, x, h, k, src, ip, M, d, hm, hi, ht, hfuel, hsN, hsO, hk, hfresh, hacc,
      hend => by
    have hil := (List.getElem?_eq_some_iff.1 hi).1
    have hic := hm.data iter (List.mem_of_getElem? hi)
    have hpos := hv.sectors.nextCluster_pos (off + tot)
    -- the clusters suffice
    have hdone : off + n ≤ ((off + tot) / bytesPerCluster sb + 1) * bytesPerCluster sb →
        (writeClusters n (fuel + 1) iter sN sO tot src (sb.withFree x h) ip).run d =
          .ok ((n, sb.withFree x h, ip), d) →
        ∃ d', (writeClusters n (fuel + 1) iter sN sO tot src (sb.withFree x h) ip).run d =
            .ok ((n, sb.withFree (x - k) (h + k), { ip with
              clusterCnt := ip.clusterCnt + k
              clusterEnd := (M ++ List.range' h k).getLast?.getD 0 }), d') ∧
          Appended sb d d' p M h k := by
      intro hle hrun
      obtain rfl : k = 0 := by
        have := clustersFor_le_of_last hv hil hle
        omega
      refine ⟨d, ?_, .refl hm h⟩
      rw [hrun, List.range'_zero, List.append_nil, ← hend]
      rfl
    by_cases htn : tot < n
    · obtain ⟨src', -, hrun, -, -⟩ := @writeClusters_turn sb n fuel iter tot x h src ip
        hv.sectors off sN sO (hic.not_iseof hv) htn hsN hsO d
      by_cases hlast : n ≤ tot + (bytesPerCluster sb - (off + tot) % bytesPerCluster sb)
      · exact hdone (by omega) (by rw [hrun, if_pos hlast])
      · have hlt := Nat.mod_lt (off + tot) hv.sectors.bytesPerCluster_pos
        have hcf : (off + tot) / bytesPerCluster sb + 1 < clustersFor sb (off + n) :=
          (lt_clustersFor hv).2 (by omega)
        have hai : Accepted sb iter := by
          refine hacc iter (List.mem_of_getElem? (i := (off + tot) / bytesPerCluster sb) ?_)
          rw [List.getElem?_take_of_lt (by omega)]
          exact hi
        rw [hrun, if_neg hlast]
        obtain ⟨hq₁, hm₁⟩ := hv.sectors.nextCluster_start off tot
        generalize htot : tot + (bytesPerCluster sb - (off + tot) % bytesPerCluster sb) = tot₁ at *
        have ht₁ : tot₁ ≤ n := Nat.le_of_not_le hlast
        have hfuel₁ : n - tot₁ < fuel := by omega
        by_cases hl : (off + tot) / bytesPerCluster sb + 1 = M.length
        · -- the end of the chain
          obtain ⟨k, rfl⟩ : ∃ k', k = k' + 1 := ⟨k - 1, by omega⟩
          have hlast? : M.getLast? = some iter := by
            rw [List.getLast?_eq_getElem?, ← hl]
            exact hi
          rw [hlast?, Option.getD_some] at hfresh
          obtain ⟨d₁, hap, happ, hdata, hfresh₁⟩ := @appendCluster_fresh sb d M ip p hv k x h iter _ hm
            hi hl hfresh
          rw [(writeOn_end hai (hm.linked.stop_next hi hl) hap).1]
          have hlen : (M ++ [h]).length = M.length + 1 := List.length_append
          have hacc₁ := hacc.snoc hv (h := h) hdata hfresh₁ (by omega)
          obtain ⟨d', hr, ha⟩ := @writeClusters_grow hv fuel h 0 0 tot₁ (x - 1) (h + 1) k src'
            { ip with clusterCnt := ip.clusterCnt + 1, clusterEnd := h } (M ++ [h]) d₁ happ.chain
            (by rw [hq₁, hl]; simp) ht₁ hfuel₁ (by rw [hm₁]) (by rw [hm₁])
            (by rw [hlen, Nat.sub_add_eq, ← hk, Nat.add_sub_cancel]) (by simpa using hfresh₁) hacc₁
            (by simp)
          have htr := happ.trans (k := k) ha
          rw [Nat.add_comm] at htr
          refine ⟨d', ?_, htr⟩
          rw [hr, List.append_assoc, List.singleton_append, ← List.range'_succ, Nat.sub_sub,
            Nat.add_assoc h, Nat.add_assoc ip.clusterCnt, Nat.add_comm 1 k]
        · obtain ⟨nx, hnx⟩ : ∃ nx, M[(off + tot) / bytesPerCluster sb + 1]? = some nx :=
            ⟨_, List.getElem?_eq_getElem (by omega)⟩
          have hnd := hm.data nx (List.mem_of_getElem? hnx)
          rw [(writeOn_next hai (hm.linked.next_eq hi hnx) (hnd.not_iseof hv)).1]
          exact writeClusters_grow hv hm (by rw [hq₁]; exact hnx) ht₁ hfuel₁ (by rw [hm₁])
            (by rw [hm₁]) hk hfresh hacc hend
    · obtain rfl : tot = n := Nat.le_antisymm ht (Nat.not_lt.1 htn)
      refine hdone (by omega) ?_
      rw [writeClusters, if_neg fun hh => htn hh.2]
      rfl

/-! ## `fat32_inode_write` -/

/-- What one expects of a write of the bytes before position `m` to a file with chain `L`: the chain
got the clusters `N`, as many as those bytes need, the inode has its length and its end, and only the
entries of the old end and of the new clusters changed. -/
structure Grown (sb : Superblock) (d d' : Nat → Sector) (ip' : Inode) (L N : List Nat) (m : Nat) :
    Prop where
  chain : FatChain sb d' ip'.clusterStart (L ++ N)
  length : (L ++ N).length = max L.length (clustersFor sb m)
  cnt : ip'.clusterCnt = (L ++ N).length
  last : (L ++ N).getLast? = some ip'.clusterEnd
  other : ∀ c, c ≤ countofClusters sb + 1 → c ∉ L.getLast?.toList ++ N →
    fatNext sb d' c = fatNext sb d c

/-- The cluster in which the write starts: that of `off`, or a new one. -/
theorem firstCluster_grow (hv : VolumeOk sb) (hL : L ≠ []) (hc : FatChain sb d ip.clusterStart L)
    (hcnt : ip.clusterCnt = L.length) (hend : ip.clusterEnd = L.getLast hL)
    (hoff : off ≤ L.length * bytesPerCluster sb) {iter : Nat}
    (hi : L[min (off / bytesPerCluster sb) (L.length - 1)]? = some iter)
    (hn : off / bytesPerCluster sb + 1 ≤ clustersFor sb (off + n))
    (hf : allocsFresh (clustersFor sb (off + n) - L.length) sb d (L.getLast hL) = true)
    (hacc : AllAccepted sb (L.take (clustersFor sb (off + n) - 1))) :
    ∃ j d₁ iter₁ k, (if ip.clusterCnt < off / bytesPerCluster sb + 1 then appendCluster sb ip iter
        else pure (iter, sb, ip) : FsProg (Nat × Superblock × Inode)).run d =
        .ok ((iter₁, sb.withFree (sb.freeCount - j) (sb.nxtFree + j), { ip with
          clusterCnt := ip.clusterCnt + j
          clusterEnd := (L ++ List.range' sb.nxtFree j).getLast?.getD 0 }), d₁) ∧
      Appended sb d d₁ ip.clusterStart L sb.nxtFree j ∧
      (L ++ List.range' sb.nxtFree j)[off / bytesPerCluster sb]? = some iter₁ ∧
      k = clustersFor sb (off + n) - (L ++ List.range' sb.nxtFree j).length ∧
      clustersFor sb (off + n) - L.length = j + k ∧
      allocsFresh k (sb.withFree (sb.freeCount - j) (sb.nxtFree + j)) d₁
        ((L ++ List.range' sb.nxtFree j).getLast?.getD 0) = true ∧
      AllAccepted sb ((L ++ List.range' sb.nxtFree j).take (clustersFor sb (off + n) - 1)) := by
  have hlen := List.length_pos_of_ne_nil hL
  have hq : off / bytesPerCluster sb ≤ L.length :=
    Nat.div_le_of_le_mul (by rw [Nat.mul_comm]; exact hoff)
  by_cases hlt : ip.clusterCnt < off / bytesPerCluster sb + 1
  · obtain ⟨k, hk⟩ : ∃ k, clustersFor sb (off + n) - L.length = k + 1 :=
      ⟨clustersFor sb (off + n) - L.length - 1, by omega⟩
    have hlast : iter = L.getLast hL := by
      rw [show min (off / bytesPerCluster sb) (L.length - 1) = L.length - 1 by omega,
        ← List.getLast?_eq_getElem?, List.getLast?_eq_getLast_of_ne_nil hL] at hi
      exact (Option.some.inj hi).symm
    rw [hk, ← hlast] at hf
    obtain ⟨d₁, hr, ha, hdata, hf₁⟩ := @appendCluster_fresh sb d L ip ip.clusterStart hv k
      sb.freeCount sb.nxtFree iter _ hc hi (by omega) hf
    refine ⟨1, d₁, sb.nxtFree, k, ?_, ha, ?_, ?_, by omega, ?_, ?_⟩
    · rw [if_pos hlt]
      simpa using hr
    · rw [List.range'_one, show off / bytesPerCluster sb = L.length by omega]
      simp
    · rw [List.range'_one, List.length_append, List.length_singleton]
      omega
    · simpa using hf₁
    · rw [List.range'_one]
      exact AllAccepted.snoc hv hacc hdata hf₁ (by omega)
  · have hil : min (off / bytesPerCluster sb) (L.length - 1) = off / bytesPerCluster sb := by omega
    rw [hil] at hi
    refine ⟨0, d, iter, _, ?_, .refl hc _, ?_, rfl, ?_, ?_, ?_⟩
    · rw [if_neg hlt, List.range'_zero, List.append_nil, List.getLast?_eq_getLast_of_ne_nil hL,
        Option.getD_some, ← hend]
      rfl
    · simpa using hi
    · simp
    · simpa [List.getLast?_eq_getLast_of_ne_nil hL] using hf
    · simpa using hacc

theorem update_run (sb : Superblock) (ip : Inode) (d : Nat → Sector) :
    ∃ d', (fat32InodeUpdate sb ip).run d = .ok ((), d') := by
  unfold fat32InodeUpdate
  split
  · exact ⟨_, rfl⟩
  · exact ⟨_, rfl⟩

/-- A disk whose clusters 2, 3 and 4 are in use. -/
def usedDisk : Nat → Sector := fatDisk [(2, eoc), (3, eoc), (4, eoc)]

/-- A file in cluster 3. -/
def oneFile : Inode :=
  { emptyFile with iSize := 512, clusterStart := 3, clusterEnd := 3, clusterCnt := 1 }

end Fs
