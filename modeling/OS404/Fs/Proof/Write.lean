import OS404.Fs.Proof.Cluster

/-!
# The loops of `fat32_inode_write`

Position `P` of a file is byte `P % 512` of sector `P % cs / 512` of the `P / cs`-th cluster, with
`cs` bytes per cluster.

* `writeSectors_run`: the loop over a cluster leaves the disk as it is and counts to the end of the
  cluster or to `n`.
* `writeClusters_turn`: one turn of the loop over the clusters; `writeOn` is what follows the cluster.
* `writeClusters_spec`: the loop over the clusters counts to `n`, and appends the clusters that the
  chain lacks, in the order of the hints.
* `Covers`: which sectors it requests on its way.
-/

namespace Fs

open Lib (Prog Linked)
open Driver (Sector)

variable {sb : Superblock} {d d' : Nat → Sector} {p : Nat}

/-- The number of clusters for `m` bytes. -/
def clustersFor (sb : Superblock) (m : Nat) : Nat :=
  (m + bytesPerCluster sb - 1) / bytesPerCluster sb

/-- The requests `T` have the data sectors of the positions from `P` to `Q` of the chain `L`, and the
entries of the clusters passed between them. -/
structure Covers (sb : Superblock) (L : List Nat) (P Q : Nat) (T : List Nat) : Prop where
  data : ∀ x, P ≤ x → x < Q → ∃ c, L[x / bytesPerCluster sb]? = some c ∧
    firstSectorofCluster sb c + x % bytesPerCluster sb / 512 ∈ T
  next : ∀ j, P / bytesPerCluster sb ≤ j → (j + 1) * bytesPerCluster sb < Q →
    ∃ c, L[j]? = some c ∧ Accepted sb c ∧ thisFATEntSecNum sb c ∈ T

/-- The loop over the sectors of a cluster. -/
theorem writeSectors_run {ip : Inode} {first n : Nat} : ∀ {k s sOffset tot : Nat}
    {src : List (BitVec 8)} {d : Nat → Sector}, tot ≤ n → sOffset < 512 →
    ∃ src', (writeSectors ip first n k s sOffset tot src).run d =
        .ok ((if 0 < k ∧ tot < n then 0 else sOffset, min n (tot + (k * 512 - sOffset)), src'), d) ∧
      (tot < n → ∀ t, s ≤ t → t < s + k → t * 512 < s * 512 + sOffset + (n - tot) →
        u32 (first + t) ∈ (writeSectors ip first n k s sOffset tot src).touches d)
  | 0, s, sOffset, tot, src, d, ht, _ => by
    refine ⟨src, ?_, fun _ t h1 h2 => by omega⟩
    rw [show min n (tot + (0 * 512 - sOffset)) = tot by omega, if_neg (by omega)]
    rfl
  | k + 1, s, sOffset, tot, src, d, ht, hs => by
    by_cases htn : tot < n
    · obtain ⟨m, hm⟩ : ∃ m, min (512 - sOffset) (n - tot) = m := ⟨_, rfl⟩
      have hle : m ≤ n - tot := hm ▸ Nat.min_le_right ..
      obtain ⟨src', hr, hT⟩ := @writeSectors_run ip first n k (s + 1) 0 (tot + m) (src.drop m) d
        (by omega) (by decide)
      have hu : (updateSector ip.iDev (u32 (first + s)) fun d => d).run d = .ok ((), d) := by
        rw [updateSector, Prog.run_alter, Function.update_eq_self]
      have hw : writeSectors ip first n (k + 1) s sOffset tot src =
          (do updateSector ip.iDev (u32 (first + s)) fun d => d
              writeSectors ip first n k (s + 1) 0 (tot + m) (src.drop m)) := by
        rw [writeSectors, if_pos htn, ← hm]
        rfl
      have hpos : 0 < k + 1 ∧ tot < n := ⟨Nat.succ_pos k, htn⟩
      refine ⟨src', ?_, fun _ t h1 h2 h3 => ?_⟩
      · rw [hw, Prog.run_bind, hu, Res.ok_bind, hr, Nat.sub_zero, min_sectors ht hs hm, ite_self,
          if_pos hpos]
      · rw [hw, Prog.touches_bind _ _ hu, updateSector, Prog.touches_alter, List.mem_append,
          List.mem_singleton]
        by_cases hts : t = s
        · rw [hts]
          exact .inl rfl
        · -- the request goes on behind this sector
          have hfull : 512 - sOffset = m := by
            rw [← hm, Nat.min_eq_left]
            omega
          refine .inr (hT (by omega) t (by omega) (by omega) ?_)
          rw [Nat.succ_mul, Nat.add_zero]
          omega
    · refine ⟨src, ?_, fun h => absurd h htn⟩
      rw [writeSectors, if_neg htn, show min n (tot + ((k + 1) * 512 - sOffset)) = tot by omega,
        if_neg fun h => htn h.2]
      rfl

/-! ## Positions -/

section
variable {x : Nat}

theorem lt_clustersFor (hv : VolumeOk sb) {j m : Nat} :
    j < clustersFor sb m ↔ j * bytesPerCluster sb < m := by
  have hcs := hv.sectors.bytesPerCluster_pos
  unfold clustersFor
  rw [← Nat.succ_le_iff, Nat.le_div_iff_mul_le hcs, Nat.succ_mul]
  omega

theorem clustersFor_le (hv : VolumeOk sb) {j m : Nat} (h : m ≤ j * bytesPerCluster sb) :
    clustersFor sb m ≤ j := by
  by_contra hlt
  have := (lt_clustersFor hv).1 (Nat.not_le.1 hlt)
  omega

/-- The `m` clusters suffice when the position `P` is in one of them and the bytes end there. -/
theorem clustersFor_le_of_last (hv : VolumeOk sb) {P m : Nat} (hP : P / bytesPerCluster sb < m)
    (hx : x ≤ (P / bytesPerCluster sb + 1) * bytesPerCluster sb) : clustersFor sb x ≤ m :=
  clustersFor_le hv (Nat.le_trans hx (Nat.mul_le_mul_right _ (Nat.succ_le_of_lt hP)))

end

/-! ## The loop over the clusters -/

/-- What the loop over the clusters returns, when it appended `k` clusters. -/
structure Wrote (sb : Superblock) (d d' : Nat → Sector) (p : Nat) (M : List Nat) (x h n k : Nat)
    (ip : Inode) (r : Nat × Superblock × Inode) : Prop where
  count : r.1 = n
  super : r.2.1 = sb.withFree (x - k) (h + k)
  inode : ∃ e, r.2.2 = { ip with clusterCnt := ip.clusterCnt + k, clusterEnd := e }
  appended : Appended sb d d' p M h k

/-- A cluster that was appended before the others. -/
theorem Wrote.cons {d₁ : Nat → Sector} {M : List Nat} {x h n k : Nat} {ip : Inode}
    {r : Nat × Superblock × Inode} (happ : Appended sb d d₁ p M h 1)
    (hw : Wrote sb d₁ d' p (M ++ [h]) (x - 1) (h + 1) n k
      { ip with clusterCnt := ip.clusterCnt + 1, clusterEnd := h } r) :
    Wrote sb d d' p M x h n (k + 1) ip r where
  count := hw.count
  super := by
    rw [hw.super, show x - 1 - k = x - (k + 1) by omega, show h + 1 + k = h + (k + 1) by omega]
  inode := by
    obtain ⟨e, he⟩ := hw.inode
    refine ⟨e, he.trans ?_⟩
    dsimp only
    rw [show ip.clusterCnt + 1 + k = ip.clusterCnt + (k + 1) by omega]
  appended := by
    have htr := happ.trans (k := k) hw.appended
    rwa [Nat.add_comm] at htr

/-- One iteration. -/
theorem writeClusters_succ {n fuel iter sN sO tot : Nat} {src : List (BitVec 8)} {ip : Inode}
    (hi : ¬ Iseof iter) (ht : tot < n) :
    writeClusters n (fuel + 1) iter sN sO tot src sb ip =
      (writeSectors ip (firstSectorofCluster sb iter) n (sb.sectorsPerBlock - sN) sN sO tot src >>=
        fun r => if r.2.1 = n then pure (r.2.1, sb, ip) else
          fat32NextCluster sb iter >>= fun next =>
            if Iseof next then
              appendCluster sb ip iter >>= fun a =>
                writeClusters n fuel a.1 0 r.1 r.2.1 r.2.2 a.2.1 a.2.2
            else writeClusters n fuel next 0 r.1 r.2.1 r.2.2 sb ip) := by
  rw [writeClusters, if_pos ⟨hi, ht⟩]

/-- The sectors of the positions in one cluster. -/
theorem Covers.sectors {L T : List Nat} {P Q c : Nat} (hv : VolumeOk sb) (hc : DataCluster sb c)
    (hL : L[P / bytesPerCluster sb]? = some c)
    (hQ : Q ≤ P + (bytesPerCluster sb - P % bytesPerCluster sb))
    (hT : ∀ t, P % bytesPerCluster sb / 512 ≤ t → t < sb.sectorsPerBlock →
      t * 512 < P % bytesPerCluster sb + (Q - P) → u32 (firstSectorofCluster sb c + t) ∈ T) :
    Covers sb L P Q T where
  data x h1 h2 := by
    have hd := hv.sectors.div_eq_of_lt_next h1 (by omega)
    have hm : x % bytesPerCluster sb = P % bytesPerCluster sb + (x - P) := by
      have e1 := Nat.div_add_mod' x (bytesPerCluster sb)
      have e2 := Nat.div_add_mod' P (bytesPerCluster sb)
      rw [hd] at e1
      omega
    refine ⟨c, by rwa [hd], ?_⟩
    rw [← hv.sector_eq hc (hv.sectors.sector_lt x)]
    exact hT _ (by omega) (hv.sectors.sector_lt x) (by omega)
  next j h1 h2 := by
    rw [hv.sectors.nextCluster_pos] at hQ
    have := Nat.mul_le_mul_right (bytesPerCluster sb) (Nat.succ_le_succ h1)
    rw [Nat.succ_eq_add_one, Nat.succ_eq_add_one] at this
    omega

/-- The sectors of a cluster, its entry, and those of the rest. -/
theorem Covers.trans {L T T' : List Nat} {P Q R c : Nat} (hv : VolumeOk sb)
    (h : Covers sb L P Q T) (hP : L[P / bytesPerCluster sb]? = some c)
    (hQ : Q = P + (bytesPerCluster sb - P % bytesPerCluster sb)) (hc : Accepted sb c)
    (h' : Covers sb L Q R T') : Covers sb L P R (T ++ (thisFATEntSecNum sb c :: T')) where
  data x h1 h2 := by
    by_cases hx : x < Q
    · obtain ⟨c', hc', hm⟩ := h.data x h1 hx
      exact ⟨c', hc', List.mem_append_left _ hm⟩
    · obtain ⟨c', hc', hm⟩ := h'.data x (by omega) h2
      exact ⟨c', hc', List.mem_append_right _ (.tail _ hm)⟩
  next j h1 h2 := by
    have hdiv : Q / bytesPerCluster sb = P / bytesPerCluster sb + 1 := by
      rw [hQ, hv.sectors.nextCluster_pos, Nat.mul_div_cancel _ hv.sectors.bytesPerCluster_pos]
    by_cases hj : j = P / bytesPerCluster sb
    · subst hj
      exact ⟨c, hP, hc, List.mem_append_right _ (.head _)⟩
    · obtain ⟨c', hc', ha, hm⟩ := h'.next j (by omega) h2
      exact ⟨c', hc', ha, List.mem_append_right _ (.tail _ hm)⟩

theorem Covers.mono {L T T' : List Nat} {P Q : Nat} (h : Covers sb L P Q T)
    (hT : ∀ b ∈ T, b ∈ T') : Covers sb L P Q T' where
  data x h1 h2 := by
    obtain ⟨c, hc, hm⟩ := h.data x h1 h2
    exact ⟨c, hc, hT _ hm⟩
  next j h1 h2 := by
    obtain ⟨c, hc, ha, hm⟩ := h.next j h1 h2
    exact ⟨c, hc, ha, hT _ hm⟩

theorem Covers.nil (L T : List Nat) (P : Nat) (hv : VolumeOk sb) : Covers sb L P P T where
  data x h1 h2 := by omega
  next j h1 h2 := by
    have := (Nat.div_lt_iff_lt_mul hv.sectors.bytesPerCluster_pos).1 (Nat.lt_succ_of_le h1)
    rw [Nat.succ_eq_add_one] at this
    omega

/-- The sectors of the rest of a cluster, and those that the loop requests behind it. -/
theorem Covers.turn {L T T' : List Nat} {P R c : Nat} (hv : VolumeOk sb) (hc : DataCluster sb c)
    (hP : L[P / bytesPerCluster sb]? = some c) (ha : Accepted sb c)
    (hR : P + (bytesPerCluster sb - P % bytesPerCluster sb) ≤ R)
    (hT : ∀ t, P % bytesPerCluster sb / 512 ≤ t → t < sb.sectorsPerBlock →
      t * 512 < P % bytesPerCluster sb + (R - P) → u32 (firstSectorofCluster sb c + t) ∈ T)
    (h : Covers sb L (P + (bytesPerCluster sb - P % bytesPerCluster sb)) R T') :
    Covers sb L P R (T ++ (thisFATEntSecNum sb c :: T')) := by
  have hrest : Covers sb L P (P + (bytesPerCluster sb - P % bytesPerCluster sb)) T :=
    Covers.sectors hv hc hP (Nat.le_refl _) fun t h1 h2 h3 => hT t h1 h2 (by omega)
  exact hrest.trans hv hP rfl ha h

/-! ## One turn -/

/-- What the loop does behind cluster `iter`. -/
def writeOn (n fuel iter tot : Nat) (src : List (BitVec 8)) (sb : Superblock) (ip : Inode) :
    FsProg (Nat × Superblock × Inode) :=
  fat32NextCluster sb iter >>= fun next =>
    if Iseof next then
      appendCluster sb ip iter >>= fun a => writeClusters n fuel a.1 0 0 tot src a.2.1 a.2.2
    else writeClusters n fuel next 0 0 tot src sb ip

section
variable {n fuel iter tot x h : Nat} {src : List (BitVec 8)} {ip : Inode}

/-- The loop writes the rest of the cluster, and is done or goes on behind it. -/
theorem writeClusters_turn (hs : SectorsOk sb) {off sN sO : Nat} (hi : ¬ Iseof iter) (ht : tot < n)
    (hsN : sN = (off + tot) % bytesPerCluster sb / 512)
    (hsO : sO = (off + tot) % bytesPerCluster sb % 512) (d : Nat → Sector) :
    ∃ src' T,
      (writeClusters n (fuel + 1) iter sN sO tot src (sb.withFree x h) ip).run d =
        (if n ≤ tot + (bytesPerCluster sb - (off + tot) % bytesPerCluster sb) then
          .ok ((n, sb.withFree x h, ip), d)
        else (writeOn n fuel iter (tot + (bytesPerCluster sb - (off + tot) % bytesPerCluster sb)) src'
          (sb.withFree x h) ip).run d) ∧
      (writeClusters n (fuel + 1) iter sN sO tot src (sb.withFree x h) ip).touches d =
        T ++ (if n ≤ tot + (bytesPerCluster sb - (off + tot) % bytesPerCluster sb) then []
        else (writeOn n fuel iter (tot + (bytesPerCluster sb - (off + tot) % bytesPerCluster sb)) src'
          (sb.withFree x h) ip).touches d) ∧
      ∀ t, (off + tot) % bytesPerCluster sb / 512 ≤ t → t < sb.sectorsPerBlock →
        t * 512 < (off + tot) % bytesPerCluster sb + (n - tot) →
        u32 (firstSectorofCluster sb iter + t) ∈ T := by
  have hsec := hs.sector_lt (off + tot)
  have hrest := hs.clusterRest_eq (off + tot)
  rw [← hsN, ← hsO] at hrest
  obtain ⟨src', hw, hT⟩ := @writeSectors_run ip (firstSectorofCluster sb iter) n
    (sb.sectorsPerBlock - sN) sN sO tot src d (Nat.le_of_lt ht) (hsO ▸ Nat.mod_lt _ (by decide))
  rw [if_pos ⟨by omega, ht⟩, hrest] at hw
  refine ⟨src', (writeSectors ip (firstSectorofCluster sb iter) n (sb.sectorsPerBlock - sN) sN sO tot
    src).touches d, ?_⟩
  rw [writeClusters_succ hi ht, firstSectorofCluster_withFree, withFree_sectorsPerBlock,
    Prog.run_bind, hw, Res.ok_bind, Prog.touches_bind _ _ hw]
  dsimp only
  by_cases hend : n ≤ tot + (bytesPerCluster sb - (off + tot) % bytesPerCluster sb)
  · rw [Nat.min_eq_left hend, if_pos rfl, if_pos hend, if_pos hend]
    exact ⟨rfl, rfl, fun t h1 h2 h3 => hT ht t (by omega) (by omega) (by omega)⟩
  · rw [Nat.min_eq_right (Nat.le_of_not_le hend), if_neg (by omega), if_neg hend, if_neg hend]
    exact ⟨rfl, rfl, fun t h1 h2 h3 => hT ht t (by omega) (by omega) (by omega)⟩

theorem accepted_of_writeOn {r : Nat × Superblock × Inode}
    (hr : (writeOn n fuel iter tot src (sb.withFree x h) ip).run d = .ok (r, d')) :
    Accepted sb iter := by
  obtain ⟨next, d₁, hnx, -⟩ := Prog.run_bind_eq_ok.1 hr
  exact (nextCluster_eq_ok.1 hnx).1

/-- Inside the chain. -/
theorem writeOn_next {next : Nat} (ha : Accepted sb iter) (hn : fatNext sb d iter = next)
    (hne : ¬ Iseof next) :
    (writeOn n fuel iter tot src (sb.withFree x h) ip).run d =
        (writeClusters n fuel next 0 0 tot src (sb.withFree x h) ip).run d ∧
      (writeOn n fuel iter tot src (sb.withFree x h) ip).touches d = thisFATEntSecNum sb iter ::
        (writeClusters n fuel next 0 0 tot src (sb.withFree x h) ip).touches d := by
  have hrun : (fat32NextCluster sb iter).run d = .ok (_, d) := nextCluster_eq_ok.2 ⟨ha, hn.symm, rfl⟩
  unfold writeOn
  rw [nextCluster_withFree, Prog.run_bind, hrun, Res.ok_bind, Prog.touches_bind _ _ hrun, touches_nextCluster ha]
  dsimp only
  rw [if_neg hne]
  exact ⟨rfl, rfl⟩

/-- At the end of the chain, when a cluster is appended. -/
theorem writeOn_end {a : Nat × Superblock × Inode} (ha : Accepted sb iter)
    (hst : Iseof (fatNext sb d iter))
    (hap : (appendCluster (sb.withFree x h) ip iter).run d = .ok (a, d')) :
    (writeOn n fuel iter tot src (sb.withFree x h) ip).run d =
        (writeClusters n fuel a.1 0 0 tot src a.2.1 a.2.2).run d' ∧
      ∃ T, (writeOn n fuel iter tot src (sb.withFree x h) ip).touches d = thisFATEntSecNum sb iter ::
        (T ++ (writeClusters n fuel a.1 0 0 tot src a.2.1 a.2.2).touches d') := by
  have hrun : (fat32NextCluster sb iter).run d = .ok (_, d) := nextCluster_eq_ok.2 ⟨ha, rfl, rfl⟩
  unfold writeOn
  rw [nextCluster_withFree, Prog.run_bind, hrun, Res.ok_bind, Prog.touches_bind _ _ hrun, touches_nextCluster ha]
  dsimp only
  rw [if_pos hst, Prog.run_bind, hap, Res.ok_bind, Prog.touches_bind _ _ hap]
  exact ⟨rfl, _, rfl⟩

theorem appends_of_writeOn {r : Nat × Superblock × Inode} (hst : Iseof (fatNext sb d iter))
    (hr : (writeOn n fuel iter tot src (sb.withFree x h) ip).run d = .ok (r, d')) :
    ∃ a d₁, (appendCluster (sb.withFree x h) ip iter).run d = .ok (a, d₁) := by
  obtain ⟨next, d₁, hnx, hr⟩ := Prog.run_bind_eq_ok.1 hr
  obtain ⟨-, rfl, rfl⟩ := nextCluster_eq_ok.1 hnx
  rw [fatNext_withFree, if_pos hst] at hr
  obtain ⟨a, d₂, hap, -⟩ := Prog.run_bind_eq_ok.1 hr
  exact ⟨a, d₂, hap⟩

end

/-! ## All turns -/

/-- **The loop over the clusters**, from position `off + tot` in the `i`-th cluster on. -/
theorem writeClusters_spec (hv : VolumeOk sb) {n off p : Nat} : ∀ {fuel iter sN sO tot x h i : Nat}
    {src : List (BitVec 8)} {ip : Inode} {M : List Nat} {d d' : Nat → Sector}
    {r : Nat × Superblock × Inode}, FatChain sb d p M → M[i]? = some iter →
    i = min ((off + tot) / bytesPerCluster sb) (M.length - 1) → tot ≤ n →
    sN = (off + tot) % bytesPerCluster sb / 512 → sO = (off + tot) % bytesPerCluster sb % 512 →
    HintsOk sb d h (clustersFor sb (off + n) - M.length) M →
    (writeClusters n fuel iter sN sO tot src (sb.withFree x h) ip).run d = .ok (r, d') →
    ∃ k, k ≤ clustersFor sb (off + n) - M.length ∧ Wrote sb d d' p M x h n k ip r ∧
      ((off + tot) / bytesPerCluster sb < M.length →
        k = clustersFor sb (off + n) - M.length ∧
        Covers sb (M ++ List.range' h k) (off + tot) (off + n)
          ((writeClusters n fuel iter sN sO tot src (sb.withFree x h) ip).touches d))
  | 0, _, _, _, _, _, _, _, _, _, _, _, _, _, _, _, _, _, _, _, _, hr => by cases hr
  | fuel + 1, iter, sN, sO, tot, x, h, i, src, ip, M, d, d', r, hm, hi, hmin, ht, hsN, hsO, hk,
      hr => by
    have hic := hm.data iter (List.mem_of_getElem? hi)
    have hil : i < M.length := (List.getElem?_eq_some_iff.1 hi).1
    have hpos := hv.sectors.nextCluster_pos (off + tot)
    by_cases htn : tot < n
    · obtain ⟨src', T, hrun, htouch, hT⟩ := @writeClusters_turn sb n fuel iter tot x h src ip
        hv.sectors off sN sO (hic.not_iseof hv) htn hsN hsO d
      rw [hrun] at hr
      rw [htouch]
      by_cases hend : n ≤ tot + (bytesPerCluster sb - (off + tot) % bytesPerCluster sb)
      · -- the last cluster of the request
        rw [if_pos hend] at hr
        cases hr
        refine ⟨0, Nat.zero_le _, ⟨rfl, rfl, ⟨ip.clusterEnd, rfl⟩, .refl hm h⟩, fun hq => ⟨?_, ?_⟩⟩
        · have := clustersFor_le_of_last hv hq (show off + n ≤ _ by omega)
          omega
        · refine Covers.sectors hv hic ?_ (by omega) fun t h1 h2 h3 =>
            List.mem_append_left _ (hT t h1 h2 (by omega))
          rw [show (off + tot) / bytesPerCluster sb = i by omega]
          simpa using hi
      · -- the rest of the cluster, and on
        rw [if_neg hend] at hr ⊢
        obtain ⟨hq₁, hm₁⟩ := hv.sectors.nextCluster_start off tot
        have hcf : (off + tot) / bytesPerCluster sb + 1 < clustersFor sb (off + n) :=
          (lt_clustersFor hv).2 (by omega)
        have hacc := accepted_of_writeOn hr
        have hcov : ∀ {N T' : List Nat}, (off + tot) / bytesPerCluster sb < M.length →
            Covers sb (M ++ N) (off + (tot + (bytesPerCluster sb - (off + tot) % bytesPerCluster sb)))
              (off + n) T' →
            Covers sb (M ++ N) (off + tot) (off + n) (T ++ (thisFATEntSecNum sb iter :: T')) := by
          intro N T' hq hc
          rw [← Nat.add_assoc] at hc
          refine hc.turn hv hic ?_ hacc (by omega) fun t h1 h2 h3 => hT t h1 h2 (by omega)
          rw [show (off + tot) / bytesPerCluster sb = i by omega, List.getElem?_append_left hil, hi]
        generalize tot + (bytesPerCluster sb - (off + tot) % bytesPerCluster sb) = tot₁ at *
        by_cases hlast : i + 1 = M.length
        · have hst := hm.linked.stop_next hi hlast
          obtain ⟨a, d₁, hap⟩ := appends_of_writeOn hst hr
          obtain ⟨k₀, hk₀⟩ : ∃ k₀, clustersFor sb (off + n) - M.length = k₀ + 1 :=
            ⟨clustersFor sb (off + n) - M.length - 1, by omega⟩
          rw [hk₀] at hk ⊢
          obtain ⟨hr₁, T', htouch₁⟩ := writeOn_end hacc hst hap
          rw [hr₁] at hr
          rw [htouch₁]
          obtain ⟨rfl, happ, hk'⟩ := appendCluster_hits hv hm hi hlast hk hap
          have hm' : FatChain sb d₁ p (M ++ [h]) := happ.chain
          have hlen : (M ++ [h]).length = M.length + 1 := List.length_append
          obtain rfl : k₀ = clustersFor sb (off + n) - (M ++ [h]).length := by omega
          obtain ⟨k, hk₁, hw, hc⟩ := writeClusters_spec hv hm' (by simp)
            (show M.length = _ by omega) (by omega) (by rw [hm₁]) (by rw [hm₁]) hk' hr
          refine ⟨k + 1, by omega, hw.cons happ, fun hq => ?_⟩
          obtain ⟨rfl, hcv⟩ := hc (by rw [hq₁]; omega)
          refine ⟨rfl, hcov hq ?_⟩
          rw [List.range'_succ, ← List.singleton_append, ← List.append_assoc]
          exact hcv.mono fun b hb => List.mem_append_right _ hb
        · obtain ⟨nx, hnx⟩ : ∃ nx, M[i + 1]? = some nx :=
            ⟨_, List.getElem?_eq_getElem (by omega)⟩
          have hnd := hm.data nx (List.mem_of_getElem? hnx)
          obtain ⟨hr₁, htouch₁⟩ := writeOn_next hacc (hm.linked.next_eq hi hnx) (hnd.not_iseof hv)
          rw [hr₁] at hr
          rw [htouch₁]
          obtain ⟨k, hk₁, hw, hc⟩ := writeClusters_spec hv hm hnx (by omega) (by omega)
            (by rw [hm₁]) (by rw [hm₁]) hk hr
          refine ⟨k, hk₁, hw, fun hq => ?_⟩
          obtain ⟨hk₂, hc⟩ := hc (by omega)
          exact ⟨hk₂, hcov hq hc⟩
    · obtain rfl : tot = n := by omega
      rw [writeClusters, if_neg fun hh => htn hh.2] at hr
      cases hr
      refine ⟨0, Nat.zero_le _, ⟨rfl, rfl, ⟨ip.clusterEnd, rfl⟩, .refl hm h⟩,
        fun hq => ⟨?_, .nil _ _ _ hv⟩⟩
      have := clustersFor_le_of_last hv hq (show off + tot ≤ _ by omega)
      omega

end Fs
