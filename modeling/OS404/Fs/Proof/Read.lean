import OS404.Fs.Proof.Walk

/-!
# What a read delivers

`fat32_inode_read` goes through the sectors of the chain from `off` on. `chainData` are the bytes of
the chain, cluster after cluster; the read copies a slice of them.

* `inode_read_slice`: what `fat32_inode_read` returns and copies, for every offset and count.
* `inodeRead_run`: a read inside the file, with the sectors that it requests.
-/

namespace Fs

open Lib (Prog Linked)
open Driver (Sector)

variable {sb : Superblock} {d : Nat → Sector} {ip : Inode} {M : List Nat} {n off : Nat}

/-! ## The bytes of a chain -/

/-- Byte `y` of a cluster that starts at sector `first`. -/
def sectorByte (d : Nat → Sector) (first y : Nat) : BitVec 8 :=
  d (u32 (first + y / 512)) (BitVec.ofNat 9 (y % 512))

/-- The bytes of cluster `c`. -/
def clusterData (sb : Superblock) (d : Nat → Sector) (c : Nat) : List (BitVec 8) :=
  (List.range (bytesPerCluster sb)).map (sectorByte d (firstSectorofCluster sb c))

/-- The bytes of the clusters of `M`, one after the other. -/
def chainData (sb : Superblock) (d : Nat → Sector) (M : List Nat) : List (BitVec 8) :=
  M.flatMap (clusterData sb d)

theorem clusterData_length (c : Nat) : (clusterData sb d c).length = bytesPerCluster sb := by
  rw [clusterData, List.length_map, List.length_range]

theorem chainData_length : (chainData sb d M).length = M.length * bytesPerCluster sb := by
  induction M with
  | nil => exact (Nat.zero_mul _).symm
  | cons c M ih =>
    rw [chainData, List.flatMap_cons, List.length_append, clusterData_length, ← chainData, ih,
      List.length_cons, Nat.succ_mul, Nat.add_comm]

/-- A piece of a cluster. -/
theorem clusterData_slice {c r m : Nat} (hm : r + m ≤ bytesPerCluster sb) :
    ((clusterData sb d c).drop r).take m =
      (List.range m).map fun i => sectorByte d (firstSectorofCluster sb c) (r + i) := by
  unfold clusterData
  refine List.ext_getElem ?_ fun i h1 h2 => ?_
  · simp only [List.length_take, List.length_drop, List.length_map, List.length_range]
    omega
  · rw [List.getElem_take, List.getElem_drop, List.getElem_map, List.getElem_range, List.getElem_map,
      List.getElem_range]

/-- A piece of the chain that is in one cluster. -/
theorem chainData_cluster : ∀ {M : List Nat} {q c r m : Nat}, M[q]? = some c →
    r + m ≤ bytesPerCluster sb →
    ((chainData sb d M).drop (q * bytesPerCluster sb + r)).take m =
      ((clusterData sb d c).drop r).take m
  | [], q, _, _, _, h, _ => absurd h (by simp)
  | a :: M, 0, c, r, m, h, hm => by
    cases h
    have hl := @clusterData_length sb d a
    rw [chainData, List.flatMap_cons, Nat.zero_mul, Nat.zero_add,
      List.drop_append_of_le_length (by omega),
      List.take_append_of_le_length (by rw [List.length_drop]; omega)]
  | a :: M, q + 1, c, r, m, h, hm => by
    have hl := @clusterData_length sb d a
    rw [chainData, List.flatMap_cons, ← chainData,
      show (q + 1) * bytesPerCluster sb + r =
        (clusterData sb d a).length + (q * bytesPerCluster sb + r) by rw [hl, Nat.succ_mul]; omega,
      List.drop_length_add_append]
    exact chainData_cluster h hm

/-- The bytes from a position to at most the end of its cluster. -/
theorem chainData_slice (hs : SectorsOk sb) {P m c : Nat} (hP : M[P / bytesPerCluster sb]? = some c)
    (hm : m ≤ bytesPerCluster sb - P % bytesPerCluster sb) :
    ((chainData sb d M).drop P).take m = (List.range m).map fun i =>
      sectorByte d (firstSectorofCluster sb c) (P % bytesPerCluster sb + i) := by
  have hlt := Nat.mod_lt P hs.bytesPerCluster_pos
  have h := @chainData_cluster sb d M _ c (P % bytesPerCluster sb) m hP (by omega)
  rw [Nat.div_add_mod'] at h
  rw [h, clusterData_slice (by omega)]

/-! ## The loops -/

theorem sectorByte_at {first s y : Nat} (hy : y < 512) :
    sectorByte d first (s * 512 + y) = d (u32 (first + s)) (BitVec.ofNat 9 y) := by
  unfold sectorByte
  rw [show (s * 512 + y) / 512 = s by omega, show (s * 512 + y) % 512 = y by omega]

/-- The loop over the sectors of a cluster. -/
theorem readSectors_run {first : Nat} : ∀ {k s sO tot : Nat} {dst : List (BitVec 8)}, tot ≤ n →
    sO < 512 →
    (readSectors ip first n k s sO tot dst).run d = .ok ((if 0 < k ∧ tot < n then 0 else sO,
      min n (tot + (k * 512 - sO)), dst ++ (List.range (min (n - tot) (k * 512 - sO))).map fun i =>
        sectorByte d first (s * 512 + sO + i)), d)
  | 0, s, sO, tot, dst, ht, hs => by
    rw [if_neg (by simp), Nat.zero_mul, Nat.zero_sub, Nat.add_zero, Nat.min_eq_right ht, Nat.min_zero,
      List.range_zero, List.map_nil, List.append_nil]
    rfl
  | k + 1, s, sO, tot, dst, ht, hs => by
    by_cases htn : tot < n
    · obtain ⟨m, hm⟩ : ∃ m, min (512 - sO) (n - tot) = m := ⟨_, rfl⟩
      have hw : readSectors ip first n (k + 1) s sO tot dst =
          (readSector ip.iDev (u32 (first + s)) >>= fun d =>
            readSectors ip first n k (s + 1) 0 (tot + m)
              (dst ++ (List.range m).map fun i => d (BitVec.ofNat 9 (sO + i)))) := by
        rw [readSectors, if_pos htn, ← hm]
        rfl
      have hsector : m ≤ 512 - sO := hm ▸ Nat.min_le_left ..
      have hleft : m ≤ n - tot := hm ▸ Nat.min_le_right ..
      have htot : tot + m ≤ n := by omega
      -- the bytes of this sector, and those of the next ones
      have hhere : ∀ i ∈ List.range m,
          d (u32 (first + s)) (BitVec.ofNat 9 (sO + i)) = sectorByte d first (s * 512 + sO + i) := by
        intro i hi
        have hi := List.mem_range.1 hi
        rw [Nat.add_assoc, sectorByte_at (by omega)]
      have hnext : ∀ i ∈ List.range (min (n - (tot + m)) (k * 512)),
          sectorByte d first ((s + 1) * 512 + 0 + i) = sectorByte d first (s * 512 + sO + (m + i)) := by
        intro i hi
        have hmore : 0 < n - (tot + m) :=
          Nat.lt_of_lt_of_le (Nat.zero_lt_of_lt (List.mem_range.1 hi)) (Nat.min_le_left ..)
        have hfull : 512 - sO = m := by
          rw [← hm, Nat.min_eq_left]
          by_contra hlt
          rw [Nat.min_eq_right (by omega)] at hm
          omega
        rw [show (s + 1) * 512 + 0 + i = s * 512 + sO + (m + i) by omega]
      rw [hw, Prog.run_bind, readSector, Prog.run_get, Res.ok_bind,
        readSectors_run (k := k) (s := s + 1) htot (by decide), Nat.sub_zero, min_sectors ht hs hm,
        min_sector hs hm, ite_self, if_pos ⟨Nat.succ_pos k, htn⟩, List.range_add, List.map_append,
        List.map_map, List.append_assoc, List.map_congr_left hhere, List.map_congr_left hnext]
      rfl
    · rw [readSectors, if_neg htn, if_neg (fun h => htn h.2),
        Nat.min_eq_left (Nat.le_trans (Nat.not_lt.1 htn) (Nat.le_add_right ..)),
        Nat.le_antisymm ht (Nat.not_lt.1 htn), Nat.sub_self, Nat.zero_min, List.range_zero,
        List.map_nil, List.append_nil]
      rfl

theorem readSectors_touches {first : Nat} : ∀ {k s sO tot : Nat} {dst : List (BitVec 8)} {b : Nat},
    sO < 512 → b ∈ (readSectors ip first n k s sO tot dst).touches d →
    ∃ t, s ≤ t ∧ t < s + k ∧ t * 512 < s * 512 + sO + (n - tot) ∧ b = u32 (first + t)
  | 0, s, sO, tot, dst, b, _, hb => absurd hb List.not_mem_nil
  | k + 1, s, sO, tot, dst, b, hs, hb => by
    have h512 : bufferSize = 512 := rfl
    unfold readSectors at hb
    split at hb
    next htn =>
      rcases List.mem_cons.1 hb with rfl | hb
      · exact ⟨s, Nat.le_refl s, by omega, by omega, rfl⟩
      · obtain ⟨t, h1, h2, h3, rfl⟩ := readSectors_touches (k := k) (by decide) hb
        have h4 : n - (tot + min (bufferSize - sO) (n - tot)) = 0 ∨
            n - (tot + min (bufferSize - sO) (n - tot)) + bufferSize = n - tot + sO := by omega
        refine ⟨t, by omega, by omega, ?_, rfl⟩
        rcases h4 with h4 | h4
        · rw [h4, Nat.add_zero, Nat.add_zero] at h3
          have := Nat.lt_of_mul_lt_mul_right h3
          omega
        · rw [Nat.succ_mul, Nat.add_zero] at h3
          omega
    next => exact absurd hb List.not_mem_nil

/-- One iteration of the loop over the clusters. -/
theorem readClusters_succ {fuel iter sN sO tot : Nat} {dst : List (BitVec 8)} (hi : ¬ Iseof iter)
    (ht : tot < n) :
    readClusters sb ip n (fuel + 1) iter sN sO tot dst =
      (readSectors ip (firstSectorofCluster sb iter) n (sb.sectorsPerBlock - sN) sN sO tot dst >>=
        fun r => if r.2.1 = n then pure (r.2.1, r.2.2) else
          fat32NextCluster sb iter >>= fun next =>
            readClusters sb ip n fuel next 0 r.1 r.2.1 r.2.2) := by
  rw [readClusters, if_pos ⟨hi, ht⟩]

theorem mod_add_eq {P i : Nat} (hi : i < bytesPerCluster sb - P % bytesPerCluster sb) :
    (P + i) % bytesPerCluster sb = P % bytesPerCluster sb + i := by
  rw [← Nat.mod_add_mod, Nat.mod_eq_of_lt (by omega)]

/-- A position in sector `t` of the cluster, from position `P` on. -/
theorem exists_position {P m t : Nat} (hm : 0 < m) (h1 : P % bytesPerCluster sb / 512 ≤ t)
    (h2 : t < sb.sectorsPerBlock) (h3 : t * 512 < P % bytesPerCluster sb + m) :
    ∃ i, i < m ∧ i < bytesPerCluster sb - P % bytesPerCluster sb ∧
      (P + i) % bytesPerCluster sb / 512 = t := by
  have hcs : bytesPerCluster sb = 512 * sb.sectorsPerBlock := rfl
  have hlt : P % bytesPerCluster sb < bytesPerCluster sb := Nat.mod_lt _ (by omega)
  have hi : t * 512 - P % bytesPerCluster sb < bytesPerCluster sb - P % bytesPerCluster sb := by omega
  refine ⟨t * 512 - P % bytesPerCluster sb, by omega, hi, ?_⟩
  rw [mod_add_eq hi]
  omega

/-- A read of the positions from `P` to `Q` of the chain `M` finds its way, and the sectors that it
requests satisfy `T`. -/
structure Passable (sb : Superblock) (M : List Nat) (P Q : Nat) (T : Nat → Prop) : Prop where
  data : ∀ x, P ≤ x → x < Q → ∃ c, M[x / bytesPerCluster sb]? = some c ∧
    T (u32 (firstSectorofCluster sb c + x % bytesPerCluster sb / 512))
  next : ∀ j, P / bytesPerCluster sb ≤ j → (j + 1) * bytesPerCluster sb < Q →
    ∃ c, M[j]? = some c ∧ Accepted sb c ∧ T (thisFATEntSecNum sb c)

variable {T : Nat → Prop}

theorem Passable.drop {P P' Q : Nat} (h : Passable sb M P Q T) (hP : P ≤ P') :
    Passable sb M P' Q T where
  data x h1 h2 := h.data x (by omega) h2
  next j h1 h2 := h.next j (Nat.le_trans (Nat.div_le_div_right hP) h1) h2

/-- The loop over the sectors of the cluster with position `off + tot`. -/
theorem readSectors_slice (hs : SectorsOk sb) {iter sN sO tot : Nat} {dst : List (BitVec 8)}
    (hi : M[(off + tot) / bytesPerCluster sb]? = some iter) (ht : tot < n)
    (hsN : sN = (off + tot) % bytesPerCluster sb / 512)
    (hsO : sO = (off + tot) % bytesPerCluster sb % 512) :
    (readSectors ip (firstSectorofCluster sb iter) n (sb.sectorsPerBlock - sN) sN sO tot dst).run d =
      .ok ((0, min n (tot + (bytesPerCluster sb - (off + tot) % bytesPerCluster sb)),
        dst ++ ((chainData sb d M).drop (off + tot)).take
          (min (n - tot) (bytesPerCluster sb - (off + tot) % bytesPerCluster sb))), d) := by
  have hsec := hs.sector_lt (off + tot)
  have hrest := hs.clusterRest_eq (off + tot)
  rw [← hsN, ← hsO] at hrest
  have hpos : sN * 512 + sO = (off + tot) % bytesPerCluster sb := by omega
  have h := @readSectors_run d ip n (firstSectorofCluster sb iter) (sb.sectorsPerBlock - sN) sN
    sO tot dst (Nat.le_of_lt ht) (hsO ▸ Nat.mod_lt _ (by decide))
  rw [if_pos ⟨by omega, ht⟩, hrest, hpos] at h
  rw [h, chainData_slice hs hi (Nat.min_le_right ..)]

theorem readSectors_passable (hs : SectorsOk sb) {iter sN sO tot b : Nat} {dst : List (BitVec 8)}
    (hi : M[(off + tot) / bytesPerCluster sb]? = some iter) (ht : tot < n)
    (hsN : sN = (off + tot) % bytesPerCluster sb / 512)
    (hsO : sO = (off + tot) % bytesPerCluster sb % 512)
    (hp : Passable sb M (off + tot) (off + n) T)
    (hb : b ∈ (readSectors ip (firstSectorofCluster sb iter) n (sb.sectorsPerBlock - sN) sN sO tot
      dst).touches d) : T b := by
  obtain ⟨t, h1, h2, h3, rfl⟩ := readSectors_touches (hsO ▸ Nat.mod_lt _ (by decide)) hb
  have hsec := hs.sector_lt (off + tot)
  rw [show sN * 512 + sO = (off + tot) % bytesPerCluster sb by omega] at h3
  obtain ⟨i, hi1, hi2, rfl⟩ := exists_position (Nat.sub_pos_of_lt ht) (hsN ▸ h1)
    (show t < sb.sectorsPerBlock by omega) h3
  obtain ⟨c, hc, hT⟩ := hp.data (off + tot + i) (by omega) (by omega)
  rw [hs.div_eq_of_lt_next (Nat.le_add_right ..) (by omega), hi] at hc
  cases hc
  exact hT

/-- **The loop over the clusters.** -/
theorem readClusters_run (hs : SectorsOk sb) {p : Nat} (hm : Linked Iseof (fatNext sb d) p M) :
    ∀ {fuel iter sN sO tot : Nat} {dst : List (BitVec 8)},
    (tot < n → M[(off + tot) / bytesPerCluster sb]? = some iter) → tot ≤ n → n - tot < fuel →
    sN = (off + tot) % bytesPerCluster sb / 512 → sO = (off + tot) % bytesPerCluster sb % 512 →
    Passable sb M (off + tot) (off + n) T →
    (readClusters sb ip n fuel iter sN sO tot dst).run d =
        .ok ((n, dst ++ ((chainData sb d M).drop (off + tot)).take (n - tot)), d) ∧
      ∀ b ∈ (readClusters sb ip n fuel iter sN sO tot dst).touches d, T b
  | 0, _, _, _, _, _, _, _, hf, _, _, _ => by omega
  | fuel + 1, iter, sN, sO, tot, dst, hi, ht, hf, hsN, hsO, hp => by
    by_cases htn : tot < n
    · have hi := hi htn
      have hsec := @readSectors_slice sb d ip M n off hs iter sN sO tot dst hi htn hsN hsO
      have htouch : ∀ b ∈ (readSectors ip (firstSectorofCluster sb iter) n (sb.sectorsPerBlock - sN)
          sN sO tot dst).touches d, T b := fun b hb => readSectors_passable hs hi htn hsN hsO hp hb
      have hpn := hs.nextCluster_pos (off + tot)
      have hlt := Nat.mod_lt (off + tot) hs.bytesPerCluster_pos
      rw [readClusters_succ (hm.not_stop iter (List.mem_of_getElem? hi)) htn,
        Prog.touches_bind _ _ hsec, Prog.run_bind, hsec, Res.ok_bind]
      dsimp only
      by_cases hend : n - tot ≤ bytesPerCluster sb - (off + tot) % bytesPerCluster sb
      · rw [Nat.min_eq_left hend, Nat.min_eq_left (by omega), if_pos rfl]
        refine ⟨rfl, fun b hb => ?_⟩
        rcases List.mem_append.1 hb with hb | hb
        · exact htouch b hb
        · exact absurd hb List.not_mem_nil
      · obtain ⟨hq₁, hm₁⟩ := hs.nextCluster_start off tot
        generalize hrst : bytesPerCluster sb - (off + tot) % bytesPerCluster sb = rest at *
        rw [Nat.min_eq_right (by omega), Nat.min_eq_right (by omega), if_neg (by omega)]
        obtain ⟨c, hc, hacc, hTc⟩ := hp.next _ (Nat.le_refl _) (by omega)
        obtain rfl : iter = c := Option.some.inj (hi.symm.trans hc)
        obtain ⟨nx, hnx, -⟩ := hp.data (off + (tot + rest)) (by omega) (by omega)
        have hnn := hm.next_eq hi (hq₁ ▸ hnx)
        have hrun := @run_nextCluster sb d iter
        rw [if_pos hacc, hnn] at hrun
        rw [Prog.run_bind, hrun, Res.ok_bind, Prog.touches_bind _ _ hrun, touches_nextCluster hacc]
        obtain ⟨hr, htc⟩ := @readClusters_run hs p hm fuel nx 0 0 (tot + rest)
          (dst ++ ((chainData sb d M).drop (off + tot)).take rest) (fun _ => hnx) (by omega)
          (by omega) (by rw [hm₁]) (by rw [hm₁]) (hp.drop (by omega))
        refine ⟨?_, fun b hb => ?_⟩
        · rw [hr, List.append_assoc, show n - tot = rest + (n - (tot + rest)) by omega, List.take_add,
            List.drop_drop, Nat.add_assoc]
        · rcases List.mem_append.1 hb with hb | hb
          · exact htouch b hb
          · rcases List.mem_cons.1 hb with rfl | hb
            · exact hTc
            · exact htc b hb
    · obtain rfl : tot = n := by omega
      rw [readClusters, if_neg fun h => htn h.2, Nat.sub_self, List.take_zero, List.append_nil]
      exact ⟨rfl, fun b hb => absurd hb List.not_mem_nil⟩

/-! ## `fat32_inode_read` -/

/-- **A read inside the file.** -/
theorem inodeRead_run (hs : SectorsOk sb) (hm : Linked Iseof (fatNext sb d) ip.clusterStart M)
    (hM : M ≠ []) (hq : 0 < n → off / bytesPerCluster sb < M.length) (hn : off + n < 2 ^ 32)
    (hsize : off + n ≤ ip.iSize)
    (hacc : ∀ c ∈ M.take (off / bytesPerCluster sb), Accepted sb c ∧ T (thisFATEntSecNum sb c))
    (hp : Passable sb M off (off + n) T) :
    (fat32InodeRead sb ip off n).run d = .ok ((n, ((chainData sb d M).drop off).take n), d) ∧
      ∀ b ∈ (fat32InodeRead sb ip off n).touches d, T b := by
  have hall : AllAccepted sb (M.take (off / bytesPerCluster sb)) := fun c hc => (hacc c hc).1
  obtain ⟨iter, hi, htr⟩ := travel_run (Nat.succ_pos (off / bytesPerCluster sb)) hM hm
    (Nat.min_le_left ..)
  rw [Nat.succ_sub_one, if_pos hall] at htr
  have htt := travel_touches (Nat.succ_pos (off / bytesPerCluster sb)) hm hall
  obtain ⟨hr, htc⟩ := @readClusters_run sb d ip M n off T hs _ hm (n + 1) iter _ _ 0 []
    (fun h => by rw [← hi, Nat.add_zero, Nat.succ_sub_one, Nat.min_eq_left (Nat.le_sub_one_of_lt (hq h))])
    (Nat.zero_le n) (by omega) rfl rfl hp
  unfold fat32InodeRead
  rw [u32_of_lt hn, if_neg (by omega), if_neg (by omega), hs.cNumOff_eq (by omega),
    hs.logisticSNum_eq, hs.logisticSOffset_eq]
  refine ⟨?_, fun b hb => ?_⟩
  · rw [Prog.run_bind, htr, Res.ok_bind]
    exact hr
  · rw [Prog.touches_bind _ _ htr, htt] at hb
    rcases List.mem_append.1 hb with hb | hb
    · obtain ⟨c, hc, rfl⟩ := List.mem_map.1 hb
      exact (hacc c hc).2
    · exact htc b hb

/-- The number of bytes that a read of `n` bytes at `off` delivers. -/
def readCount (ip : Inode) (off n : Nat) : Nat :=
  if ip.iSize < off then 0 else min n (ip.iSize - off)

/-- The chain of a file that starts at `p`; that of an empty file starts at 0. -/
def FileChain (sb : Superblock) (d : Nat → Sector) (p : Nat) (L : List Nat) : Prop :=
  Linked Iseof (fatNext sb d) p L ∨ p = 0 ∧ L = []

/-- The check at the start cuts `n`. -/
theorem inodeRead_cut (hn : off + n < 2 ^ 32) (hoff : off ≤ ip.iSize) :
    fat32InodeRead sb ip off n = fat32InodeRead sb ip off (readCount ip off n) := by
  have hc : readCount ip off n = min n (ip.iSize - off) := if_neg (Nat.not_lt.2 hoff)
  rw [hc]
  have h1 : ¬ (ip.iSize < off ∨ off + n < off) := by omega
  have h2 : ¬ (ip.iSize < off ∨ off + min n (ip.iSize - off) < off) := by omega
  have h3 : ¬ ip.iSize < off + min n (ip.iSize - off) := by omega
  have h4 : (if ip.iSize < off + n then ip.iSize - off else n) = min n (ip.iSize - off) := by
    split <;> omega
  unfold fat32InodeRead
  rw [u32_of_lt hn, u32_of_lt (show off + min n (ip.iSize - off) < 2 ^ 32 by omega),
    if_neg h1, if_neg h2, if_neg h3, h4]

/-- A read of no bytes at the start looks at nothing. -/
theorem inodeRead_zero (hs : SectorsOk sb) : (fat32InodeRead sb ip 0 0).run d = .ok ((0, []), d) := by
  have htr : ∃ r, (fat32FatTravel sb 1 ip 1).run d = .ok (r, d) := by
    unfold fat32FatTravel travelLoop
    split
    · exact ⟨_, rfl⟩
    · exact ⟨_, rfl⟩
  obtain ⟨⟨iter, ip'⟩, hr⟩ := htr
  unfold fat32InodeRead
  rw [u32_of_lt (by decide), if_neg (by omega), if_neg (by omega), hs.cNumOff_eq (by decide),
    Nat.zero_div, Prog.run_bind, hr, Res.ok_bind]
  dsimp only
  unfold readClusters
  rw [if_neg (by omega)]
  rfl

theorem passable_of_accepted (hs : SectorsOk sb) (hacc : AllAccepted sb M) {P Q : Nat}
    (hQ : Q ≤ M.length * bytesPerCluster sb) : Passable sb M P Q fun _ => True where
  data x _ hx := by
    have hlt : x / bytesPerCluster sb < M.length :=
      (Nat.div_lt_iff_lt_mul hs.bytesPerCluster_pos).2 (by omega)
    exact ⟨_, List.getElem?_eq_getElem hlt, trivial⟩
  next j _ hj := by
    have hlt : j < M.length := by
      have := Nat.lt_of_mul_lt_mul_right (Nat.lt_of_lt_of_le hj hQ)
      omega
    exact ⟨_, List.getElem?_eq_getElem hlt, hacc _ (List.getElem_mem hlt), trivial⟩

/-- A read that starts inside the file stops at its end. -/
theorem inodeRead_within {L : List Nat} (hs : SectorsOk sb) (hc : FileChain sb d ip.clusterStart L)
    (hacc : AllAccepted sb L) (hsize : ip.iSize ≤ L.length * bytesPerCluster sb)
    (hn : off + n < 2 ^ 32) (hoff : off ≤ ip.iSize) :
    (fat32InodeRead sb ip off n).run d =
      .ok ((readCount ip off n, ((chainData sb d L).drop off).take (readCount ip off n)), d) := by
  have hcount : readCount ip off n = min n (ip.iSize - off) := if_neg (Nat.not_lt.2 hoff)
  rw [inodeRead_cut hn hoff]
  by_cases hL : L = []
  · -- an empty file, with size 0
    subst hL
    rw [List.length_nil, Nat.zero_mul] at hsize
    obtain rfl : off = 0 := by omega
    rw [show readCount ip 0 n = 0 by omega]
    exact inodeRead_zero hs
  · have hl := hc.resolve_right fun h => hL h.2
    refine (inodeRead_run hs hl hL (fun hpos => ?_) (by omega) (by omega) (fun c hcm => ?_)
      (passable_of_accepted hs hacc (by omega))).1
    · exact (Nat.div_lt_iff_lt_mul hs.bytesPerCluster_pos).2 (by omega)
    · exact ⟨hacc c (List.mem_of_mem_take hcm), trivial⟩

/-- The file in three clusters, with the number of each data sector in all its bytes. -/
def threeData (b : Nat) : Sector := if b = 8 then threeDisk 8 else fun _ => BitVec.ofNat 8 b

theorem readSectors_count {first : Nat} : ∀ {k s sO tot : Nat} {dst : List (BitVec 8)}
    {d d' : Nat → Sector} {r : Nat × Nat × List (BitVec 8)}, dst.length = tot → tot ≤ n →
    (readSectors ip first n k s sO tot dst).run d = .ok (r, d') →
    r.2.2.length = r.2.1 ∧ r.2.1 ≤ n
  | 0, _, _, _, _, _, _, _, hl, ht, h => by
    cases h
    exact ⟨hl, ht⟩
  | k + 1, s, sO, tot, dst, d, d', r, hl, ht, h => by
    unfold readSectors at h
    split at h
    · obtain ⟨v, d₁, -, h⟩ := Prog.run_bind_eq_ok.1 h
      refine readSectors_count ?_ ?_ h
      · rw [List.length_append, List.length_map, List.length_range, hl]
      · omega
    · cases h
      exact ⟨hl, ht⟩

theorem readClusters_count : ∀ {fuel iter sN sO tot : Nat} {dst : List (BitVec 8)}
    {d d' : Nat → Sector} {r : Nat × List (BitVec 8)}, dst.length = tot → tot ≤ n →
    (readClusters sb ip n fuel iter sN sO tot dst).run d = .ok (r, d') →
    r.2.length = r.1 ∧ r.1 ≤ n
  | 0, _, _, _, _, _, _, _, _, _, _, h => by cases h
  | fuel + 1, iter, sN, sO, tot, dst, d, d', r, hl, ht, h => by
    unfold readClusters at h
    split at h
    · obtain ⟨⟨sO₁, tot₁, dst₁⟩, d₁, hsec, h⟩ := Prog.run_bind_eq_ok.1 h
      have hcount := readSectors_count hl ht hsec
      dsimp only at hcount h
      split at h
      · cases h
        exact hcount
      · obtain ⟨next, d₂, -, h⟩ := Prog.run_bind_eq_ok.1 h
        exact readClusters_count hcount.1 hcount.2 h
    · cases h
      exact ⟨hl, ht⟩

/-- A read returns the number of bytes that it copies, and copies no more than it was asked for. -/
theorem inodeRead_count {d' : Nat → Sector} {r : Nat} {dst : List (BitVec 8)}
    (h : (fat32InodeRead sb ip off n).run d = .ok ((r, dst), d')) : dst.length = r ∧ r ≤ n := by
  unfold fat32InodeRead at h
  split at h
  · cases h
    exact ⟨rfl, Nat.zero_le n⟩
  · rename_i hoff
    obtain ⟨x, d₁, -, h⟩ := Prog.run_bind_eq_ok.1 h
    obtain ⟨hlen, hle⟩ := readClusters_count List.length_nil (Nat.zero_le _) h
    refine ⟨hlen, hle.trans ?_⟩
    have hmod := Nat.mod_le (off + n) (2 ^ 32)
    unfold u32 at *
    split <;> omega

end Fs
