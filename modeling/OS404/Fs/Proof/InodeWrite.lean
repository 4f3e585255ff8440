import OS404.Fs.Proof.Write
import OS404.Fs.System

/-!
# `fat32_inode_write`

* `inodeWrite_chain`: a write to a file with a chain leaves the data of its clusters alone, appends
  the clusters that are missing and stores the directory entry.
* `inodeWrite_empty`: a write to a file whose first cluster is 0 never gives it a chain.
* `write_admission`: for which requests the checks at the start do what one expects. Their limit is a
  32-bit product.
-/

namespace Fs

open Lib (Prog Linked)
open Driver (Sector)

variable {sb : Superblock} {d d' : Nat → Sector} {L : List Nat} {ip : Inode} {off n : Nat}
  {src : List (BitVec 8)} {r : Nat × Superblock × Inode}

/-- The most clusters that `fat32_inode_write(ip, .., off, n)` appends. -/
def writeNeeds (sb : Superblock) (ip : Inode) (off n : Nat) : Nat :=
  max (off / bytesPerCluster sb + 1) (clustersFor sb (off + n)) - ip.clusterCnt

theorem HintsOk.mono {h k k' : Nat} {M : List Nat} (hk : HintsOk sb d h k M) (hle : k' ≤ k) :
    HintsOk sb d h k' M :=
  fun j hj => hk j (Nat.lt_of_lt_of_le hj hle)

/-- The parts of a write that is accepted. -/
theorem inodeWrite_parts (ha : writeAccepts sb ip off n = true)
    (hr : (fat32InodeWrite sb ip src off n).run d = .ok (r, d')) :
    ∃ t d₁ a d₂ w d₃,
      (fat32FatTravel sb (u32 (logisticCNum sb off + 1)) ip (u32 (logisticCNum sb off + 1))).run d =
        .ok (t, d₁) ∧
      (if t.2.clusterCnt < u32 (logisticCNum sb off + 1) then appendCluster sb t.2 t.1
        else pure (t.1, sb, t.2) : FsProg (Nat × Superblock × Inode)).run d₁ = .ok (a, d₂) ∧
      (writeClusters n (n + 1) a.1 (logisticSNum a.2.1 off) (logisticSOffset a.2.1 off) 0 src a.2.1
        a.2.2).run d₂ = .ok (w, d₃) ∧
      (fat32InodeUpdate w.2.1 { w.2.2 with iSize := sizeAfter w.2.1 w.2.2 off n w.1 }).run d₃ =
        .ok ((), d') ∧
      r = (w.1, w.2.1, { w.2.2 with iSize := sizeAfter w.2.1 w.2.2 off n w.1 }) ∧
      ∀ b, b ∈ (fat32FatTravel sb (u32 (logisticCNum sb off + 1)) ip
          (u32 (logisticCNum sb off + 1))).touches d ∨
        b ∈ (writeClusters n (n + 1) a.1 (logisticSNum a.2.1 off) (logisticSOffset a.2.1 off) 0 src
          a.2.1 a.2.2).touches d₂ →
        b ∈ (fat32InodeWrite sb ip src off n).touches d := by
  unfold fat32InodeWrite at hr ⊢
  rw [if_pos ha] at hr ⊢
  obtain ⟨t, d₁, ht, hr⟩ := Prog.run_bind_eq_ok.1 hr
  obtain ⟨a, d₂, haa, hr⟩ := Prog.run_bind_eq_ok.1 hr
  obtain ⟨w, d₃, hw, hr⟩ := Prog.run_bind_eq_ok.1 hr
  obtain ⟨u, d₄, hu, hr⟩ := Prog.run_bind_eq_ok.1 hr
  cases hr
  refine ⟨t, d₁, a, d₂, w, d₃, ht, haa, hw, hu, rfl, fun b hb => ?_⟩
  rw [Prog.touches_bind _ _ ht, List.mem_append]
  rcases hb with hb | hb
  · exact .inl hb
  · right
    rw [Prog.touches_bind _ _ haa, List.mem_append]
    right
    rw [Prog.touches_bind _ _ hw, List.mem_append]
    exact .inl hb

/-- The cluster in which a write starts, which may be a new one. -/
theorem firstCluster_spec (hv : VolumeOk sb) {q iter m : Nat} {a : Nat × Superblock × Inode}
    {p : Nat} (hc : FatChain sb d p L) (hcnt : ip.clusterCnt = L.length)
    (hi : L[min q (L.length - 1)]? = some iter)
    (hk : HintsOk sb d sb.nxtFree (max (q + 1) m - ip.clusterCnt) L)
    (hr : (if ip.clusterCnt < q + 1 then appendCluster sb ip iter else pure (iter, sb, ip) :
      FsProg (Nat × Superblock × Inode)).run d = .ok (a, d')) :
    ∃ j e iter', Appended sb d d' p L sb.nxtFree j ∧
      a = (iter', sb.withFree (sb.freeCount - j) (sb.nxtFree + j),
        { ip with clusterCnt := ip.clusterCnt + j, clusterEnd := e }) ∧
      (L ++ List.range' sb.nxtFree j)[min q (L.length + j - 1)]? = some iter' ∧
      HintsOk sb d' (sb.nxtFree + j) (m - (L.length + j)) (L ++ List.range' sb.nxtFree j) ∧
      j ≤ q + 1 - L.length ∧ (q ≤ L.length → q < L.length + j) := by
  rw [hcnt] at hk
  have hil : min q (L.length - 1) < L.length := (List.getElem?_eq_some_iff.1 hi).1
  split at hr
  next hlt =>
    have hlast : min q (L.length - 1) + 1 = L.length := by omega
    have hk' : HintsOk sb d sb.nxtFree (m - (L.length + 1) + 1) L := hk.mono (by omega)
    obtain ⟨rfl, happ, hk₁⟩ := appendCluster_hits (x := sb.freeCount) hv hc hi hlast hk' hr
    refine ⟨1, sb.nxtFree, sb.nxtFree, happ, rfl, ?_, hk₁, ?_, ?_⟩
    · rw [show min q (L.length + 1 - 1) = L.length by omega]
      simp
    · omega
    · omega
  next hge =>
    cases hr
    refine ⟨0, ip.clusterEnd, iter, .refl hc _, rfl, ?_, ?_, ?_, ?_⟩
    · simpa using hi
    · simpa using hk.mono (by omega)
    · omega
    · omega

/-- A chain of `l` clusters gets `j` clusters up to number `q`, and `k` more up to `c` clusters. -/
theorem needs_le {q c l j k : Nat} (hj : j ≤ q + 1 - l) (hk : k ≤ c - (l + j)) :
    j + k ≤ max (q + 1) c - l := by
  obtain hle | hle := Nat.le_total c (l + j)
  · have hq : q + 1 ≤ max (q + 1) c := Nat.le_max_left ..
    omega
  · have hc : c ≤ max (q + 1) c := Nat.le_max_right ..
    omega

theorem needs_eq {q c l j : Nat} (hj : j ≤ q + 1 - l) (hq : q < l + j) :
    j + (c - (l + j)) = max (q + 1) c - l := by
  obtain hle | hle := Nat.le_total c (q + 1)
  · rw [Nat.max_eq_left hle]
    omega
  · rw [Nat.max_eq_right hle]
    omega

/-- **A write to a file with a chain.** -/
theorem inodeWrite_chain (hv : VolumeOk sb) (hL : L ≠ []) (hc : FatChain sb d ip.clusterStart L)
    (hcnt : ip.clusterCnt = L.length) (hoff : off < 2 ^ 32)
    (hk : HintsOk sb d sb.nxtFree (writeNeeds sb ip off n) L)
    (ha : writeAccepts sb ip off n = true)
    (hr : (fat32InodeWrite sb ip src off n).run d = .ok (r, d')) :
    ∃ k e d₁ ip', k ≤ writeNeeds sb ip off n ∧
      Appended sb d d₁ ip.clusterStart L sb.nxtFree k ∧
      ip' = { ip with
        clusterCnt := ip.clusterCnt + k, clusterEnd := e, iSize := sizeAfter sb ip off n n } ∧
      r = (n, sb.withFree (sb.freeCount - k) (sb.nxtFree + k), ip') ∧
      (fat32InodeUpdate sb ip').run d₁ = .ok ((), d') ∧
      (∀ c ∈ L.take (off / bytesPerCluster sb), Accepted sb c ∧
        thisFATEntSecNum sb c ∈ (fat32InodeWrite sb ip src off n).touches d) ∧
      (off / bytesPerCluster sb ≤ L.length →
        k = writeNeeds sb ip off n ∧
        Covers sb (L ++ List.range' sb.nxtFree k) off (off + n)
          ((fat32InodeWrite sb ip src off n).touches d)) := by
  obtain ⟨t, d₁, a, d₂, w, d₃, ht, haa, hw, hu, rfl, hT⟩ := inodeWrite_parts ha hr
  rw [hv.sectors.cNumOff_eq hoff] at ht haa hT
  have hlen : 0 < L.length := List.length_pos_of_ne_nil hL
  obtain ⟨iter, hi, htr⟩ := travel_run (Nat.succ_pos (off / bytesPerCluster sb)) hL hc.linked (Nat.min_le_left ..)
  rw [htr] at ht
  split at ht
  next hacc =>
    cases ht
    have htr' := travel_touches (Nat.succ_pos (off / bytesPerCluster sb)) hc.linked hacc
    obtain ⟨j, e, iter', hap, rfl, hi', hk', hj, hq⟩ :=
      firstCluster_spec hv hc hcnt hi hk haa
    have hml : (L ++ List.range' sb.nxtFree j).length = L.length + j := by simp
    rw [← hml] at hi' hk'
    obtain ⟨k, hk₁, hwr, hcv⟩ := @writeClusters_spec sb hv n off _ _ _ _ _ 0 _ _ _ _ _ _ _ _ _
      hap.chain hi' rfl (Nat.zero_le n) (hv.sectors.logisticSNum_eq off) (hv.sectors.logisticSOffset_eq off) hk' hw
    rw [hml] at hk₁ hcv
    obtain ⟨e', he'⟩ := hwr.inode
    have hsup : w.2.1 = sb.withFree (sb.freeCount - (j + k)) (sb.nxtFree + (j + k)) := by
      rw [hwr.super, Nat.sub_sub, Nat.add_assoc]
    have hmax : max (off / bytesPerCluster sb + 1) (clustersFor sb (off + n)) - L.length =
      writeNeeds sb ip off n := by rw [writeNeeds, hcnt]
    rw [hsup, hwr.count, he'] at hu
    refine ⟨j + k, e', d₃, _, ?_, hap.trans hwr.appended, ?_, ?_, hu, fun c hcm => ?_,
      fun hql => ?_⟩
    · rw [← hmax]
      exact needs_le hj hk₁
    · dsimp only
      rw [Nat.add_assoc]
      rfl
    · rw [hsup, hwr.count, he']
    · refine ⟨hacc c hcm, hT _ (.inl ?_)⟩
      rw [htr']
      exact List.mem_map_of_mem hcm
    · obtain ⟨hk₂, hcv⟩ := hcv (by have := hq hql; simpa using this)
      refine ⟨by rw [hk₂, ← hmax]; exact needs_eq hj (hq hql), ?_⟩
      rw [List.append_assoc, List.range'_append_1] at hcv
      exact hcv.mono fun b hb => hT b (.inr hb)
  next => cases ht

/-! ## Inside the chain -/

/-- The loop over the clusters appends none when the chain has room for the request. -/
theorem writeClusters_inside (hs : SectorsOk sb) {p : Nat} (hl : Linked Iseof (fatNext sb d) p L)
    (hacc : AllAccepted sb L) (hroom : off + n ≤ L.length * bytesPerCluster sb) :
    ∀ {fuel iter sN sO tot : Nat} {src : List (BitVec 8)},
    L[(off + tot) / bytesPerCluster sb]? = some iter → tot < n → n - tot < fuel →
    sN = (off + tot) % bytesPerCluster sb / 512 → sO = (off + tot) % bytesPerCluster sb % 512 →
    (writeClusters n fuel iter sN sO tot src sb ip).run d = .ok ((n, sb, ip), d)
  | 0, _, _, _, _, _, _, _, hf, _, _ => by omega
  | fuel + 1, iter, sN, sO, tot, src, hi, ht, hf, hsN, hsO => by
    have hmem := List.mem_of_getElem? hi
    obtain ⟨src', -, hrun, -, -⟩ := @writeClusters_turn sb n fuel iter tot sb.freeCount sb.nxtFree src
      ip hs off sN sO (hl.not_stop iter hmem) ht hsN hsO d
    rw [withFree_self] at hrun
    rw [hrun]
    split
    next => rfl
    next hend =>
      obtain ⟨hq, hm⟩ := hs.nextCluster_start off tot
      have hpos := hs.nextCluster_pos (off + tot)
      have hlt : (off + tot) / bytesPerCluster sb + 1 < L.length := by
        rw [← hq]
        exact Nat.div_lt_of_lt_mul (by rw [Nat.mul_comm]; omega)
      have hnext := List.getElem?_eq_getElem hlt
      have hstep := (@writeOn_next sb d n fuel iter
        (tot + (bytesPerCluster sb - (off + tot) % bytesPerCluster sb)) sb.freeCount sb.nxtFree src' ip
        _ (hacc iter hmem) (hl.next_eq hi hnext) (hl.not_stop _ (List.getElem_mem hlt))).1
      rw [withFree_self] at hstep
      rw [hstep]
      have hgain : 0 < bytesPerCluster sb - (off + tot) % bytesPerCluster sb :=
        Nat.sub_pos_of_lt (Nat.mod_lt _ hs.bytesPerCluster_pos)
      exact writeClusters_inside hs hl hacc hroom (by rw [hq]; exact hnext) (by omega) (by omega)
        (by rw [hm]) (by rw [hm])

/-- **A write inside the chain** returns, and changes no sector but that of the directory entry. -/
theorem inodeWrite_inside (hs : SectorsOk sb) (hl : Linked Iseof (fatNext sb d) ip.clusterStart L)
    (hcnt : ip.clusterCnt = L.length) (hacc : AllAccepted sb L) (hn : 0 < n)
    (hroom : off + n ≤ L.length * bytesPerCluster sb) (hoff : off < 2 ^ 32)
    (ha : writeAccepts sb ip off n = true) :
    ∃ d', (fat32InodeUpdate sb { ip with iSize := sizeAfter sb ip off n n }).run d = .ok ((), d') ∧
      (fat32InodeWrite sb ip src off n).run d =
        .ok ((n, sb, { ip with iSize := sizeAfter sb ip off n n }), d') := by
  have hlt : off / bytesPerCluster sb < L.length :=
    Nat.div_lt_of_lt_mul (by rw [Nat.mul_comm]; omega)
  have hL : L ≠ [] := List.ne_nil_of_length_pos (Nat.lt_of_le_of_lt (Nat.zero_le _) hlt)
  obtain ⟨iter, hi, htr⟩ := travel_run (Nat.succ_pos (off / bytesPerCluster sb)) hL hl
    (Nat.min_le_left ..)
  have hwalk : AllAccepted sb (L.take (off / bytesPerCluster sb)) :=
    fun c hc => hacc c (List.mem_of_mem_take hc)
  rw [Nat.succ_sub_one, if_pos hwalk] at htr
  rw [Nat.succ_sub_one, Nat.min_eq_left (by omega)] at hi
  have hw := @writeClusters_inside sb d L ip off n hs _ hl hacc hroom (n + 1) iter
    (logisticSNum sb off) (logisticSOffset sb off) 0 src hi hn (by omega)
    (hs.logisticSNum_eq off) (hs.logisticSOffset_eq off)
  have hu : ∃ d', (fat32InodeUpdate sb { ip with iSize := sizeAfter sb ip off n n }).run d =
      .ok ((), d') := by
    unfold fat32InodeUpdate
    split
    · exact ⟨d, rfl⟩
    · exact ⟨_, rfl⟩
  obtain ⟨d', hu⟩ := hu
  refine ⟨d', hu, ?_⟩
  unfold fat32InodeWrite
  rw [if_pos ha, hs.cNumOff_eq hoff, Prog.run_bind, htr, Res.ok_bind]
  dsimp only
  rw [if_neg (by omega), Prog.run_bind, Prog.run_pure, Res.ok_bind]
  dsimp only
  rw [Prog.run_bind, hw, Res.ok_bind]
  dsimp only
  rw [Prog.run_bind, hu]
  rfl

/-- The loop over the clusters does not get past cluster 0. -/
theorem writeClusters_zero {fuel sN sO tot : Nat} {w : Nat × Superblock × Inode} (ht : tot ≤ n)
    (hs : sO < 512) (hr : (writeClusters n fuel 0 sN sO tot src sb ip).run d = .ok (w, d')) :
    w.2 = (sb, ip) ∧ d' = d := by
  cases fuel with
  | zero => cases hr
  | succ fuel =>
    by_cases htn : tot < n
    · obtain ⟨src', hw, -⟩ := @writeSectors_run ip (firstSectorofCluster sb 0) n
        (sb.sectorsPerBlock - sN) sN sO tot src d ht hs
      rw [writeClusters_succ (by decide) htn, Prog.run_bind, hw, Res.ok_bind] at hr
      dsimp only at hr
      split at hr
      · cases hr
        exact ⟨rfl, rfl⟩
      · obtain ⟨x, d₁, hx, -⟩ := Prog.run_bind_eq_ok.1 hr
        have := (nextCluster_eq_ok.1 hx).1.1
        omega
    · rw [writeClusters, if_neg fun h => htn h.2] at hr
      cases hr
      exact ⟨rfl, rfl⟩

/-- **A write to a file whose first cluster is 0.** The clusters that it takes hang on entry 0. -/
theorem inodeWrite_empty (hv : VolumeOk sb) (h0 : ip.clusterStart = 0) (hoff : off < 2 ^ 32)
    (hk : HintsOk sb d sb.nxtFree (writeNeeds sb ip off n) [])
    (ha : writeAccepts sb ip off n = true)
    (hr : (fat32InodeWrite sb ip src off n).run d = .ok (r, d')) :
    ∃ k d₁ ip', k ≤ writeNeeds sb ip off n ∧
      Change sb d d₁ (0 :: List.range' sb.nxtFree k) (List.range' sb.nxtFree k) ∧
      (ip'.clusterStart = 0 ∧ ip'.iIno = ip.iIno) ∧
      r.2 = (sb.withFree (sb.freeCount - k) (sb.nxtFree + k), ip') ∧
      (fat32InodeUpdate sb ip').run d₁ = .ok ((), d') := by
  obtain ⟨t, d₁, a, d₂, w, d₃, ht, haa, hw, hu, rfl, -⟩ := inodeWrite_parts ha hr
  rw [hv.sectors.cNumOff_eq hoff] at ht haa
  obtain ⟨hq, rfl, rfl⟩ := travel_zero (Nat.succ_pos _) h0 ht
  have hq0 : off / bytesPerCluster sb = 0 := by omega
  have hsO : logisticSOffset sb off < 512 := by
    rw [hv.sectors.logisticSOffset_eq]
    exact Nat.mod_lt _ (by decide)
  split at haa
  next hlt =>
    have hcnt : ip.clusterCnt = 0 := by
      dsimp only at hlt
      omega
    have hneeds : writeNeeds sb ip off n = max 1 (clustersFor sb (off + n)) := by
      rw [writeNeeds, hcnt, hq0, Nat.zero_add, Nat.sub_zero]
    have hh : Hint sb d₁ sb.nxtFree := (hk 0 (by omega)).1
    have hne : 0 ≠ sb.nxtFree := by
      have := hh.two_le
      omega
    obtain ⟨rfl, hch, -, hn₂⟩ :=
      appendCluster_hit hv (x := sb.freeCount) hh (Nat.zero_le _) hne haa
    have hm : FatChain sb d₂ sb.nxtFree [sb.nxtFree] := by
      refine ⟨⟨rfl, hh.data.not_iseof hv, ?_⟩, fun c hc => ?_⟩
      · rw [Lib.linked_nil, hn₂]
        decide
      · rw [List.mem_singleton.1 hc]
        exact hh.data
    have hk₁ : HintsOk sb d₁ sb.nxtFree (clustersFor sb (off + n) - 1 + 1) [] :=
      hk.mono (by omega)
    obtain ⟨k, hk₂, hwr, -⟩ := @writeClusters_spec sb hv n off _ _ _ _ _ 0 _ _ 0 _ _ _ _ _ _
      hm rfl (by simp) (Nat.zero_le n) (hv.sectors.logisticSNum_eq off) (hv.sectors.logisticSOffset_eq off)
      (hk₁.tail hv hch) hw
    obtain ⟨e, he⟩ := hwr.inode
    have hsup : w.2.1 = sb.withFree (sb.freeCount - (k + 1)) (sb.nxtFree + (k + 1)) := by
      rw [hwr.super, Nat.sub_sub, Nat.add_assoc, Nat.add_comm 1 k]
    rw [List.length_singleton] at hk₂
    refine ⟨k + 1, d₃, _, by omega, ?_, ⟨?_, ?_⟩, by rw [hsup], ?_⟩
    · have := hch.trans hwr.appended.change
      rw [List.range'_succ]
      refine this.mono fun c hc => ?_
      simp only [List.getLast?_singleton, Option.toList_some, List.mem_append, List.mem_cons] at hc ⊢
      tauto
    · rw [he]
      exact h0
    · rw [he]
    · rw [hsup] at hu
      exact hu
  next hge =>
    cases haa
    obtain ⟨hw₂, rfl⟩ := writeClusters_zero (Nat.zero_le n) hsO hw
    obtain ⟨tot, sb₁, ip₁⟩ := w
    cases hw₂
    exact ⟨0, d₃, { ip with iSize := sizeAfter sb ip off n tot }, Nat.zero_le _,
      (Change.refl sb d₃).mono fun _ hc => absurd hc List.not_mem_nil, ⟨h0, rfl⟩, rfl, hu⟩

/-- `fat32_inode_update` leaves the FAT alone. -/
theorem update_fat (hv : VolumeOk sb) (hd : DirentOk sb ip.iIno)
    (hr : (fat32InodeUpdate sb ip).run d = .ok ((), d')) :
    ∀ c, c ≤ countofClusters sb + 1 → fatNext sb d' c = fatNext sb d c := by
  intro c hc
  unfold fat32InodeUpdate at hr
  split at hr
  next => cases hr; rfl
  next h0 =>
    cases hr
    exact Change.fat_of_data hv (hd h0) _ hc

/-! ## Which requests are rejected -/

/-- The loops do not count past `n`. -/
theorem writeSectors_count {first : Nat} : ∀ {k s sO tot : Nat} {src : List (BitVec 8)}
    {d d' : Nat → Sector} {w : Nat × Nat × List (BitVec 8)}, tot ≤ n →
    (writeSectors ip first n k s sO tot src).run d = .ok (w, d') → w.2.1 ≤ n
  | 0, _, _, _, _, _, _, _, ht, hr => by
    cases hr
    exact ht
  | k + 1, s, sO, tot, src, d, d', w, ht, hr => by
    unfold writeSectors at hr
    split at hr
    · obtain ⟨-, d₁, -, hr⟩ := Prog.run_bind_eq_ok.1 hr
      exact writeSectors_count (by omega) hr
    · cases hr
      exact ht

theorem writeClusters_count : ∀ {fuel iter sN sO tot : Nat} {src : List (BitVec 8)} {sb : Superblock}
    {ip : Inode} {d d' : Nat → Sector} {w : Nat × Superblock × Inode}, tot ≤ n →
    (writeClusters n fuel iter sN sO tot src sb ip).run d = .ok (w, d') → w.1 ≤ n
  | 0, _, _, _, _, _, _, _, _, _, _, _, hr => by cases hr
  | fuel + 1, iter, sN, sO, tot, src, sb, ip, d, d', w, ht, hr => by
    unfold writeClusters at hr
    split at hr
    · obtain ⟨x, d₁, hw, hr⟩ := Prog.run_bind_eq_ok.1 hr
      have hle := writeSectors_count ht hw
      dsimp only at hr
      split at hr
      · cases hr
        exact hle
      · obtain ⟨next, d₂, -, hr⟩ := Prog.run_bind_eq_ok.1 hr
        split at hr
        · obtain ⟨a, d₃, -, hr⟩ := Prog.run_bind_eq_ok.1 hr
          exact writeClusters_count hle hr
        · exact writeClusters_count hle hr
    · cases hr
      exact ht

/-- The bytes of the data region. -/
def dataBytes (sb : Superblock) : Nat := (sb.nSectors - (sb.fatbase + sb.nFats * sb.nSectorsFat)) * 512

/-- The limit that `fat32_inode_write` computes. -/
theorem limit_eq (h : RegionsOk sb) : u32 (dataSec sb * sb.sectorSize) = dataBytes sb % 2 ^ 32 := by
  unfold u32 dataBytes
  rw [h.dataSec_eq, h.firstDataSector_eq, h.sectorSize]

/-- The requests that one expects to be rejected. -/
def OutOfBounds (sb : Superblock) (ip : Inode) (off n : Nat) : Prop :=
  ip.iSize < off ∨ 2 ^ 32 ≤ off + n ∨ dataBytes sb < off + n

theorem writeAccepts_eq_false (h : RegionsOk sb) {off n : BitVec 32} :
    writeAccepts sb ip off.toNat n.toNat = false ↔
      ip.iSize < off.toNat ∨ 2 ^ 32 ≤ off.toNat + n.toNat ∨
        dataBytes sb % 2 ^ 32 < off.toNat + n.toNat := by
  have h1 := off.isLt
  have h2 := n.isLt
  unfold writeAccepts
  rw [limit_eq h, Bool.not_eq_false', Bool.or_eq_true, decide_eq_true_iff, decide_eq_true_iff]
  unfold u32
  omega

/-- A call returns -1 and does nothing else exactly if its request is not accepted. -/
theorem inodeWrite_rejects (h : RegionsOk sb) {off n : BitVec 32} :
    (fat32InodeWrite sb ip src off.toNat n.toNat).run d = .ok ((minusOne, sb, ip), d) ↔
      writeAccepts sb ip off.toNat n.toNat = false := by
  constructor
  · intro hr
    by_contra hacc
    have hacc : writeAccepts sb ip off.toNat n.toNat = true := by simpa using hacc
    obtain ⟨t, d₁, a, d₂, w, d₃, -, -, hw, -, hres, -⟩ := inodeWrite_parts hacc hr
    have hcount : minusOne ≤ n.toNat := by
      rw [show minusOne = w.1 from congrArg (·.1) hres]
      exact writeClusters_count (Nat.zero_le _) hw
    -- the limit is a multiple of 512
    have hin : off.toNat + n.toNat ≤ dataBytes sb % 2 ^ 32 := by
      by_contra hout
      have hrej := (@writeAccepts_eq_false sb ip h off n).2 (.inr (.inr (Nat.lt_of_not_le hout)))
      rw [hacc] at hrej
      cases hrej
    unfold minusOne at hcount
    unfold dataBytes at hin
    omega
  · intro hrej
    unfold fat32InodeWrite
    rw [hrej]
    rfl

/-- The call agrees with what one expects exactly if the data region is smaller than 4 GiB, or the
request is one of those for which the limit does not matter, or it is below what is left of the limit
in 32 bits. -/
theorem write_admission (h : RegionsOk sb) (src : List (BitVec 8)) (d : Nat → Sector)
    {off n : BitVec 32} :
    ((fat32InodeWrite sb ip src off.toNat n.toNat).run d = .ok ((minusOne, sb, ip), d) ↔
        OutOfBounds sb ip off.toNat n.toNat) ↔
      dataBytes sb < 2 ^ 32 ∨ ip.iSize < off.toNat ∨ 2 ^ 32 ≤ off.toNat + n.toNat ∨
        off.toNat + n.toNat ≤ dataBytes sb % 2 ^ 32 := by
  rw [inodeWrite_rejects h, writeAccepts_eq_false h, OutOfBounds]
  omega

theorem write_admission_blank :
    (fat32InodeWrite blankSb emptyFile [] 0 5121).run (fatDisk []) =
        .ok ((minusOne, blankSb, emptyFile), fatDisk []) ∧
      (fat32InodeWrite blankSb emptyFile [] 0 5120).run (fatDisk []) ≠
        .ok ((minusOne, blankSb, emptyFile), fatDisk []) := by
  have h := blankSb_volumeOk.regions
  have h1 := (@write_admission blankSb emptyFile h [] (fatDisk []) 0 5121).2 (.inl (by decide))
  have h2 := (@write_admission blankSb emptyFile h [] (fatDisk []) 0 5120).2 (.inl (by decide))
  have hout : OutOfBounds blankSb emptyFile (0 : BitVec 32).toNat (5121 : BitVec 32).toNat :=
    .inr (.inr (by decide))
  have hin : ¬ OutOfBounds blankSb emptyFile (0 : BitVec 32).toNat (5120 : BitVec 32).toNat := by
    unfold OutOfBounds
    decide
  exact ⟨h1.2 hout, fun hr => hin (h2.1 hr)⟩

/-- A volume with a data region of 4 GiB. -/
def bigSb : Superblock := { blankSb with nSectors := 8 + 65537 + 2 ^ 23, nSectorsFat := 65537 }

theorem bigSb_volumeOk : VolumeOk bigSb where
  sectorSize := rfl
  spc_pos := by decide
  spc_lt := by decide
  clusterSize := rfl
  fatbase := by decide
  nFats := by decide
  nSectors := by decide
  data := by decide
  fat := by decide
  clusters := by decide

/-- The limit is 0 there, and a write of one byte is rejected. -/
theorem write_rejected_on_big_volume :
    VolumeOk bigSb ∧ dataBytes bigSb = 2 ^ 32 ∧ ¬ OutOfBounds bigSb emptyFile 0 1 ∧
      ∀ d, (fat32InodeWrite bigSb emptyFile [1] 0 1).run d = .ok ((minusOne, bigSb, emptyFile), d) := by
  refine ⟨bigSb_volumeOk, by decide, ?_, fun d => ?_⟩
  · unfold OutOfBounds
    decide
  · have hrej : writeAccepts bigSb emptyFile 0 1 = false := by decide
    unfold fat32InodeWrite
    rw [hrej]
    rfl

end Fs
