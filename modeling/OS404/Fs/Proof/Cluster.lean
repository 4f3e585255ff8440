import OS404.Fs.Proof.Alloc
import OS404.Lib.Chain

/-!
# Chains of clusters

`FatChain sb d p L`: the entries lead from cluster `p` through the data clusters `L` to an end mark.

* `travel_run`: `fat32_fat_travel(ip, num)` returns the `num`-th cluster of the chain, or the last
  one, unless a cluster before it trips the assertion of `fat32_next_cluster`.
* `clusterAlloc_hit`: when the hint is a data cluster with a zero first byte, it is marked, zeroed
  and returned.
* `appendCluster_hit`: then the chain gets the hint as its new last cluster.
-/

namespace Fs

open Lib (Prog Linked)
open Driver (Sector)

variable {sb : Superblock} {d d' : Nat → Sector} {p : Nat} {L : List Nat}

/-- The chain `L` from cluster `p`. -/
structure FatChain (sb : Superblock) (d : Nat → Sector) (p : Nat) (L : List Nat) : Prop where
  linked : Linked Iseof (fatNext sb d) p L
  data : ∀ c ∈ L, DataCluster sb c

/-- `fat32_next_cluster` takes all clusters of `L`. -/
def AllAccepted (sb : Superblock) (L : List Nat) : Prop := ∀ c ∈ L, Accepted sb c

instance (sb : Superblock) (L : List Nat) : Decidable (AllAccepted sb L) :=
  inferInstanceAs (Decidable (∀ c ∈ L, Accepted sb c))

theorem allAccepted_nil (sb : Superblock) : AllAccepted sb [] := fun _ h => absurd h List.not_mem_nil

theorem allAccepted_cons {c : Nat} : AllAccepted sb (c :: L) ↔ Accepted sb c ∧ AllAccepted sb L :=
  List.forall_mem_cons

theorem DataCluster.not_iseof (hv : VolumeOk sb) {c : Nat} (hc : DataCluster sb c) : ¬ Iseof c := by
  have h1 := hv.clusters
  have h2 := hc.2
  unfold Iseof
  omega

/-! ## `fat32_fat_travel` -/

/-- What `fat32_fat_travel` returns from the variables after its loop. -/
def travelValue (num : Nat) (r : Nat × Nat × Nat) : Nat := if r.2.1 < num then r.2.2 else r.1

/-- The loop from the `cnt`-th cluster on, with `L` from there. -/
theorem travelLoop_run {num : Nat} : ∀ {L : List Nat} {fuel iter cnt prev : Nat},
    Linked Iseof (fatNext sb d) iter L → cnt < num → min (num - cnt) (L.length + 1) ≤ fuel →
    ∃ r, (prev :: L)[min (num - cnt) L.length]? = some (travelValue num r) ∧
      (travelLoop sb num fuel iter cnt prev).run d =
        if AllAccepted sb (L.take (num - cnt - 1)) then .ok (r, d)
        else .error (.panic "assert failed")
  | L, 0, _, _, _, _, hc, hf => by omega
  | [], fuel + 1, iter, cnt, prev, hl, hc, _ => by
    refine ⟨(iter, cnt, prev), by simp [travelValue, hc], ?_⟩
    unfold travelLoop
    rw [if_pos (Lib.linked_nil.1 hl), List.take_nil, if_pos (allAccepted_nil sb)]
    rfl
  | a :: L, fuel + 1, iter, cnt, prev, hl, hc, hf => by
    obtain ⟨rfl, hs, hl⟩ := hl
    by_cases hn : cnt + 1 < num
    · rw [List.length_cons] at hf
      obtain ⟨r, hr, he⟩ := @travelLoop_run num L fuel _ (cnt + 1) iter hl hn (by omega)
      refine ⟨r, ?_, ?_⟩
      · rw [← hr, show min (num - cnt) (iter :: L).length = min (num - (cnt + 1)) L.length + 1 by
          rw [List.length_cons]; omega, List.getElem?_cons_succ]
      · unfold travelLoop
        rw [if_neg hs, if_pos (.inl hn), Prog.run_bind, run_nextCluster,
          show num - cnt - 1 = num - (cnt + 1) - 1 + 1 by omega, List.take_succ_cons]
        by_cases ha : Accepted sb iter
        · rw [if_pos ha, Res.ok_bind, he]
          simp only [allAccepted_cons, and_iff_right ha]
        · rw [if_neg ha, Res.error_bind, if_neg fun h => ha (allAccepted_cons.1 h).1]
    · have hcn : num = cnt + 1 := by omega
      refine ⟨(iter, cnt + 1, prev), by simp [travelValue, hcn], ?_⟩
      unfold travelLoop
      rw [if_neg hs, if_neg (by omega), show num - cnt - 1 = 0 by omega, List.take_zero,
        if_pos (allAccepted_nil sb)]
      rfl

/-- **`fat32_fat_travel`** for a cluster number. -/
theorem travel_run {num fuel : Nat} {ip : Inode} (hn : 0 < num) (hL : L ≠ [])
    (h : Linked Iseof (fatNext sb d) ip.clusterStart L) (hf : min num (L.length + 1) ≤ fuel) :
    ∃ iter, L[min (num - 1) (L.length - 1)]? = some iter ∧
      (fat32FatTravel sb fuel ip num).run d =
        if AllAccepted sb (L.take (num - 1)) then .ok ((iter, ip), d)
        else .error (.panic "assert failed") := by
  obtain ⟨r, hr, he⟩ := @travelLoop_run sb d num L fuel ip.clusterStart 0 0 h hn hf
  have hl : 0 < L.length := List.length_pos_of_ne_nil hL
  refine ⟨travelValue num r, ?_, ?_⟩
  · rw [← hr, show min (num - 0) L.length = min (num - 1) (L.length - 1) + 1 by omega,
      List.getElem?_cons_succ]
  · unfold fat32FatTravel
    rw [Prog.run_bind, he, Nat.sub_zero]
    by_cases ha : AllAccepted sb (L.take (num - 1))
    · rw [if_pos ha, if_pos ha, Res.ok_bind]
      dsimp only
      rw [if_neg (by omega)]
      unfold travelValue
      split
      · rfl
      · rfl
    · rw [if_neg ha, if_neg ha, Res.error_bind]

/-- The loop requests the sectors of the entries that it passes. -/
theorem travelLoop_touches {num : Nat} : ∀ {L : List Nat} {fuel iter cnt prev : Nat},
    Linked Iseof (fatNext sb d) iter L → num - cnt ≤ fuel → 0 < num →
    AllAccepted sb (L.take (num - cnt - 1)) →
    (travelLoop sb num fuel iter cnt prev).touches d =
      (L.take (num - cnt - 1)).map (thisFATEntSecNum sb)
  | L, 0, _, _, _, _, hf, _, _ => by
    rw [show num - _ - 1 = 0 by omega, List.take_zero]
    rfl
  | [], fuel + 1, iter, cnt, prev, hl, _, _, _ => by
    unfold travelLoop
    rw [if_pos (Lib.linked_nil.1 hl), List.take_nil]
    rfl
  | a :: L, fuel + 1, iter, cnt, prev, hl, hf, h0, ha => by
    obtain ⟨rfl, hs, hl⟩ := hl
    unfold travelLoop
    rw [if_neg hs]
    by_cases hn : cnt + 1 < num
    · rw [show num - cnt - 1 = num - (cnt + 1) - 1 + 1 by omega, List.take_succ_cons,
        allAccepted_cons] at ha
      have hx := @run_nextCluster sb d iter
      rw [if_pos ha.1] at hx
      rw [if_pos (.inl hn), Prog.touches_bind _ _ hx, touches_nextCluster ha.1,
        travelLoop_touches hl (by omega) h0 ha.2,
        show num - cnt - 1 = num - (cnt + 1) - 1 + 1 by omega, List.take_succ_cons, List.map_cons]
      rfl
    · rw [if_neg (by omega), show num - cnt - 1 = 0 by omega, List.take_zero]
      rfl

theorem travel_touches {num : Nat} {ip : Inode} (hn : 0 < num)
    (h : Linked Iseof (fatNext sb d) ip.clusterStart L) (ha : AllAccepted sb (L.take (num - 1))) :
    (fat32FatTravel sb num ip num).touches d = (L.take (num - 1)).map (thisFATEntSecNum sb) := by
  obtain ⟨r, -, hr⟩ :=
    @travelLoop_run sb d num L num ip.clusterStart 0 0 h hn (Nat.min_le_left ..)
  rw [Nat.sub_zero, if_pos ha] at hr
  have ht : (if r.2.1 < num then pure (r.2.2, ip) else pure (r.1, ip) :
      FsProg (Nat × Inode)).touches d = [] := by
    split
    · rfl
    · rfl
  unfold fat32FatTravel
  rw [Prog.touches_bind _ _ hr, travelLoop_touches h (Nat.sub_le ..) hn ha]
  dsimp only
  rw [if_neg (by omega), ht, List.append_nil]
  rfl

/-- A file without clusters: the first cluster is 0, and no further one is reached. -/
theorem travel_zero {num : Nat} {ip : Inode} {r : Nat × Inode} (hn : 0 < num)
    (h0 : ip.clusterStart = 0) (h : (fat32FatTravel sb num ip num).run d = .ok (r, d')) :
    num = 1 ∧ r = (0, ip) ∧ d' = d := by
  obtain ⟨⟨iter, cnt, prev⟩, d₁, hl, hr⟩ := Prog.run_bind_eq_ok.1 h
  obtain ⟨n, rfl⟩ : ∃ n, num = n + 1 := ⟨num - 1, by omega⟩
  rw [h0, travelLoop, if_neg (by decide)] at hl
  split at hl
  next hc =>
    obtain ⟨x, d₂, hx, -⟩ := Prog.run_bind_eq_ok.1 hl
    have := (nextCluster_eq_ok.1 hx).1.1
    omega
  next hc =>
    obtain rfl : n = 0 := by omega
    cases hl
    cases hr
    exact ⟨rfl, rfl, rfl⟩

theorem readsOnly_nextCluster (c : Nat) : (fat32NextCluster sb c).ReadsOnly := by
  unfold fat32NextCluster
  split
  · exact .bind (Prog.readsOnly_get _) fun _ => Prog.readsOnly_pure _
  · trivial

theorem readsOnly_travelLoop {num : Nat} : ∀ (fuel iter cnt prev : Nat),
    (travelLoop sb num fuel iter cnt prev).ReadsOnly
  | 0, _, _, _ => trivial
  | fuel + 1, iter, cnt, prev => by
    unfold travelLoop
    split
    · exact Prog.readsOnly_pure _
    · split
      · exact .bind (readsOnly_nextCluster _) fun next => readsOnly_travelLoop fuel next _ _
      · exact Prog.readsOnly_pure _

theorem readsOnly_travel (ip : Inode) (fuel num : Nat) :
    (fat32FatTravel sb fuel ip num).ReadsOnly := by
  unfold fat32FatTravel
  refine .bind (readsOnly_travelLoop _ _ _ _) fun r => ?_
  dsimp only
  split
  · exact Prog.readsOnly_pure _
  · split
    · exact Prog.readsOnly_pure _
    · exact Prog.readsOnly_pure _

/-! ## `fat32_cluster_alloc` -/

/-- Cluster `c` passes the test of `fat32_cluster_alloc` on its hint. -/
structure Hint (sb : Superblock) (d : Nat → Sector) (c : Nat) : Prop where
  two_le : 2 ≤ c
  lt : c < countofClusters sb
  first : d (firstSectorofCluster sb c) 0 = 0

theorem Hint.data {c : Nat} (h : Hint sb d c) : DataCluster sb c :=
  ⟨h.two_le, by have := h.lt; omega⟩

/-- **A hint that passes the test** is taken. -/
theorem clusterAlloc_hit {r : Nat × Superblock} (hv : VolumeOk sb) (h : Hint sb d sb.nxtFree)
    {dev : Dev} (hr : (fat32ClusterAlloc sb dev).run d = .ok (r, d')) :
    r = (sb.nxtFree, sb.withFree (sb.freeCount - 1) (sb.nxtFree + 1)) ∧
      Change sb d d' [sb.nxtFree] [sb.nxtFree] ∧ fatNext sb d' sb.nxtFree = fatValidMask := by
  obtain ⟨m, hm, -, rfl, hch, hself⟩ := clusterAlloc_change hv h.data hr
  obtain rfl : m = sb.nxtFree := by
    unfold Marks at hm
    rwa [if_pos ⟨h.first, h.lt⟩] at hm
  exact ⟨rfl, hch, hself⟩

/-- The disk after the entry of a new cluster `h` was marked, and then linked behind `iter`. -/
theorem link_change {d₁ : Nat → Sector} {iter h : Nat} (hv : VolumeOk sb) (hh : DataCluster sb h)
    (hi : iter ≤ countofClusters sb + 1) (hne : iter ≠ h) (hc : Change sb d d₁ [h] [h])
    (he : fatNext sb d₁ h = fatValidMask) :
    Change sb d (fatPut sb d₁ iter h) [h, iter] [h] ∧ fatNext sb (fatPut sb d₁ iter h) iter = h ∧
      fatNext sb (fatPut sb d₁ iter h) h = fatValidMask := by
  have c2 : Change sb d₁ (fatPut sb d₁ iter h) _ _ := .fatPut hv hi h
  have hlt : h < 0x0FFFFFF8 := by
    have h1 := hv.clusters
    have h2 := hh.2
    omega
  refine ⟨hc.trans c2, ?_, ?_⟩
  · rw [fatNext_fatPut, and_mask_of_lt hlt]
  · rw [c2.fat h hh.2 (by simpa using Ne.symm hne)]
    exact he

/-- A new cluster behind `iter`, when `h` is the hint. -/
theorem appendCluster_hit {ip : Inode} {iter x h : Nat} {r : Nat × Superblock × Inode}
    (hv : VolumeOk sb) (hh : Hint sb d h) (hi : iter ≤ countofClusters sb + 1) (hne : iter ≠ h)
    (hr : (appendCluster (sb.withFree x h) ip iter).run d = .ok (r, d')) :
    r = (h, sb.withFree (x - 1) (h + 1),
        { ip with clusterCnt := ip.clusterCnt + 1, clusterEnd := h }) ∧
      Change sb d d' [h, iter] [h] ∧ fatNext sb d' iter = h ∧ fatNext sb d' h = fatValidMask := by
  obtain ⟨r₁, d₁, ha, hr⟩ := Prog.run_bind_eq_ok.1 hr
  obtain ⟨rfl, c1, he⟩ := clusterAlloc_hit (hv.withFree x h) ⟨hh.1, hh.2, hh.3⟩ ha
  simp only [Prog.run_bind, run_fatSet, Res.ok_bind, Prog.run_pure, fatPut_withFree,
    withFree_withFree, withFree_freeCount, withFree_nxtFree, Except.ok.injEq, Prod.mk.injEq] at hr
  obtain ⟨rfl, rfl⟩ := hr
  exact ⟨rfl, link_change hv hh.data hi hne c1.of_withFree he⟩

/-- The chain `M` got the `k` clusters from `h` on; no other entry changed, and those clusters are
zero. -/
structure Appended (sb : Superblock) (d d' : Nat → Sector) (p : Nat) (M : List Nat) (h k : Nat) :
    Prop where
  chain : FatChain sb d' p (M ++ List.range' h k)
  change : Change sb d d' (M.getLast?.toList ++ List.range' h k) (List.range' h k)

/-- The `k` clusters from `h` on pass the test of `fat32_cluster_alloc`, and `M` has none of them. -/
def HintsOk (sb : Superblock) (d : Nat → Sector) (h k : Nat) (M : List Nat) : Prop :=
  ∀ j < k, Hint sb d (h + j) ∧ h + j ∉ M

theorem Appended.refl {M : List Nat} (h : FatChain sb d p M) (x : Nat) :
    Appended sb d d p M x 0 where
  chain := by simpa using h
  change := (Change.refl sb d).mono fun _ hc => absurd hc List.not_mem_nil

/-- Some clusters, and then more. -/
theorem Appended.trans {d₁ d₂ : Nat → Sector} {M : List Nat} {h j k : Nat}
    (h₁ : Appended sb d d₁ p M h j) (h₂ : Appended sb d₁ d₂ p (M ++ List.range' h j) (h + j) k) :
    Appended sb d d₂ p M h (j + k) where
  chain := by
    have := h₂.chain
    rwa [List.append_assoc, List.range'_append_1] at this
  change := by
    have := h₁.change.trans h₂.change
    rw [List.range'_append_1] at this
    refine this.mono fun c hc => ?_
    rw [← List.range'_append_1]
    simp only [List.mem_append, Option.mem_toList, List.getLast?_append] at hc ⊢
    rcases hc with (hc | hc) | hc | hc
    · exact .inl hc
    · exact .inr (.inl hc)
    · rcases Option.or_eq_some_iff.1 hc with hc | ⟨-, hc⟩
      · exact .inr (.inl (List.mem_of_getLast? hc))
      · exact .inl hc
    · exact .inr (.inr hc)

/-- A chain whose last cluster gets a new link. -/
theorem FatChain.append {M : List Nat} {h iter i : Nat} (hv : VolumeOk sb)
    (hm : FatChain sb d p M) (hi : M[i]? = some iter) (hl : i + 1 = M.length)
    (hh : DataCluster sb h) (hn : h ∉ M) (hc : Change sb d d' [h, iter] [h]) (h1 : fatNext sb d' iter = h)
    (h2 : fatNext sb d' h = fatValidMask) : Appended sb d d' p M h 1 := by
  obtain ⟨A, rfl⟩ : ∃ A, M = A ++ [iter] := by
    rcases List.eq_nil_or_concat M with rfl | ⟨A, b, rfl⟩
    · simp at hi
    · obtain rfl : i = A.length := by simpa using hl
      exact ⟨A, by simpa using hi⟩
  have hnd := hm.linked.nodup
  rw [List.nodup_append] at hnd
  refine ⟨⟨?_, ?_⟩, ?_⟩
  · rw [List.range'_one]
    refine hm.linked.snoc (hh.not_iseof hv) hn (fun a ha => ?_) h1 (by rw [h2]; decide)
    apply hc.fat a (hm.data a (List.mem_append_left _ ha)).2
    have hah : a ≠ h := fun hah => hn (hah ▸ List.mem_append_left _ ha)
    have hai : a ≠ iter := hnd.2.2 a ha iter (List.mem_singleton_self _)
    simp [hah, hai]
  · intro c hc'
    rw [List.range'_one, List.mem_append, List.mem_singleton] at hc'
    rcases hc' with hc' | rfl
    · exact hm.data c hc'
    · exact hh
  · rw [List.range'_one, List.getLast?_concat]
    exact hc.mono fun c hc' => by simpa [or_comm] using hc'

/-- The further hints pass the test also after the first one was taken. -/
theorem HintsOk.tail {S M : List Nat} {h k : Nat} (hv : VolumeOk sb) (hk : HintsOk sb d h (k + 1) M)
    (hc : Change sb d d' S [h]) : HintsOk sb d' (h + 1) k (M ++ [h]) := by
  intro j hj
  obtain ⟨h0, -⟩ := hk 0 (Nat.succ_pos k)
  obtain ⟨h1, h2⟩ := hk (j + 1) (by omega)
  rw [show h + (j + 1) = h + 1 + j by omega] at h1 h2
  have hin : InCluster sb (h + 1 + j) (firstSectorofCluster sb (h + 1 + j)) := by
    have := hv.spc_pos
    exact ⟨Nat.le_refl _, by omega⟩
  refine ⟨⟨h1.two_le, h1.lt, ?_⟩, ?_⟩
  · rw [hc.data _ (hv.inCluster_data h1.data hin).1]
    · exact h1.first
    · intro c hc' hcb
      obtain rfl : c = h := by simpa using hc'
      have := hv.inCluster_unique h1.data h0.data hin hcb
      omega
  · rw [List.mem_append, List.mem_singleton]
    intro hor
    rcases hor with hor | hor
    · exact h2 hor
    · omega

/-- The first of the hints behind the last cluster of a chain. -/
theorem appendCluster_hits {M : List Nat} {ip : Inode} {iter x h i k : Nat}
    {r : Nat × Superblock × Inode} (hv : VolumeOk sb) (hm : FatChain sb d p M)
    (hi : M[i]? = some iter) (hl : i + 1 = M.length) (hk : HintsOk sb d h (k + 1) M)
    (hr : (appendCluster (sb.withFree x h) ip iter).run d = .ok (r, d')) :
    r = (h, sb.withFree (x - 1) (h + 1),
        { ip with clusterCnt := ip.clusterCnt + 1, clusterEnd := h }) ∧
      Appended sb d d' p M h 1 ∧ HintsOk sb d' (h + 1) k (M ++ [h]) := by
  obtain ⟨hh, hn⟩ : Hint sb d h ∧ h ∉ M := hk 0 (Nat.succ_pos k)
  have hmem := List.mem_of_getElem? hi
  obtain ⟨rfl, hch, hn₁, hn₂⟩ :=
    appendCluster_hit hv hh (hm.data iter hmem).2 (fun he => hn (he ▸ hmem)) hr
  exact ⟨rfl, FatChain.append hv hm hi hl hh.data hn hch hn₁ hn₂, hk.tail hv hch⟩

end Fs
