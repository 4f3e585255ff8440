import OS404.Fs.Create
import OS404.Fs.Proof.Inum
import OS404.Fs.Proof.Slots
import OS404.Fs.Proof.Walk
import OS404.Lib.FirstFit

/-!
# Where a new file goes

The search of `fat32_dir_fcb_insert_offset` is a first fit over the slots of the directory: its loops
keep `Lib.FreeTail` (`insertEntries_tracks`, `insertSectors_run`, `insertClusters_run`). The inode
number that `fat32_inode_alloc` computes from a slot by divisions is the one that the scans have for
it (`allocInum_run`).

Both use byte offsets in the directory, which have 32 bits.

* `insert_offset_least`: the offset in a directory of less than `2 ^ 32` bytes.
* `alloc_inum_eq`: the inode numbers of the slots in the first `2 ^ 32` bytes.
* `insert_offset_wraps`, `alloc_inum_wraps`: larger directories.
-/

namespace Fs

open Lib (Prog Linked Fits FreeTail)
open Driver (Sector)
open Str

section
variable {sb : Superblock} {d : Nat → Sector} {L : List Nat}

/-! ## The sectors of a directory -/

theorem dirSectors_length (sb : Superblock) (L : List Nat) :
    (dirSectors sb L).length = L.length * sb.sectorsPerBlock := by
  induction L with
  | nil => simp [dirSectors]
  | cons c L ih =>
    rw [dirSectors_cons, List.length_append, ih, List.length_map, List.length_range', List.length_cons,
      Nat.succ_mul, Nat.add_comm]

/-- Sector number `j` is in cluster number `j / sectors_per_block`. -/
theorem dirSectors_getElem? (hs : 0 < sb.sectorsPerBlock) : ∀ (L : List Nat) (j : Nat),
    (dirSectors sb L)[j]? =
      (L[j / sb.sectorsPerBlock]?).map fun c =>
        u32 (firstSectorofCluster sb c + j % sb.sectorsPerBlock) := by
  intro L
  induction L with
  | nil => intro j; simp [dirSectors]
  | cons c L ih =>
    intro j
    have hlen : ((List.range' 0 sb.sectorsPerBlock).map fun k =>
        u32 (firstSectorofCluster sb c + k)).length = sb.sectorsPerBlock := by
      rw [List.length_map, List.length_range']
    rw [dirSectors_cons, List.getElem?_append, hlen]
    by_cases hj : j < sb.sectorsPerBlock
    · rw [if_pos hj, Nat.div_eq_of_lt hj, Nat.mod_eq_of_lt hj, List.getElem?_map,
        List.getElem?_range' hj]
      simp
    · obtain ⟨m, rfl⟩ : ∃ m, j = sb.sectorsPerBlock + m := ⟨j - sb.sectorsPerBlock, by omega⟩
      rw [if_neg hj, Nat.add_sub_cancel_left, ih, Nat.add_div_left _ hs, List.getElem?_cons_succ,
        Nat.add_mod_left]

/-! ## `fat32_inode_alloc` -/

/-- The slot at byte `32 * e` of a directory, through cluster, sector and entry. -/
theorem slotInum_eq (h : SectorsOk sb) {e c : Nat}
    (hc : L[e * 32 / bytesPerCluster sb]? = some c) :
    slotInum sb (dirSectors sb L) e =
      sectorToFatinum sb
        (u32 (firstSectorofCluster sb c + e * 32 % bytesPerCluster sb / 512))
        (e * 32 % bytesPerCluster sb % 512 / 32) := by
  have hpos := h.spc_pos
  have hb : bytesPerCluster sb = 512 * sb.sectorsPerBlock := rfl
  have hdiv : e * 32 / bytesPerCluster sb = e / 16 / sb.sectorsPerBlock := by
    rw [hb, ← Nat.div_div_eq_div_mul, show e * 32 / 512 = e / 16 by omega]
  have hmod : e * 32 % bytesPerCluster sb = 512 * (e / 16 % sb.sectorsPerBlock) + e % 16 * 32 := by
    rw [hb, show e * 32 = e % 16 * 32 + 512 * (e / 16) by omega, Nat.add_mod, Nat.mul_mod_mul_left]
    have := Nat.mod_lt (e / 16) hpos
    rw [Nat.mod_eq_of_lt (a := e % 16 * 32) (by omega), Nat.mod_eq_of_lt (by omega), Nat.add_comm]
  have hsec : slotSector sb (dirSectors sb L) e =
      u32 (firstSectorofCluster sb c + e / 16 % sb.sectorsPerBlock) := by
    unfold slotSector
    rw [fcbPerBlock_eq h.sectorSize, List.getD_eq_getElem?_getD, dirSectors_getElem? hpos, ← hdiv, hc,
      Option.map_some, Option.getD_some]
  have hsector : e * 32 % bytesPerCluster sb / 512 = e / 16 % sb.sectorsPerBlock := by omega
  have hentry : e * 32 % bytesPerCluster sb % 512 / 32 = e % 16 := by omega
  unfold slotInum
  rw [hsec, hsector, hentry, fcbPerBlock_eq h.sectorSize]

theorem allocInum_run (h : SectorsOk sb) {dp : Inode} {fuel e : Nat}
    (hch : Linked Iseof (fatNext sb d) dp.clusterStart L) (hacc : AllAccepted sb L)
    (hfuel : L.length < fuel) (he : e * 32 < L.length * bytesPerCluster sb) (hoff : e * 32 < 2 ^ 32) :
    (allocInum sb fuel dp e).run d = .ok (slotInum sb (dirSectors sb L) e, d) := by
  have hlt : e * 32 / bytesPerCluster sb < L.length :=
    (Nat.div_lt_iff_lt_mul h.bytesPerCluster_pos).2 he
  have hL : L ≠ [] := List.ne_nil_of_length_pos (Nat.zero_lt_of_lt hlt)
  obtain ⟨c, hc, htravel⟩ := travel_num_run
    (Nat.le_add_left 1 (e * 32 / bytesPerCluster sb)) hL hch hacc hfuel
  rw [Nat.min_eq_left hlt, Nat.succ_sub_one] at hc
  unfold allocInum
  rw [direntSize, u32_of_lt hoff]
  dsimp only
  rw [h.cNumOff_eq hoff, Prog.run_bind, htravel, Res.ok_bind, slotInum_eq h hc]
  unfold logisticCOffset
  dsimp only
  rw [h.clusterBytes_eq, h.sectorSize, Prog.run_pure]

/-- For the slots in the first `2 ^ 32` bytes of a directory, `fat32_inode_alloc` computes the inode
numbers that `fat32_inode_dirlookup` has for them when it comes to them. -/
theorem alloc_inum_eq (h : SectorsOk sb) (hsize : sb.clusterSize = bytesPerCluster sb) {dp : Inode}
    {fuel : Nat} (hch : Linked Iseof (fatNext sb d) dp.clusterStart L) (hacc : AllAccepted sb L)
    (hfuel : L.length < fuel) :
    (∀ e < L.length * sb.clusterSize / 32, e * 32 < 2 ^ 32 →
      (allocInum sb fuel dp e).run d = .ok (slotInum sb (dirSectors sb L) e, d)) ∧
    ∀ {name : CStr} {r : Scanned} {d' : Nat → Sector},
      (dirlookupScan sb fuel dp name).run d = .ok (r, d') →
      ∃ p ≤ L.length * sb.clusterSize / 32, r.scan.visits.map Visit.inum =
        (liveBefore sb d (dirSectors sb L) p).map (slotInum sb (dirSectors sb L)) := by
  rw [hsize]
  constructor
  · intro e he hoff
    exact allocInum_run h hch hacc hfuel (by omega) hoff
  · intro name r d' hrun
    have hn : fcbPerBlock sb = 16 := fcbPerBlock_eq h.sectorSize
    obtain ⟨-, hr⟩ := dirlookupScan_reaches (by rw [hn]; decide) hch hrun
    obtain ⟨p, hp, hmark⟩ := hr.marked
    refine ⟨p, ?_, ?_⟩
    · rw [hn, dirSectors_length] at hp
      have hb : L.length * bytesPerCluster sb = 512 * (L.length * sb.sectorsPerBlock) :=
        Nat.mul_left_comm ..
      omega
    · have := congrArg (List.map Prod.fst) hmark
      rwa [List.map_map, List.map_map] at this

/-! ## `fat32_dir_fcb_insert_offset` -/

/-- Slot `e` is free. -/
def slotFree (sb : Superblock) (d : Nat → Sector) (S : List Nat) (e : Nat) : Prop :=
  (slotEntry sb d S e).Name0FreeBool

/-- What `offset_ret_final` holds after `idx` slots, of which the last `cnt` are free. -/
def tailStart (base idx cnt : Nat) : Nat :=
  if cnt = 0 then if idx = 0 then 0 else base else idx - cnt

section
variable {S : List Nat} {base req idx T : Nat}

/-- The variables of the search after `idx` slots. -/
structure Tracks (sb : Superblock) (d : Nat → Sector) (S : List Nat) (base req idx : Nat)
    (s : FreeRun) : Prop where
  idx_eq : s.idx = idx
  tail : FreeTail (slotFree sb d S) req idx s.cnt
  final_eq : s.final = tailStart base idx s.cnt

/-- The offset is the least that fits. -/
abbrev Best (sb : Superblock) (d : Nat → Sector) (S : List Nat) (T req o : Nat) : Prop :=
  IsLeast {o | Fits (slotFree sb d S) T req o} o

/-- How a loop that looks at the slots before `q` ends. -/
def Searches (sb : Superblock) (d : Nat → Sector) (S : List Nat) (base req T q : Nat) :
    Searched → Prop
  | .done o => Best sb d S T req o ∧ o + req ≤ T
  | .more s => Tracks sb d S base req q s

theorem Tracks.busy {s : FreeRun} (h : Tracks sb d S base req idx s) (hb : ¬ slotFree sb d S idx)
    (hlt : idx + 1 < 2 ^ 32) :
    Tracks sb d S base req (idx + 1) { cnt := 0, final := base, idx := u32 (s.idx + 1) } where
  idx_eq := by rw [h.idx_eq, u32_of_lt hlt]
  tail := h.tail.busy hb
  final_eq := rfl

/-- The start of the free slots that are counted, with the slot `idx` among them. -/
theorem Tracks.start_eq {s : FreeRun} (h : Tracks sb d S base req idx s) :
    (if s.cnt = 0 then s.idx else s.final) = idx - s.cnt := by
  rw [h.idx_eq, h.final_eq]
  unfold tailStart
  split
  next h0 => rw [h0, Nat.sub_zero]
  next h0 => rfl

theorem Tracks.more {s : FreeRun} (h : Tracks sb d S base req idx s) (hf : slotFree sb d S idx)
    (hn : s.cnt + 1 < req) (hlt : idx + 1 < 2 ^ 32) :
    Tracks sb d S base req (idx + 1)
      { cnt := s.cnt + 1, final := if s.cnt = 0 then s.idx else s.final, idx := u32 (s.idx + 1) } where
  idx_eq := by rw [h.idx_eq, u32_of_lt hlt]
  tail := h.tail.more hf hn
  final_eq := by
    rw [h.start_eq]
    unfold tailStart
    rw [if_neg (Nat.succ_ne_zero _), Nat.add_sub_add_right]

/-- The loop over the entries of sector number `j`, with `m` of them left. -/
theorem insertEntries_searches {j sec : Nat} (hj : S[j]? = some sec) (hreq : req < 2 ^ 8)
    (hT : fcbPerBlock sb * (j + 1) ≤ T) (hlt : T < 2 ^ 32) : ∀ (m i : Nat) {s : FreeRun},
    i + m = fcbPerBlock sb → Tracks sb d S base req (fcbPerBlock sb * j + i) s →
    Searches sb d S base req T (fcbPerBlock sb * (j + 1))
      (insertEntries base req ((sectorEntries sb (d sec)).drop i) s) := by
  intro m
  induction m with
  | zero =>
    intro i s hi hs
    rw [Nat.add_zero] at hi
    rw [List.drop_eq_nil_of_le (by rw [sectorEntries, List.length_map, List.length_range, hi]),
      insertEntries, Nat.mul_succ]
    rw [hi] at hs
    exact hs
  | succ m ih =>
    intro i s hi hs
    have hq : fcbPerBlock sb * (j + 1) = fcbPerBlock sb * j + fcbPerBlock sb := Nat.mul_succ ..
    have hslot : slotFree sb d S (fcbPerBlock sb * j + i) ↔ (direntAt (d sec) i).Name0FreeBool := by
      unfold slotFree
      rw [slotEntry_of hj (by omega)]
    rw [sectorEntries_drop (by omega), insertEntries]
    by_cases hfree : (direntAt (d sec) i).Name0FreeBool
    · have hcnt := hs.tail.lt
      rw [if_neg (not_not.2 hfree), Nat.mod_eq_of_lt (by omega)]
      dsimp only
      by_cases hdone : s.cnt + 1 = req
      · rw [if_pos hdone, hs.start_eq]
        have hle := hs.tail.le
        exact ⟨hs.tail.found (hslot.2 hfree) hdone (by omega), by omega⟩
      · rw [if_neg hdone]
        exact ih (i + 1) (by omega) (hs.more (hslot.2 hfree) (by omega) (by omega))
    · rw [if_pos hfree]
      exact ih (i + 1) (by omega) (hs.busy (fun hf => hfree (hslot.1 hf)) (by omega))

/-- The loop over the sectors of a cluster, of which those in `pre` are done. -/
theorem insertSectors_run {dev : Dev} {first : Nat} {post : List Nat} (hreq : req < 2 ^ 8)
    (hT : T = fcbPerBlock sb * S.length) (hlt : T < 2 ^ 32) (n : Nat) :
    ∀ {k : Nat} {pre : List Nat} {s : FreeRun},
    S = pre ++ ((List.range' k n).map fun k => u32 (first + k)) ++ post →
    Tracks sb d S base req (fcbPerBlock sb * pre.length) s →
    ∃ r, (insertSectors sb dev base req first n k s).run d = .ok (r, d) ∧
      Searches sb d S base req T (fcbPerBlock sb * (pre.length + n)) r := by
  induction n with
  | zero =>
    intro k pre s _ hs
    exact ⟨_, rfl, hs⟩
  | succ n ih =>
    intro k pre s hS hs
    have hj : S[pre.length]? = some (u32 (first + k)) := by
      rw [hS, List.range'_succ]
      simp
    have hlen : pre.length + 1 ≤ S.length := by
      rw [hS, List.range'_succ]
      simp
    have hentries := @insertEntries_searches sb d S base req T _ _ hj hreq
      (by rw [hT]; exact Nat.mul_le_mul_left _ hlen) hlt (fcbPerBlock sb) 0 _ (Nat.zero_add _) hs
    rw [List.drop_zero] at hentries
    rw [insertSectors, Prog.run_bind, readSector, Prog.run_get, Res.ok_bind]
    dsimp only
    cases hr : insertEntries base req (sectorEntries sb (d (u32 (first + k)))) s with
    | done o =>
      rw [hr] at hentries
      exact ⟨_, rfl, hentries⟩
    | more s' =>
      rw [hr] at hentries
      have hS' : S = (pre ++ [u32 (first + k)]) ++
          ((List.range' (k + 1) n).map fun k => u32 (first + k)) ++ post := by
        rw [hS, List.range'_succ]
        simp
      have hpre : (pre ++ [u32 (first + k)]).length = pre.length + 1 := by simp
      obtain ⟨r, hrun, hr'⟩ := ih hS' (hpre ▸ hentries)
      rw [hpre, Nat.add_assoc, Nat.add_comm 1] at hr'
      exact ⟨r, hrun, hr'⟩

/-- What the search returns: a place for all entries, or the free slots at the end of the directory,
or `base`. -/
def Result (sb : Superblock) (d : Nat → Sector) (S : List Nat) (base req T o : Nat) : Prop :=
  (Best sb d S T req o ∧ o + req ≤ T) ∨
    ∃ cnt, FreeTail (slotFree sb d S) req T cnt ∧ o = tailStart base T cnt

/-- The loop over the clusters, of which those with the sectors `pre` are done. It returns, or comes
to a cluster that `fat32_next_cluster` does not take. -/
theorem insertClusters_run {dev : Dev} (hreq : req < 2 ^ 8) (hT : T = fcbPerBlock sb * S.length)
    (hlt : T < 2 ^ 32) : ∀ {L : List Nat} {fuel iter : Nat} {pre : List Nat} {s : FreeRun},
    Linked Iseof (fatNext sb d) iter L → S = pre ++ dirSectors sb L → L.length < fuel →
    Tracks sb d S base req (fcbPerBlock sb * pre.length) s →
    (∃ o, (insertClusters sb dev base req fuel iter s).run d = .ok (o, d) ∧
      Result sb d S base req T o) ∨
    ((insertClusters sb dev base req fuel iter s).run d = .error (.panic "assert failed") ∧
      ¬ AllAccepted sb L) := by
  intro L
  induction L with
  | nil =>
    intro fuel iter pre s hch hS hfuel hs
    obtain ⟨fuel, rfl⟩ := Nat.exists_eq_succ_of_ne_zero (Nat.ne_zero_of_lt hfuel)
    have hend : fcbPerBlock sb * pre.length = T := by
      rw [hT, hS]
      simp [dirSectors]
    rw [hend] at hs
    rw [insertClusters, if_pos (show Iseof iter from hch)]
    exact .inl ⟨_, rfl, .inr ⟨s.cnt, hs.tail, hs.final_eq⟩⟩
  | cons c L ih =>
    intro fuel iter pre s hch hS hfuel hs
    obtain ⟨fuel, rfl⟩ := Nat.exists_eq_succ_of_ne_zero (Nat.ne_zero_of_lt hfuel)
    obtain ⟨rfl, hstop, hlink⟩ := hch
    rw [dirSectors_cons, ← List.append_assoc] at hS
    obtain ⟨r, hrun, hr⟩ := @insertSectors_run sb d S base req T dev _ _ hreq hT hlt _ _ _ s hS hs
    rw [insertClusters, if_neg hstop, Prog.run_bind, hrun, Res.ok_bind]
    dsimp only
    cases r with
    | done o => exact .inl ⟨o, rfl, .inl hr⟩
    | more s' =>
      dsimp only
      rw [Prog.run_bind, run_nextCluster]
      by_cases hacc : Accepted sb iter
      · rw [if_pos hacc, Res.ok_bind, allAccepted_cons]
        have hs' : Tracks sb d S base req (fcbPerBlock sb * (pre ++ (List.range' 0
            sb.sectorsPerBlock).map fun k => u32 (firstSectorofCluster sb iter + k)).length) s' := by
          rw [List.length_append, List.length_map, List.length_range']
          exact hr
        obtain h | ⟨h, hno⟩ := ih hlink hS (Nat.lt_of_succ_lt_succ hfuel) hs'
        · exact .inl h
        · exact .inr ⟨h, fun hall => hno hall.2⟩
      · rw [if_neg hacc]
        exact .inr ⟨rfl, fun hall => hacc (allAccepted_cons.1 hall).1⟩

end

end

/-! ## Directories of `2 ^ 32` bytes -/

/-- A volume of 65600 clusters of 64 KiB. -/
def linearSb : Superblock :=
  { blankSb with
    sectorsPerBlock := 128, clusterSize := 65536, nSectors := 8397345, fatbase := 32, nFats := 1
    nSectorsFat := 513 }

theorem linearSb_volumeOk : VolumeOk linearSb := by
  constructor <;> decide

/-- The FAT entry of cluster `c` when the clusters from 2 to `n + 1` are a chain in this order. -/
def linearNext (n c : Nat) : Nat := if c = n + 1 then fatValidMask else c + 1

/-- The chain is a directory without free slots. -/
def linearDisk (n b : Nat) : Sector :=
  if b < 545 then fun i =>
    BitVec.ofNat 8 (linearNext n (128 * (b - 32) + i.toNat / 4) / 256 ^ (i.toNat % 4))
  else fun _ => 0x41

def linearDir (n : Nat) : Inode := { blankRoot with clusterCnt := n }

/-- The chain; its length is not to be computed by unfolding. -/
@[irreducible] def linearChain (n : Nat) : List Nat := (List.range n).map (· + 2)

theorem getDword_table {v : Nat → Nat} {j : Nat} (hj : j < 128) (hv : v j < 2 ^ 32) :
    getDword (fun i => BitVec.ofNat 8 (v (i.toNat / 4) / 256 ^ (i.toNat % 4))) (4 * j) = v j := by
  have h0 : (BitVec.ofNat 9 (4 * j)).toNat = 4 * j := by
    rw [BitVec.toNat_ofNat]
    omega
  have hsucc : ∀ x : BitVec 9, x.toNat < 511 → (x + 1).toNat = x.toNat + 1 := by
    intro x hx
    rw [BitVec.toNat_add, show (1 : BitVec 9).toNat = 1 from rfl]
    omega
  have h1 := hsucc (BitVec.ofNat 9 (4 * j)) (by omega)
  have h2 := hsucc (BitVec.ofNat 9 (4 * j) + 1) (by omega)
  have h3 := hsucc (BitVec.ofNat 9 (4 * j) + 1 + 1) (by omega)
  rw [h0] at h1
  rw [h1] at h2
  rw [h2] at h3
  unfold getDword
  simp only [Lib.loadNat, h0, h1, h2, h3, BitVec.toNat_ofNat]
  rw [show 4 * j / 4 = j by omega, show (4 * j + 1) / 4 = j by omega,
    show (4 * j + 2) / 4 = j by omega, show (4 * j + 3) / 4 = j by omega,
    show 4 * j % 4 = 0 by omega, show (4 * j + 1) % 4 = 1 by omega,
    show (4 * j + 2) % 4 = 2 by omega, show (4 * j + 3) % 4 = 3 by omega]
  omega

theorem fatNext_linear {n c : Nat} (hn : n ≤ 65599) (hc : c ≤ n + 1) :
    fatNext linearSb (linearDisk n) c = linearNext n c := by
  have hcount : countofClusters linearSb = 65600 := by decide
  have hc' : c ≤ countofClusters linearSb + 1 := by omega
  have hv : linearNext n c < 2 ^ 28 := by
    unfold linearNext fatValidMask
    split <;> omega
  have hsec : linearDisk n (linearSb.fatbase + c / 128) = fun i =>
      BitVec.ofNat 8 (linearNext n (128 * (c / 128) + i.toNat / 4) / 256 ^ (i.toNat % 4)) := by
    unfold linearDisk
    rw [show linearSb.fatbase = 32 from rfl, if_pos (by omega), Nat.add_sub_cancel_left]
  have hc128 : 128 * (c / 128) + c % 128 = c := Nat.div_add_mod ..
  unfold fatNext fat32ClusEntryVal
  rw [linearSb_volumeOk.fatOk.entSec_eq hc', linearSb_volumeOk.fatOk.entOffset_eq hc', hsec,
    getDword_table (v := fun k => linearNext n (128 * (c / 128) + k)) (Nat.mod_lt _ (by decide))
      (by rw [hc128]; omega), hc128, fatValidMask, show 0x0FFFFFFF = 2 ^ 28 - 1 from rfl,
    Nat.and_two_pow_sub_one_eq_mod, Nat.mod_eq_of_lt hv]

theorem linear_linked {n : Nat} (h0 : 0 < n) (hn : n ≤ 65599) :
    Linked Iseof (fatNext linearSb (linearDisk n)) 2 (linearChain n) := by
  obtain ⟨m, rfl⟩ := Nat.exists_eq_succ_of_ne_zero (Nat.ne_of_gt h0)
  have h := @Lib.linked_range_append Nat Iseof (fatNext linearSb (linearDisk (m + 1))) (· + 2) m []
    (by
      intro k hk
      show ¬ 0x0FFFFFF8 ≤ k + 2
      omega)
    (by
      intro k hk
      rw [fatNext_linear hn (by omega), linearNext, if_neg (by omega)])
    (by
      show Iseof (fatNext linearSb (linearDisk (m + 1)) (m + 2))
      rw [fatNext_linear hn (by omega), linearNext, if_pos rfl]
      decide)
  rw [List.append_nil] at h
  unfold linearChain
  exact h

theorem linear_accepted {n : Nat} (hn : n ≤ 65599) : AllAccepted linearSb (linearChain n) := by
  intro c hc
  unfold linearChain at hc
  obtain ⟨k, hk, rfl⟩ := List.mem_map.1 hc
  have hmax : fatClusterMax linearSb = 65601 := by decide
  rw [List.mem_range] at hk
  exact ⟨by omega, by rw [hmax]; omega⟩

theorem linearChain_length (n : Nat) : (linearChain n).length = n := by
  unfold linearChain
  rw [List.length_map, List.length_range]

/-- In a directory of more than `2 ^ 32` bytes, `fat32_inode_alloc` computes the number of the first
slot for slot `2 ^ 27`. -/
theorem alloc_inum_wraps :
    VolumeOk linearSb ∧
    Linked Iseof (fatNext linearSb (linearDisk 65537)) 2 (linearChain 65537) ∧
    AllAccepted linearSb (linearChain 65537) ∧
    2 ^ 27 < (linearChain 65537).length * linearSb.clusterSize / 32 ∧
    (allocInum linearSb 65538 (linearDir 65537) (2 ^ 27)).run (linearDisk 65537) =
      .ok (1, linearDisk 65537) ∧
    slotInum linearSb (dirSectors linearSb (linearChain 65537)) (2 ^ 27) = 134217729 := by
  have hlink := linear_linked (n := 65537) (by decide) (by decide)
  have hacc := linear_accepted (n := 65537) (by decide)
  have hlen := linearChain_length 65537
  have hget : ∀ k < 65537, (linearChain 65537)[k]? = some (k + 2) := by
    intro k hk
    unfold linearChain
    rw [List.getElem?_map, List.getElem?_range hk]
    rfl
  refine ⟨linearSb_volumeOk, hlink, hacc, by rw [hlen]; decide, ?_, ?_⟩
  · have hwrap : allocInum linearSb 65538 (linearDir 65537) (2 ^ 27) =
        allocInum linearSb 65538 (linearDir 65537) 0 := rfl
    have hfirst : slotInum linearSb (dirSectors linearSb (linearChain 65537)) 0 = 1 := by
      rw [slotInum_eq linearSb_volumeOk.sectors (hget 0 (by decide))]
      decide
    rw [hwrap, allocInum_run linearSb_volumeOk.sectors hlink hacc (by rw [hlen]; decide)
        (by rw [hlen]; decide) (by decide), hfirst]
  · have hidx : 2 ^ 27 * 32 / bytesPerCluster linearSb = 65536 := by decide
    rw [slotInum_eq linearSb_volumeOk.sectors (c := 65538)
      (by rw [hidx]; exact hget 65536 (by decide))]
    decide

/-- No slot of the directory is free. -/
theorem linear_busy {n e : Nat} (hn : n ≤ 65599) (he : e < 16 * (n * 128)) :
    ¬ slotFree linearSb (linearDisk n) (dirSectors linearSb (linearChain n)) e := by
  have hlen : (dirSectors linearSb (linearChain n)).length = n * 128 := by
    rw [dirSectors_length, linearChain_length]
    rfl
  have hsec : 545 ≤ slotSector linearSb (dirSectors linearSb (linearChain n)) e := by
    unfold slotSector
    have hlt : e / fcbPerBlock linearSb < (dirSectors linearSb (linearChain n)).length := by
      rw [hlen, fcbPerBlock_eq rfl]
      omega
    rw [List.getD_eq_getElem?_getD, List.getElem?_eq_getElem hlt, Option.getD_some]
    obtain ⟨c, hc, hmem⟩ := List.mem_flatMap.1 (List.getElem_mem hlt)
    obtain ⟨k, hk, heq⟩ := List.mem_map.1 hmem
    have hdata : DataCluster linearSb c := by
      obtain ⟨h1, h2⟩ := linear_accepted hn c hc
      refine ⟨h1, ?_⟩
      rw [linearSb_volumeOk.fatOk.fatClusterMax_eq] at h2
      omega
    rw [← heq, linearSb_volumeOk.sector_eq hdata (List.mem_range.1 hk),
      linearSb_volumeOk.firstSector_eq hdata, show firstDataSector linearSb = 545 by decide]
    omega
  unfold slotFree slotEntry linearDisk
  rw [if_neg (by omega)]
  show ¬ ((0x41 : BitVec 8) = 0xE5 ∨ (0x41 : BitVec 8) = 0)
  decide

theorem alloc_inum_eq_single :
    (allocInum blankSb 2 blankRoot 1).run singleDisk = .ok (2, singleDisk) := by
  have h := (alloc_inum_eq blankSb_volumeOk.sectors rfl
    (diskWith_linked (sectorOf (longA ++ shortA))) (by decide) (Nat.lt_succ_self 1)).1 1 (by decide)
    (by decide)
  exact h

end Fs
