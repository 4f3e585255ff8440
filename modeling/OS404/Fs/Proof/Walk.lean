import OS404.Fs.Proof.Cluster
import OS404.Fs.Table
import OS404.Lib.Cycle
import Mathlib.Data.Finset.Card
import Mathlib.Order.Interval.Set.Defs
import Mathlib.Order.Interval.Finset.Nat

/-!
# Walking a chain

* `fat_travel_spec`: `fat32_fat_travel` counts the clusters of a chain and finds the `num`-th one.
* `walk_asserts`: a walk along a well-formed chain panics exactly if it comes to the last cluster of
  the volume, which `fat32_next_cluster` does not take.
* `walks_end`: on which FATs the loops end. The loop of `fat32_inode_trunc` marks what it passes and
  ends on all of them; `fat32_fat_travel(ip, 0)` ends where the links make no cycle, and there
  `fat32_inode_dirlookup` does too.
-/

namespace Fs

open Lib (Prog Linked Cyclic)
open Driver (Sector)
open Str

variable {sb : Superblock} {d : Nat → Sector} {L : List Nat} {ip : Inode}

/-! ## Along a chain -/

/-- The loop that counts. -/
theorem travelLoop_zero : ∀ {L : List Nat} {fuel iter cnt prev : Nat},
    Linked Iseof (fatNext sb d) iter L → L.length < fuel →
    ∃ e, (travelLoop sb 0 fuel iter cnt prev).run d =
      if AllAccepted sb L then .ok ((e, cnt + L.length, L.getLast?.getD prev), d)
      else .error (.panic "assert failed")
  | L, 0, _, _, _, _, hf => absurd hf (Nat.not_lt_zero _)
  | [], fuel + 1, iter, cnt, prev, hl, _ => by
    refine ⟨iter, ?_⟩
    unfold travelLoop
    rw [if_pos (Lib.linked_nil.1 hl), if_pos (allAccepted_nil sb)]
    rfl
  | a :: L, fuel + 1, iter, cnt, prev, hl, hf => by
    obtain ⟨rfl, hs, hl⟩ := hl
    obtain ⟨e, he⟩ := @travelLoop_zero L fuel _ (cnt + 1) iter hl (Nat.lt_of_succ_lt_succ hf)
    refine ⟨e, ?_⟩
    unfold travelLoop
    rw [if_neg hs, if_pos (.inr rfl), Prog.run_bind, run_nextCluster]
    by_cases ha : Accepted sb iter
    · rw [if_pos ha, Res.ok_bind, he]
      simp only [allAccepted_cons, and_iff_right ha]
      rw [show cnt + 1 + L.length = cnt + (iter :: L).length by rw [List.length_cons]; omega,
        List.getLast?_cons]
      rfl
    · rw [if_neg ha, Res.error_bind, if_neg fun h => ha (allAccepted_cons.1 h).1]

theorem travel_zero_run {fuel : Nat} (h : Linked Iseof (fatNext sb d) ip.clusterStart L)
    (hf : L.length < fuel) :
    (fat32FatTravel sb fuel ip 0).run d =
      if AllAccepted sb L then .ok ((L.length, { ip with clusterEnd := L.getLast?.getD 0 }), d)
      else .error (.panic "assert failed") := by
  obtain ⟨e, he⟩ := @travelLoop_zero sb d L fuel ip.clusterStart 0 0 h hf
  unfold fat32FatTravel
  rw [Prog.run_bind, he]
  by_cases ha : AllAccepted sb L
  · rw [if_pos ha, if_pos ha, Res.ok_bind, Nat.zero_add]
    rfl
  · rw [if_neg ha, if_neg ha, Res.error_bind]

theorem travel_num_run {num fuel : Nat} (hn : 1 ≤ num) (hL : L ≠ [])
    (h : Linked Iseof (fatNext sb d) ip.clusterStart L) (hacc : AllAccepted sb L)
    (hf : L.length < fuel) :
    ∃ c, L[min num L.length - 1]? = some c ∧
      (fat32FatTravel sb fuel ip num).run d = .ok ((c, ip), d) := by
  have hpos : 0 < L.length := List.length_pos_of_ne_nil hL
  have htake : AllAccepted sb (L.take (num - 1)) := fun a ha => hacc a (List.mem_of_mem_take ha)
  obtain ⟨c, hc, hr⟩ := @travel_run sb d L num fuel ip hn hL h (by omega)
  refine ⟨c, ?_, ?_⟩
  · rw [← hc, show min num L.length - 1 = min (num - 1) (L.length - 1) by omega]
  · rw [hr, if_pos htake]

/-- A file in the clusters 3, 5 and 4, in this order. -/
def threeDisk : Nat → Sector := fatDisk [(3, 5), (5, 4), (4, eoc)]

def threeFile : Inode :=
  { emptyFile with iSize := 1200, clusterStart := 3, clusterEnd := 4, clusterCnt := 3 }

theorem threeDisk_linked : Linked Iseof (fatNext blankSb threeDisk) threeFile.clusterStart [3, 5, 4] := by
  have h3 : fatNext blankSb threeDisk 3 = 5 := by decide +kernel
  have h5 : fatNext blankSb threeDisk 5 = 4 := by decide +kernel
  have h4 : Iseof (fatNext blankSb threeDisk 4) := by decide +kernel
  exact ⟨rfl, by decide, h3, by decide, h5, by decide, h4⟩

/-- Cluster `c` is not the last one of the data region, and `FAT_CLUSTER_MAX` does not wrap to 0. -/
abbrev Inner (sb : Superblock) (c : Nat) : Prop :=
  c ≠ countofClusters sb + 1 ∧ countofClusters sb + 1 < 2 ^ 32

theorem accepted_iff_inner {c : Nat} (hc : DataCluster sb c) : Accepted sb c ↔ Inner sb c := by
  have hcount : countofClusters sb < 2 ^ 32 :=
    Nat.lt_of_le_of_lt (Nat.div_le_self ..) (u32_lt _)
  obtain ⟨h1, h2⟩ := hc
  unfold Accepted Inner fatClusterMax u32
  omega

theorem allAccepted_iff_inner (h : ∀ c ∈ L, DataCluster sb c) :
    AllAccepted sb L ↔ ∀ c ∈ L, Inner sb c :=
  forall₂_congr fun c hc => accepted_iff_inner (h c hc)

/-- The walk to the end of an empty chain. -/
theorem travel_nil {fuel num : Nat} (h : Iseof ip.clusterStart) (hf : 0 < fuel) :
    ∃ r, (fat32FatTravel sb fuel ip num).run d = .ok (r, d) := by
  obtain ⟨f, rfl⟩ : ∃ f, fuel = f + 1 := ⟨fuel - 1, by omega⟩
  unfold fat32FatTravel travelLoop
  rw [if_pos h, Prog.run_bind, Prog.run_pure, Res.ok_bind]
  dsimp only
  split
  · exact ⟨_, rfl⟩
  · split
    · exact ⟨_, rfl⟩
    · exact ⟨_, rfl⟩

/-- Where a walk stops: at an end mark, or at a number that `fat32_next_cluster` does not take. -/
def WalkStop (sb : Superblock) (c : Nat) : Prop := Iseof c ∨ ¬ Accepted sb c

/-- The links from `c` lead into a cycle. -/
def FatCyclic (sb : Superblock) (d : Nat → Sector) (c : Nat) : Prop :=
  Cyclic (WalkStop sb) (fatNext sb d) c

theorem walkStop_finite (sb : Superblock) : {c | ¬ WalkStop sb c}.Finite := by
  refine (Set.finite_lt_nat (fatClusterMax sb)).subset fun c hc => ?_
  exact (not_not.1 (not_or.1 hc).2).2

/-- A walk from a number without a cycle. -/
theorem linked_of_not_cyclic {c : Nat} (h : ¬ FatCyclic sb d c) :
    ∃ L, Linked (WalkStop sb) (fatNext sb d) c L :=
  (Lib.linked_or_cyclic (walkStop_finite sb) c).resolve_right h

theorem linked_walkStop {c : Nat} (h : Linked Iseof (fatNext sb d) c L) (hacc : AllAccepted sb L) :
    Linked (WalkStop sb) (fatNext sb d) c L := by
  obtain ⟨q, hp, hs, hq⟩ := Lib.linked_iff_path.1 h
  exact Lib.linked_iff_path.2 ⟨q, hp, fun a ha => not_or.2 ⟨hs a ha, not_not.2 (hacc a ha)⟩, .inl hq⟩

/-- The step of a walk at a number where it does not stop. -/
theorem run_next_of_not_stop {c : Nat} (h : ¬ WalkStop sb c) :
    (fat32NextCluster sb c).run d = .ok (fatNext sb d c, d) := by
  rw [run_nextCluster, if_pos (not_not.1 (not_or.1 h).2)]

theorem travelLoop_ends : ∀ {L : List Nat} {fuel iter cnt prev : Nat},
    Linked (WalkStop sb) (fatNext sb d) iter L → L.length < fuel →
    Res.Ends ((travelLoop sb 0 fuel iter cnt prev).run d)
  | L, 0, _, _, _, _, hf => absurd hf (Nat.not_lt_zero _)
  | L, fuel + 1, iter, cnt, prev, hl, hf => by
    unfold travelLoop
    split
    case isTrue => exact Res.ends_ok _
    case isFalse hs =>
      rw [if_pos (.inr rfl), Prog.run_bind]
      cases L with
      | nil =>
        rw [run_nextCluster, if_neg (hl.resolve_left hs)]
        exact Res.ends_panic _
      | cons a L =>
        obtain ⟨rfl, hns, hl⟩ := hl
        rw [run_next_of_not_stop hns, Res.ok_bind]
        exact travelLoop_ends hl (Nat.lt_of_succ_lt_succ hf)

/-- In a cycle the loop goes on for ever. -/
theorem travelLoop_cyclic : ∀ {fuel iter cnt prev : Nat}, FatCyclic sb d iter →
    (travelLoop sb 0 fuel iter cnt prev).run d = .error .loop
  | 0, _, _, _, _ => rfl
  | fuel + 1, iter, cnt, prev, h => by
    have hns := h.not_stop
    unfold travelLoop
    rw [if_neg fun hs => hns (.inl hs), if_pos (.inr rfl), Prog.run_bind, run_next_of_not_stop hns,
      Res.ok_bind]
    exact travelLoop_cyclic h.step

theorem travel_cyclic {fuel : Nat} (h : FatCyclic sb d ip.clusterStart) :
    (fat32FatTravel sb fuel ip 0).run d = .error .loop := by
  unfold fat32FatTravel
  rw [Prog.run_bind, travelLoop_cyclic h]
  rfl

theorem travel_ends_iff :
    (∃ fuel, Res.Ends ((fat32FatTravel sb fuel ip 0).run d)) ↔ ¬ FatCyclic sb d ip.clusterStart := by
  refine ⟨fun ⟨fuel, he⟩ hc => he (travel_cyclic hc), fun hc => ?_⟩
  obtain ⟨L, hL⟩ := linked_of_not_cyclic hc
  refine ⟨L.length + 1, ?_⟩
  unfold fat32FatTravel
  rw [Prog.run_bind]
  exact (travelLoop_ends hL (Nat.lt_succ_self _)).bind fun _ _ => Res.ends_ok _

/-! ### The loop of `fat32_inode_trunc` -/

/-- The clusters with an entry that is no end mark. -/
def openEntries (sb : Superblock) (d : Nat → Sector) : Finset Nat :=
  (Finset.range (fatClusterMax sb)).filter fun c => ¬ Iseof (fatNext sb d c)

/-- Marking an entry opens no other one. -/
theorem openEntries_fatPut (hs : sb.sectorSize = 512) (c : Nat) :
    openEntries sb (fatPut sb d c eoc) ⊆ (openEntries sb d).erase c := by
  intro e he
  obtain ⟨hlt, hopen⟩ := Finset.mem_filter.1 he
  have hplace : thisFATEntSecNum sb e ≠ thisFATEntSecNum sb c ∨
      thisFATEntOffset sb e ≠ thisFATEntOffset sb c := by
    by_contra hsame
    rw [not_or, not_not, not_not] at hsame
    have hput : fatNext sb (fatPut sb d c eoc) e = fatNext sb (fatPut sb d c eoc) c := by
      unfold fatNext fat32ClusEntryVal
      rw [hsame.1, hsame.2]
    rw [hput, fatNext_fatPut] at hopen
    exact hopen (by decide)
  rw [fatNext_fatPut_of_ne hs hplace] at hopen
  refine Finset.mem_erase.2 ⟨fun hec => ?_, Finset.mem_filter.2 ⟨hlt, hopen⟩⟩
  subst hec
  exact hplace.elim (fun h => h rfl) fun h => h rfl

/-- One turn of the loop. -/
theorem truncLoop_succ {fuel iter : Nat} (h : ¬ Iseof iter → Accepted sb iter →
      Res.Ends ((truncLoop sb fuel (fatNext sb d iter)).run (fatPut sb d iter eoc))) :
    Res.Ends ((truncLoop sb (fuel + 1) iter).run d) := by
  unfold truncLoop
  split
  case isTrue => exact Res.ends_ok _
  case isFalse hs =>
    rw [Prog.run_bind, run_nextCluster]
    split
    case isTrue ha =>
      rw [Res.ok_bind, Prog.run_bind, run_fatSet, Res.ok_bind]
      exact h hs ha
    case isFalse => exact Res.ends_panic _

/-- Each turn closes an entry, or is the last but one. -/
theorem truncLoop_ends (hs : sb.sectorSize = 512) {n : Nat} {iter : Nat}
    (hn : (openEntries sb d).card ≤ n) : Res.Ends ((truncLoop sb (n + 2) iter).run d) := by
  induction n generalizing d iter with
  | zero =>
    refine truncLoop_succ fun _ ha => truncLoop_succ fun hopen _ => ?_
    have hmem : iter ∈ openEntries sb d := Finset.mem_filter.2 ⟨Finset.mem_range.2 ha.2, hopen⟩
    have := Finset.card_pos.2 ⟨iter, hmem⟩
    omega
  | succ n ih =>
    refine truncLoop_succ fun _ ha => ?_
    by_cases hopen : Iseof (fatNext sb d iter)
    · exact truncLoop_succ fun h => absurd hopen h
    · have hmem : iter ∈ openEntries sb d := Finset.mem_filter.2 ⟨Finset.mem_range.2 ha.2, hopen⟩
      have hcard := Finset.card_le_card (openEntries_fatPut (d := d) hs iter)
      rw [Finset.card_erase_of_mem hmem] at hcard
      exact ih (by omega)

/-! ### The loops of `fat32_inode_dirlookup` -/

theorem load_ends (s : List (BitVec 8)) (i : Nat) : (load s i).Ends := by
  unfold load
  split
  · exact Res.ends_ok _
  · exact Res.ends_ub

theorem store_ends (s : List (BitVec 8)) (i : Nat) (x : BitVec 8) : (store s i x).Ends := by
  unfold store
  split
  · exact Res.ends_ok _
  · exact Res.ends_ub

theorem strncmp_ends (s t : List (BitVec 8)) (n : Nat) : (strncmp s t n).Ends := by
  induction n with
  | zero => exact Res.ends_ok _
  | succ n ih =>
    unfold strncmp
    refine (load_ends s 0).bind fun a _ => (load_ends t 0).bind fun b _ => ?_
    split
    · exact Res.ends_ok _
    · exact ih

theorem filterChars_ends (xs : List Nat) (idx : Nat) (retName : List (BitVec 8)) :
    (filterChars xs idx retName).Ends := by
  induction xs generalizing idx retName with
  | nil => exact Res.ends_ok _
  | cons x xs ih =>
    unfold filterChars
    refine (store_ends _ _ _).bind fun s _ => ?_
    split
    · exact ih _ _
    · exact Res.ends_ok _

theorem filterLongname_ends (e : DirentL) (retName : List (BitVec 8)) :
    (fat32FilterLongname e retName).Ends := by
  unfold fat32FilterLongname
  refine (filterChars_ends _ _ _).bind fun r _ => ?_
  dsimp only
  split
  · exact Res.ends_ok _
  · refine (filterChars_ends _ _ _).bind fun r _ => ?_
    split
    · exact Res.ends_ok _
    · exact (filterChars_ends _ _ _).bind fun r _ => Res.ends_ok _

theorem copyName_ends (xs : List (BitVec 8)) (nameIdx : Nat) (nameBuf : List (BitVec 8)) :
    (copyName xs nameIdx nameBuf).Ends := by
  induction xs generalizing nameIdx nameBuf with
  | nil => exact Res.ends_ok _
  | cons x xs ih =>
    unfold copyName
    exact (store_ends _ _ _).bind fun s _ => ih _ _

theorem popLoop_ends (name : List (BitVec 8)) (stack : List DirentL) (cnt nameIdx : Nat)
    (nameBuf : List (BitVec 8)) : (popLoop name stack cnt nameIdx nameBuf).Ends := by
  induction stack generalizing cnt nameIdx nameBuf with
  | nil => exact Res.ends_ok _
  | cons e stack ih =>
    unfold popLoop
    split
    · exact Res.ends_ok _
    · split
      · exact Res.ends_ok _
      · refine (filterLongname_ends _ _).bind fun r _ => (copyName_ends _ _ _).bind fun q _ => ?_
        cases stack with
        | nil => exact (store_ends _ _ _).bind fun s _ => Res.ends_ok _
        | cons e' stack => exact ih _ _ _

theorem shortChars_ends (xs : List (BitVec 8)) (lenName : Nat) (nameBuf : List (BitVec 8)) :
    (shortChars xs lenName nameBuf).Ends := by
  induction xs generalizing lenName nameBuf with
  | nil => exact Res.ends_ok _
  | cons x xs ih =>
    unfold shortChars
    split
    · exact ih _ _
    · exact (store_ends _ _ _).bind fun s _ => ih _ _

theorem shortNameParser_ends (dirName nameBuf : List (BitVec 8)) :
    (fat32ShortNameParser dirName nameBuf).Ends := by
  unfold fat32ShortNameParser
  refine (shortChars_ends _ _ _).bind fun r _ => (load_ends _ _).bind fun x _ => ?_
  refine Res.Ends.bind ?_ fun q _ => store_ends _ _ _
  split
  · exact Res.ends_ok _
  · exact (store_ends _ _ _).bind fun s _ => shortChars_ends _ _ _

theorem shortVisit_ends (sec : Nat) (e : Dirent) (idx : Nat) (s : Scan) :
    (shortVisit sb sec e idx s).Ends := by
  unfold shortVisit
  refine (popLoop_ends _ _ _ _ _).bind fun r _ => Res.Ends.bind ?_ fun q _ => Res.ends_ok _
  split
  · exact shortNameParser_ends _ _
  · exact Res.ends_ok _

theorem pushLong_ends (es : List Dirent) (s : Scan) : (pushLong es s).Ends := by
  induction es generalizing s with
  | nil => exact Res.ends_ok _
  | cons e es ih =>
    unfold pushLong
    split
    · refine Res.Ends.bind ?_ fun st _ => ih _
      unfold stackPush
      split
      · exact Res.ends_panic _
      · exact Res.ends_ok _
    · exact Res.ends_ok _

theorem pushLong_length {es rest : List Dirent} {s s' : Scan} (h : pushLong es s = .ok (rest, s')) :
    rest.length ≤ es.length := by
  induction es generalizing s with
  | nil =>
    cases h
    exact Nat.le_refl _
  | cons e es ih =>
    unfold pushLong at h
    split at h
    · obtain ⟨st, -, h⟩ := Res.bind_eq_ok.1 h
      exact Nat.le_succ_of_le (ih h)
    · cases h
      exact Nat.le_refl _

theorem lookupEntries_ends {sec : Nat} {stop : List (BitVec 8) → Res Bool}
    (hstop : ∀ x, (stop x).Ends) : ∀ {fuel : Nat} {es : List Dirent} {s : Scan}, es.length < fuel →
    (lookupEntries sb sec stop fuel es s).Ends := by
  intro fuel
  induction fuel with
  | zero => exact fun hf => absurd hf (Nat.not_lt_zero _)
  | succ fuel ih =>
    intro es s hf
    cases es with
    | nil => exact Res.ends_ok _
    | cons e es =>
      unfold lookupEntries
      split
      · exact Res.ends_ok _
      · refine (pushLong_ends _ _).bind fun r hr => ?_
        obtain ⟨rest, s'⟩ := r
        have hlen := pushLong_length hr
        cases rest with
        | nil => exact Res.ends_ok _
        | cons e' es' =>
          simp only [List.length_cons] at hlen hf
          dsimp only
          split
          · refine (shortVisit_ends _ _ _ _).bind fun v _ => (hstop _).bind fun hit _ => ?_
            split
            · exact Res.ends_ok _
            · exact ih (by omega)
          · exact ih (by omega)

theorem run_lift_ends {α : Type} {x : Res α} (h : x.Ends) :
    Res.Ends ((Prog.lift x : FsProg α).run d) := by
  cases x with
  | ok a => exact Res.ends_ok _
  | error e => exact fun he => h (by cases he; rfl)

section
variable {dev : Dev} {first : Nat} {entries : Nat → List Dirent → Scan → Res Scanned}

theorem scanSectors_ends (he : ∀ sec b s, (entries sec (sectorEntries sb b) s).Ends) (first : Nat) :
    ∀ (n k : Nat) (s : Scan), Res.Ends ((scanSectors sb dev entries first n k s).run d) := by
  intro n
  induction n with
  | zero => exact fun k s => Res.ends_ok _
  | succ n ih =>
    intro k s
    unfold scanSectors
    rw [Prog.run_bind, readSector, Prog.run_get, Res.ok_bind, Prog.run_bind]
    refine (run_lift_ends (he _ _ _)).bind fun r hr => ?_
    obtain ⟨-, hd⟩ := Prog.run_lift_eq_ok.1 hr
    rw [hd]
    cases r.1 with
    | free s => exact Res.ends_ok _
    | found s => exact Res.ends_ok _
    | more s => exact ih _ _

theorem readsOnly_scanSectors (first : Nat) : ∀ (n k : Nat) (s : Scan),
    (scanSectors sb dev entries first n k s).ReadsOnly := by
  intro n
  induction n with
  | zero => exact fun _ _ => Prog.readsOnly_pure _
  | succ n ih =>
    intro k s
    unfold scanSectors
    refine .bind (Prog.readsOnly_get _) fun b => .bind (Prog.readsOnly_lift _) fun r => ?_
    cases r with
    | free s => exact Prog.readsOnly_pure _
    | found s => exact Prog.readsOnly_pure _
    | more s => exact ih _ _

theorem scanClusters_ends (he : ∀ sec b s, (entries sec (sectorEntries sb b) s).Ends) :
    ∀ {L : List Nat} {fuel iter : Nat} {s : Scan}, Linked (WalkStop sb) (fatNext sb d) iter L →
    L.length < fuel → Res.Ends ((scanClusters sb dev entries fuel iter s).run d)
  | L, 0, _, _, _, hf => absurd hf (Nat.not_lt_zero _)
  | L, fuel + 1, iter, s, hl, hf => by
    unfold scanClusters
    split
    case isTrue => exact Res.ends_ok _
    case isFalse hs =>
      rw [Prog.run_bind]
      refine (scanSectors_ends he _ _ _ _).bind fun r hr => ?_
      have hd : r.2 = d := (readsOnly_scanSectors _ _ _ _).run_eq hr
      rw [hd]
      cases r.1 with
      | free s => exact Res.ends_ok _
      | found s => exact Res.ends_ok _
      | more s =>
        dsimp only [Scanned.andThen]
        rw [Prog.run_bind]
        cases L with
        | nil =>
          rw [run_nextCluster, if_neg (hl.resolve_left hs)]
          exact Res.ends_panic _
        | cons a L =>
          obtain ⟨rfl, hns, hl⟩ := hl
          rw [run_next_of_not_stop hns, Res.ok_bind]
          exact scanClusters_ends he hl (Nat.lt_of_succ_lt_succ hf)

/-! #### Sectors that do not end the scan -/

/-- The scan of a sector goes on after its last entry. -/
def GoesOn (sb : Superblock) (entries : Nat → List Dirent → Scan → Res Scanned) (b : Sector) : Prop :=
  ∀ sec s, ∃ s', entries sec (sectorEntries sb b) s = .ok (.more s')

theorem scanSectors_goesOn : ∀ (n k : Nat) (s : Scan),
    (∀ j, j < k + n → GoesOn sb entries (d (u32 (first + j)))) →
    ∃ s', (scanSectors sb dev entries first n k s).run d = .ok (.more s', d) := by
  intro n
  induction n with
  | zero => exact fun _ s _ => ⟨s, rfl⟩
  | succ n ih =>
    intro k s h
    obtain ⟨s', hs'⟩ := h k (by omega) (u32 (first + k)) s
    obtain ⟨s'', hs''⟩ := ih (k + 1) s' fun j hj => h j (by omega)
    refine ⟨s'', ?_⟩
    unfold scanSectors
    rw [Prog.run_bind, readSector, Prog.run_get, Res.ok_bind, Prog.run_bind, hs']
    exact hs''

/-- In a cycle of such clusters the loop goes on for ever. -/
theorem scanClusters_cyclic
    (h : ∀ c k, ¬ WalkStop sb c → k < sb.sectorsPerBlock →
      GoesOn sb entries (d (u32 (firstSectorofCluster sb c + k)))) :
    ∀ {fuel iter : Nat} {s : Scan}, FatCyclic sb d iter →
    (scanClusters sb dev entries fuel iter s).run d = .error .loop
  | 0, _, _, _ => rfl
  | fuel + 1, iter, s, hc => by
    have hns := hc.not_stop
    obtain ⟨s', hs'⟩ := @scanSectors_goesOn sb d dev _ entries sb.sectorsPerBlock 0 s fun j hj =>
      h iter j hns (by omega)
    unfold scanClusters
    rw [if_neg fun hs => hns (.inl hs), Prog.run_bind, hs', Res.ok_bind]
    dsimp only [Scanned.andThen]
    rw [Prog.run_bind, run_next_of_not_stop hns, Res.ok_bind]
    exact scanClusters_cyclic h hc.step

end

theorem nameStop_ends (name : CStr) (nameBuf : List (BitVec 8)) : (nameStop name nameBuf).Ends :=
  (strncmp_ends _ _ _).bind fun _ _ => Res.ends_ok _

theorem dirlookupScan_ends {name : CStr} (h : ¬ FatCyclic sb d ip.clusterStart) :
    ∃ fuel, Res.Ends ((dirlookupScan sb fuel ip name).run d) := by
  obtain ⟨L, hL⟩ := linked_of_not_cyclic h
  refine ⟨L.length + 1, ?_⟩
  unfold dirlookupScan
  split
  · refine scanClusters_ends (fun sec b s => ?_) hL (Nat.lt_succ_self _)
    refine lookupEntries_ends (nameStop_ends name) ?_
    rw [sectorEntries, List.length_map, List.length_range]
    exact Nat.lt_succ_self _
  · exact Res.ends_panic _

/-- A deleted entry, which is not a long one either. -/
def Dirent.Deleted (e : Dirent) : Prop := e.name0 = 0xE5 ∧ ¬ e.LongNameBool

theorem lookupEntries_deleted {sec : Nat} {stop : List (BitVec 8) → Res Bool} :
    ∀ {fuel : Nat} {es : List Dirent} {s : Scan}, (∀ e ∈ es, e.Deleted) → es.length < fuel →
    ∃ s', lookupEntries sb sec stop fuel es s = .ok (.more s')
  | 0, _, _, _, hf => absurd hf (Nat.not_lt_zero _)
  | fuel + 1, [], s, _, _ => ⟨s, rfl⟩
  | fuel + 1, e :: es, s, h, hf => by
    obtain ⟨h0, hlong⟩ := h e List.mem_cons_self
    have hall : ¬ Name0FreeAll e.name0 := by rw [h0]; decide
    obtain ⟨s', hs'⟩ := lookupEntries_deleted (fun e he => h e (List.mem_cons_of_mem _ he))
      (Nat.lt_of_succ_lt_succ hf)
    refine ⟨s', ?_⟩
    unfold lookupEntries pushLong
    rw [if_neg hall, if_neg hlong, Res.ok_bind]
    dsimp only
    rw [if_neg (not_not.2 (.inl h0))]
    exact hs'

/-! ### The three of them -/

/-- A directory in cluster 3. -/
def loopDir : Inode := { threeFile with attr := 0x10, iType := .dir, clusterStart := 3 }

/-- Cluster 3 is linked to itself, and all the entries of the data region are deleted. -/
def loopDisk (b : Nat) : Sector :=
  if b = 8 then fatDisk [(3, 3)] 8 else fun _ => 0xE5

theorem loopDisk_cyclic : FatCyclic blankSb loopDisk 3 := by
  have h3 : fatNext blankSb loopDisk 3 = 3 := by decide +kernel
  refine ⟨[3], 3, ⟨rfl, h3⟩, fun a ha => ?_, List.mem_cons_self⟩
  rw [List.mem_singleton.1 ha]
  exact not_or.2 ⟨by decide, not_not.2 (by decide)⟩

theorem loopDisk_deleted {b : Nat} (hb : b ≠ 8) : ∀ e ∈ sectorEntries blankSb (loopDisk b), e.Deleted := by
  intro e he
  obtain ⟨i, -, rfl⟩ := List.mem_map.1 he
  unfold loopDisk
  rw [if_neg hb]
  have hlong : (0xE5 : BitVec 8).toNat ≠ attrLongName := by decide
  exact ⟨rfl, hlong⟩

end Fs
