import OS404.Fs.Proof.Dir
import OS404.Fs.Proof.Path

/-!
# The slots of a directory

The slots of a directory are counted from 0 over the sectors of its clusters. Slot `e` is slot
`e % FCB_PER_BLOCK` of sector number `e / FCB_PER_BLOCK` (`slotSector`, `slotEntry`), and `slotInum`
is the number that belongs to it.

The scans of `fat32_inode_dirlookup` and `fat32_getdents` count in `off`. Where the loop over long
entries comes to the end of a sector, both loops have counted the last entry (`drift`). On any
directory a scan that has come to slot `p` has visited the live short entries before `p`, each with
its inode number and with its slot plus the drift (`Marked`): a loop over one sector keeps this
(`lookupEntries_reaches`), and so do the loops over the sectors and the clusters.

* `scan_offsets`: what both functions take for the slot of an entry, and when it is right.
* `scan_offset_drifts`: a name over a sector boundary moves every later entry by one.
-/

namespace Fs

open Lib (Prog Linked)
open Driver (Sector)
open Str

/-! ## Slots -/

/-- The sectors of a directory with chain `L`. -/
def dirSectors (sb : Superblock) (L : List Nat) : List Nat :=
  L.flatMap fun c => (List.range sb.sectorsPerBlock).map fun k => u32 (firstSectorofCluster sb c + k)

/-- A live short entry. -/
def Dirent.Live (e : Dirent) : Prop := ¬ e.LongNameBool ∧ ¬ e.Name0FreeBool

instance (e : Dirent) : Decidable e.Live := inferInstanceAs (Decidable (_ ∧ _))

/-- The last entry of the sector is a long one. -/
abbrev EndsLong (sb : Superblock) (b : Sector) : Prop :=
  (direntAt b (fcbPerBlock sb - 1)).LongNameBool

section
variable (sb : Superblock) (d : Nat → Sector) (S : List Nat)

/-- The sector of slot `e` in a directory with the sectors `S`. -/
def slotSector (e : Nat) : Nat := S.getD (e / fcbPerBlock sb) 0

def slotEntry (e : Nat) : Dirent := direntAt (d (slotSector sb S e)) (e % fcbPerBlock sb)

def slotInum (e : Nat) : Nat := sectorToFatinum sb (slotSector sb S e) (e % fcbPerBlock sb)

/-- The sectors before slot `e` that end in a long entry. -/
def drift (e : Nat) : Nat := ((S.take (e / fcbPerBlock sb)).countP fun s => EndsLong sb (d s))

/-- The inode number and `off` of a visit. -/
def Visit.mark (v : Visit) : Nat × Nat := (v.inum, v.off)

/-- What a scan takes for the inode number and the slot of the entry in slot `e`. -/
def slotMark (e : Nat) : Nat × Nat := (slotInum sb S e, u32 (e + drift sb d S e))

/-- The live short entries before slot `p`. -/
def liveBefore (p : Nat) : List Nat := (List.range p).filter fun e => (slotEntry sb d S e).Live

/-- The visits are those of the live short entries before slot `p`. -/
def Marked (p : Nat) (vs : List Visit) : Prop :=
  vs.map Visit.mark = (liveBefore sb d S p).map (slotMark sb d S)

end

section
variable {sb : Superblock} {d : Nat → Sector} {S : List Nat}

theorem mem_liveBefore {p e : Nat} :
    e ∈ liveBefore sb d S p ↔ e < p ∧ (slotEntry sb d S e).Live := by
  unfold liveBefore
  rw [List.mem_filter, List.mem_range, decide_eq_true_eq]

theorem liveBefore_succ (p : Nat) :
    liveBefore sb d S (p + 1) =
      liveBefore sb d S p ++ if (slotEntry sb d S p).Live then [p] else [] := by
  unfold liveBefore
  rw [List.range_succ, List.filter_append]
  congr 1
  by_cases h : (slotEntry sb d S p).Live <;> simp [h]

theorem Marked.skip {p : Nat} {vs : List Visit} (h : Marked sb d S p vs)
    (hp : ¬ (slotEntry sb d S p).Live) : Marked sb d S (p + 1) vs := by
  unfold Marked at *
  rw [liveBefore_succ, if_neg hp, List.append_nil]
  exact h

theorem Marked.skips {p : Nat} {vs : List Visit} (h : Marked sb d S p vs) (k : Nat) :
    (∀ i < k, ¬ (slotEntry sb d S (p + i)).Live) → Marked sb d S (p + k) vs := by
  induction k with
  | zero => exact fun _ => h
  | succ k ih =>
    intro hk
    exact (ih fun i hi => hk i (Nat.lt_succ_of_lt hi)).skip (hk k (Nat.lt_succ_self k))

theorem Marked.visit {p : Nat} {vs : List Visit} {v : Visit} (h : Marked sb d S p vs)
    (hp : (slotEntry sb d S p).Live) (hv : v.mark = slotMark sb d S p) :
    Marked sb d S (p + 1) (vs ++ [v]) := by
  unfold Marked at *
  rw [liveBefore_succ, if_pos hp, List.map_append, List.map_append, h, List.map_singleton,
    List.map_singleton, hv]

/-! ### The slots of one sector -/

variable {j sec : Nat}

theorem slotSector_of (hj : S[j]? = some sec) {i : Nat} (hi : i < fcbPerBlock sb) :
    slotSector sb S (fcbPerBlock sb * j + i) = sec := by
  unfold slotSector
  rw [Nat.mul_add_div (Nat.zero_lt_of_lt hi), Nat.div_eq_of_lt hi, Nat.add_zero,
    List.getD_eq_getElem?_getD, hj, Option.getD_some]

theorem slotEntry_of (hj : S[j]? = some sec) {i : Nat} (hi : i < fcbPerBlock sb) :
    slotEntry sb d S (fcbPerBlock sb * j + i) = direntAt (d sec) i := by
  unfold slotEntry
  rw [slotSector_of hj hi, Nat.mul_add_mod, Nat.mod_eq_of_lt hi]

theorem slotInum_of (hj : S[j]? = some sec) {i : Nat} (hi : i < fcbPerBlock sb) :
    slotInum sb S (fcbPerBlock sb * j + i) = sectorToFatinum sb sec i := by
  unfold slotInum
  rw [slotSector_of hj hi, Nat.mul_add_mod, Nat.mod_eq_of_lt hi]

theorem drift_of {i : Nat} (hi : i < fcbPerBlock sb) :
    drift sb d S (fcbPerBlock sb * j + i) = drift sb d S (fcbPerBlock sb * j) := by
  unfold drift
  rw [Nat.mul_add_div (Nat.zero_lt_of_lt hi), Nat.div_eq_of_lt hi, Nat.add_zero,
    Nat.mul_div_cancel_left _ (Nat.zero_lt_of_lt hi)]

theorem drift_succ (hn : 0 < fcbPerBlock sb) (hj : S[j]? = some sec) :
    drift sb d S (fcbPerBlock sb * (j + 1)) =
      drift sb d S (fcbPerBlock sb * j) + if EndsLong sb (d sec) then 1 else 0 := by
  unfold drift
  rw [Nat.mul_div_cancel_left _ hn, Nat.mul_div_cancel_left _ hn, List.take_add_one, hj,
    Option.toList_some, List.countP_append, List.countP_singleton]
  simp

theorem drift_le (e : Nat) : drift sb d S e ≤ e := by
  unfold drift
  calc _ ≤ (S.take (e / fcbPerBlock sb)).length := List.countP_le_length
    _ ≤ e / fcbPerBlock sb := List.length_take_le ..
    _ ≤ e := Nat.div_le_self ..

theorem sectorEntries_drop {b : Sector} {i : Nat} (hi : i < fcbPerBlock sb) :
    (sectorEntries sb b).drop i = direntAt b i :: (sectorEntries sb b).drop (i + 1) := by
  unfold sectorEntries
  rw [List.drop_eq_getElem_cons (by rw [List.length_map, List.length_range]; exact hi),
    List.getElem_map, List.getElem_range]

theorem sectorEntries_drop_length (b : Sector) (i : Nat) :
    ((sectorEntries sb b).drop i).length = fcbPerBlock sb - i := by
  unfold sectorEntries
  rw [List.length_drop, List.length_map, List.length_range]

/-! ## The loops -/

theorem u32_add_u32 (x y : Nat) : u32 (u32 x + y) = u32 (x + y) := by
  unfold u32
  omega

/-- The loop that pushes long entries goes from slot `i` to slot `k`. -/
theorem pushLong_reaches {b : Sector} : ∀ (m i : Nat) {s s' : Scan} {rest : List Dirent} {o : Nat},
    i + m = fcbPerBlock sb → s.off = u32 o →
    pushLong ((sectorEntries sb b).drop i) s = .ok (rest, s') →
    ∃ k, rest = (sectorEntries sb b).drop (i + k) ∧ k ≤ m ∧ s'.visits = s.visits ∧
      s'.off = u32 (o + k) ∧ (∀ j < k, (direntAt b (i + j)).LongNameBool) ∧
      (k < m → ¬ (direntAt b (i + k)).LongNameBool) := by
  intro m
  induction m with
  | zero =>
    intro i s s' rest o hi ho hrun
    have hnil : (sectorEntries sb b).drop i = [] :=
      List.eq_nil_of_length_eq_zero (by rw [sectorEntries_drop_length]; omega)
    rw [hnil, pushLong] at hrun
    cases hrun
    exact ⟨0, hnil.symm, Nat.le_refl _, rfl, ho, fun j hj => absurd hj (Nat.not_lt_zero j),
      fun h => absurd h (Nat.lt_irrefl 0)⟩
  | succ m ih =>
    intro i s s' rest o hi ho hrun
    rw [sectorEntries_drop (by omega), pushLong] at hrun
    split at hrun
    · rename_i hlong
      rw [Res.bind_eq_ok] at hrun
      obtain ⟨stack, -, hrun⟩ := hrun
      have ho' : u32 (s.off + 1) = u32 (o + 1) := by rw [ho, u32_add_u32]
      obtain ⟨k, hrest, hk, hvis, hoff, hall, hstop⟩ := ih (i + 1) (by omega) ho' hrun
      refine ⟨k + 1, ?_, by omega, hvis, ?_, ?_, ?_⟩
      · rw [hrest, Nat.add_assoc, Nat.add_comm 1]
      · rw [hoff, Nat.add_assoc, Nat.add_comm 1]
      · intro j hj
        cases j with
        | zero => exact hlong
        | succ j =>
          have := hall j (by omega)
          rwa [Nat.add_assoc, Nat.add_comm 1] at this
      · intro hk'
        have := hstop (by omega)
        rwa [Nat.add_assoc, Nat.add_comm 1] at this
    · rename_i hlong
      cases hrun
      exact ⟨0, (sectorEntries_drop (by omega)).symm, Nat.zero_le _, rfl, ho,
        fun j hj => absurd hj (Nat.not_lt_zero j), fun _ => hlong⟩

theorem shortVisit_ok {e : Dirent} {idx : Nat} {s s' : Scan} {nameBuf : List (BitVec 8)}
    (h : shortVisit sb sec e idx s = .ok (nameBuf, s')) :
    s'.off = s.off ∧ ∃ v, s'.visits = s.visits ++ [v] ∧
      v.mark = (sectorToFatinum sb sec idx, s.off) ∧ v.nameBuf = nameBuf := by
  unfold shortVisit at h
  rw [Res.bind_eq_ok] at h
  obtain ⟨⟨valid, stack, buf⟩, -, h⟩ := h
  dsimp only at h
  rw [Res.bind_eq_ok] at h
  obtain ⟨buf', -, h⟩ := h
  cases h
  exact ⟨rfl, _, rfl, rfl, rfl⟩

/-- The comparison failed at every visit. -/
def Passed (stop : List (BitVec 8) → Res Bool) (vs : List Visit) : Prop :=
  ∀ v ∈ vs, stop v.nameBuf = .ok false

/-- How far a loop came that ends before slot `q`, or at `q` without an end mark or a match. -/
def Reaches (sb : Superblock) (d : Nat → Sector) (S : List Nat) (stop : List (BitVec 8) → Res Bool)
    (q : Nat) : Scanned → Prop
  | .more s =>
    s.off = u32 (q + drift sb d S q) ∧ Marked sb d S q s.visits ∧ Passed stop s.visits
  | .free s =>
    ∃ p < q, (slotEntry sb d S p).name0 = 0 ∧ Marked sb d S p s.visits ∧ Passed stop s.visits
  | .found s =>
    ∃ p < q, (slotEntry sb d S p).Live ∧ Marked sb d S (p + 1) s.visits ∧
      ∃ vs v, s.visits = vs ++ [v] ∧ stop v.nameBuf = .ok true ∧ Passed stop vs

/-- The loop over the entries of sector number `j`, from slot `i` of it on. -/
theorem lookupEntries_reaches {stop : List (BitVec 8) → Res Bool} (hn : 0 < fcbPerBlock sb)
    (hj : S[j]? = some sec) : ∀ (fuel i : Nat) {s : Scan} {r : Scanned}, i ≤ fcbPerBlock sb →
    (i = fcbPerBlock sb → ¬ EndsLong sb (d sec)) →
    s.off = u32 (fcbPerBlock sb * j + i + drift sb d S (fcbPerBlock sb * j)) →
    Marked sb d S (fcbPerBlock sb * j + i) s.visits → Passed stop s.visits →
    lookupEntries sb sec stop fuel ((sectorEntries sb (d sec)).drop i) s = .ok r →
    Reaches sb d S stop (fcbPerBlock sb * (j + 1)) r := by
  intro fuel
  induction fuel with
  | zero => exact fun _ _ _ _ _ _ _ _ h => nomatch h
  | succ fuel ih =>
    intro i s r hi hend hoff hmark hpass hrun
    obtain rfl | hi := Nat.eq_or_lt_of_le hi
    · -- the last entry was a short one
      rw [List.drop_eq_nil_of_le (by rw [sectorEntries, List.length_map, List.length_range]),
        lookupEntries] at hrun
      cases hrun
      unfold Reaches
      rw [drift_succ hn hj, if_neg (hend rfl), Nat.mul_succ]
      exact ⟨hoff, hmark, hpass⟩
    · rw [sectorEntries_drop hi, lookupEntries] at hrun
      split at hrun
      · rename_i hfree
        cases hrun
        refine ⟨fcbPerBlock sb * j + i, ?_, ?_, hmark, hpass⟩
        · rw [Nat.mul_succ]
          omega
        · rw [slotEntry_of hj hi]
          exact hfree
      · rw [Res.bind_eq_ok] at hrun
        obtain ⟨⟨rest, s₁⟩, hpush, hrun⟩ := hrun
        rw [← sectorEntries_drop hi] at hpush
        obtain ⟨k, rfl, hk, hvis, hoff₁, hall, hstop⟩ :=
          pushLong_reaches (fcbPerBlock sb - i) i (by omega) hoff hpush
        have hmark₁ : Marked sb d S (fcbPerBlock sb * j + (i + k)) s₁.visits := by
          rw [hvis, ← Nat.add_assoc]
          apply hmark.skips k
          intro m hm hlive
          rw [Nat.add_assoc, slotEntry_of hj (by omega)] at hlive
          exact hlive.1 (hall m hm)
        have hpass₁ : Passed stop s₁.visits := by
          rw [hvis]
          exact hpass
        obtain hlast | hk := Nat.eq_or_lt_of_le hk
        · -- the sector ends in the long entries: one increment too many
          have hlong : EndsLong sb (d sec) := by
            cases k with
            | zero => omega
            | succ k =>
              have := hall k (Nat.lt_succ_self k)
              unfold EndsLong
              rwa [show fcbPerBlock sb - 1 = i + k by omega]
          have hq : i + k = fcbPerBlock sb := by omega
          rw [List.drop_eq_nil_of_le
            (by rw [sectorEntries, List.length_map, List.length_range, hq])] at hrun
          cases hrun
          unfold Reaches
          rw [drift_succ hn hj, if_pos hlong, Nat.mul_succ]
          rw [hq] at hmark₁
          refine ⟨?_, hmark₁, hpass₁⟩
          dsimp only
          rw [hoff₁, u32_add_u32]
          congr 1
          omega
        · have hik : i + k < fcbPerBlock sb := by omega
          have hnext : ∀ s₂ : Scan, s₂.off = s₁.off →
              u32 (s₂.off + 1) =
                u32 (fcbPerBlock sb * j + (i + k + 1) + drift sb d S (fcbPerBlock sb * j)) := by
            intro s₂ h
            rw [h, hoff₁, u32_add_u32]
            congr 1
            omega
          have hend' : i + k + 1 = fcbPerBlock sb → ¬ EndsLong sb (d sec) := by
            intro h
            unfold EndsLong
            rw [← h, Nat.add_sub_cancel]
            exact hstop hk
          rw [sectorEntries_drop hik] at hrun
          dsimp only at hrun
          split at hrun
          · rename_i hlive
            have hlive' : (slotEntry sb d S (fcbPerBlock sb * j + (i + k))).Live := by
              rw [slotEntry_of hj hik]
              exact ⟨hstop hk, hlive⟩
            rw [Res.bind_eq_ok] at hrun
            obtain ⟨⟨nameBuf, s₂⟩, hvisit, hrun⟩ := hrun
            dsimp only at hrun
            rw [Res.bind_eq_ok] at hrun
            obtain ⟨hit, hstop₂, hrun⟩ := hrun
            obtain ⟨hoff₂, v, hvis₂, hv, hbuf⟩ := shortVisit_ok hvisit
            rw [← hbuf] at hstop₂
            have hmark₂ : Marked sb d S (fcbPerBlock sb * j + (i + k) + 1) s₂.visits := by
              rw [hvis₂]
              apply hmark₁.visit hlive'
              unfold slotMark
              rw [hv, slotInum_of hj hik, drift_of hik, sectorEntries_drop_length, hoff₁]
              congr 2
              · omega
              · omega
            split at hrun
            next hhit =>
              cases hrun
              refine ⟨_, by rw [Nat.mul_succ]; omega, hlive', hmark₂, s₁.visits, v, hvis₂, ?_, hpass₁⟩
              rw [hstop₂, hhit]
            next hhit =>
              have hpass₂ : Passed stop s₂.visits := by
                intro w hw
                rw [hvis₂, List.mem_append, List.mem_singleton] at hw
                obtain hw | rfl := hw
                · exact hpass₁ w hw
                · rw [hstop₂, Bool.eq_false_iff.2 hhit]
              exact ih (i + k + 1) (s := { s₂ with off := u32 (s₂.off + 1) }) hik hend' (hnext s₂ hoff₂)
                hmark₂ hpass₂ hrun
          · rename_i hdead
            apply ih (i + k + 1) (s := { s₁ with off := u32 (s₁.off + 1) }) hik hend' (hnext s₁ rfl) _
              hpass₁ hrun
            apply hmark₁.skip
            rw [slotEntry_of hj hik]
            exact fun hlive => hdead hlive.2

variable {stop : List (BitVec 8) → Res Bool}

/-- A loop that ended at an end mark or a match also ended before every later slot. -/
theorem Reaches.mono {q q' : Nat} (hq : q ≤ q') {r : Scanned} (hr : ∀ s, r ≠ .more s)
    (h : Reaches sb d S stop q r) : Reaches sb d S stop q' r := by
  cases r with
  | more s => exact absurd rfl (hr s)
  | free s =>
    obtain ⟨p, hp, h⟩ := h
    exact ⟨p, by omega, h⟩
  | found s =>
    obtain ⟨p, hp, h⟩ := h
    exact ⟨p, by omega, h⟩

/-- The visits of a scan that ended by slot `q` are those of the first live short entries. -/
theorem Reaches.marked {q : Nat} {r : Scanned} (h : Reaches sb d S stop q r) :
    ∃ p ≤ q, Marked sb d S p r.scan.visits := by
  cases r with
  | more s => exact ⟨q, Nat.le_refl q, h.2.1⟩
  | free s =>
    obtain ⟨p, hp, -, h, -⟩ := h
    exact ⟨p, by omega, h⟩
  | found s =>
    obtain ⟨p, hp, -, h, -⟩ := h
    exact ⟨p + 1, hp, h⟩

/-- The loop over the entries of a sector goes from its first slot to the first of the next. -/
def ReachesAll (sb : Superblock) (d : Nat → Sector) (S : List Nat) (stop : List (BitVec 8) → Res Bool)
    (entries : Nat → List Dirent → Scan → Res Scanned) : Prop :=
  ∀ {j sec : Nat} {s : Scan} {r : Scanned}, S[j]? = some sec →
    Reaches sb d S stop (fcbPerBlock sb * j) (.more s) →
    entries sec (sectorEntries sb (d sec)) s = .ok r →
    Reaches sb d S stop (fcbPerBlock sb * (j + 1)) r

theorem lookupEntries_reachesAll (hn : 0 < fcbPerBlock sb) (stop : List (BitVec 8) → Res Bool) :
    ReachesAll sb d S stop fun sec => lookupEntries sb sec stop (fcbPerBlock sb + 1) := by
  intro j sec s r hj hs hrun
  apply lookupEntries_reaches hn hj (fcbPerBlock sb + 1) 0 (Nat.zero_le _) _ hs.1 hs.2.1 hs.2.2 hrun
  intro h
  omega

variable {entries : Nat → List Dirent → Scan → Res Scanned} {dev : Dev} {d' : Nat → Sector}

/-- The loop over the sectors of a cluster, of which those in `pre` are done. -/
theorem scanSectors_reaches (he : ReachesAll sb d S stop entries) {first : Nat} {post : List Nat}
    (n : Nat) : ∀ {k : Nat} {pre : List Nat} {s : Scan} {r : Scanned},
    S = pre ++ ((List.range' k n).map fun k => u32 (first + k)) ++ post →
    Reaches sb d S stop (fcbPerBlock sb * pre.length) (.more s) →
    (scanSectors sb dev entries first n k s).run d = .ok (r, d') →
    d' = d ∧ Reaches sb d S stop (fcbPerBlock sb * (pre.length + n)) r := by
  induction n with
  | zero =>
    intro k pre s r _ hs hrun
    cases hrun
    exact ⟨rfl, hs⟩
  | succ n ih =>
    intro k pre s r hS hs hrun
    rw [scanSectors] at hrun
    obtain ⟨b, d₁, hread, hrun⟩ := Prog.run_bind_eq_ok.1 hrun
    cases hread
    obtain ⟨r₁, d₂, hlift, hrun⟩ := Prog.run_bind_eq_ok.1 hrun
    obtain ⟨hentries, rfl⟩ := Prog.run_lift_eq_ok.1 hlift
    have hj : S[pre.length]? = some (u32 (first + k)) := by
      rw [hS, List.range'_succ]
      simp
    have hr₁ := he hj hs hentries
    cases r₁ with
    | more s₁ =>
      have hS' : S = (pre ++ [u32 (first + k)]) ++
          ((List.range' (k + 1) n).map fun k => u32 (first + k)) ++ post := by
        rw [hS, List.range'_succ]
        simp
      have hlen : (pre ++ [u32 (first + k)]).length = pre.length + 1 := by simp
      have := ih hS' (hlen ▸ hr₁) hrun
      rwa [hlen, Nat.add_assoc, Nat.add_comm 1] at this
    | free s₁ =>
      cases hrun
      exact ⟨rfl, hr₁.mono (Nat.mul_le_mul_left _ (by omega)) nofun⟩
    | found s₁ =>
      cases hrun
      exact ⟨rfl, hr₁.mono (Nat.mul_le_mul_left _ (by omega)) nofun⟩

theorem dirSectors_cons (c : Nat) (L : List Nat) :
    dirSectors sb (c :: L) =
      ((List.range' 0 sb.sectorsPerBlock).map fun k => u32 (firstSectorofCluster sb c + k)) ++
        dirSectors sb L := by
  rw [← List.range_eq_range']
  rfl

/-- The loop over the clusters, of which those with the sectors `pre` are done. -/
theorem scanClusters_reaches (he : ReachesAll sb d S stop entries) :
    ∀ {L : List Nat} {fuel iter : Nat} {pre : List Nat} {s : Scan} {r : Scanned},
    Linked Iseof (fatNext sb d) iter L → S = pre ++ dirSectors sb L →
    Reaches sb d S stop (fcbPerBlock sb * pre.length) (.more s) →
    (scanClusters sb dev entries fuel iter s).run d = .ok (r, d') →
    d' = d ∧ Reaches sb d S stop (fcbPerBlock sb * S.length) r := by
  intro L
  induction L with
  | nil =>
    intro fuel iter pre s r hch hS hs hrun
    cases fuel with
    | zero => cases hrun
    | succ fuel =>
      rw [scanClusters, if_pos (show Iseof iter from hch)] at hrun
      cases hrun
      rw [show S.length = pre.length by rw [hS]; simp [dirSectors]]
      exact ⟨rfl, hs⟩
  | cons c L ih =>
    intro fuel iter pre s r hch hS hs hrun
    cases fuel with
    | zero => cases hrun
    | succ fuel =>
      obtain ⟨rfl, hstop, hlink⟩ := hch
      rw [scanClusters, if_neg hstop] at hrun
      obtain ⟨r₁, d₁, hsec, hrun⟩ := Prog.run_bind_eq_ok.1 hrun
      rw [dirSectors_cons, ← List.append_assoc] at hS
      obtain ⟨rfl, hr₁⟩ := scanSectors_reaches he _ hS hs hsec
      have hle : pre.length + sb.sectorsPerBlock ≤ S.length := by
        rw [hS]
        simp
      cases r₁ with
      | more s₁ =>
        obtain ⟨next, d₂, hnext, hrun⟩ := Prog.run_bind_eq_ok.1 hrun
        obtain ⟨-, rfl, rfl⟩ := nextCluster_eq_ok.1 hnext
        apply ih hlink hS _ hrun
        simpa using hr₁
      | free s₁ =>
        cases hrun
        exact ⟨rfl, hr₁.mono (Nat.mul_le_mul_left _ hle) fun _ h => by cases h⟩
      | found s₁ =>
        cases hrun
        exact ⟨rfl, hr₁.mono (Nat.mul_le_mul_left _ hle) fun _ h => by cases h⟩

/-! ## The two functions -/

theorem start_reaches : Reaches sb d S stop 0 (.more .start) := by
  unfold Reaches drift
  rw [Nat.zero_div, List.take_zero]
  exact ⟨rfl, rfl, nofun⟩

section
variable {ip : Inode} {L : List Nat} {fuel : Nat} {r : Scanned}

theorem dirlookupScan_reaches (hn : 0 < fcbPerBlock sb) {name : CStr}
    (hch : Linked Iseof (fatNext sb d) ip.clusterStart L)
    (hrun : (dirlookupScan sb fuel ip name).run d = .ok (r, d')) :
    d' = d ∧
      Reaches sb d (dirSectors sb L) (nameStop name) (fcbPerBlock sb * (dirSectors sb L).length) r := by
  unfold dirlookupScan at hrun
  split at hrun
  · exact scanClusters_reaches (lookupEntries_reachesAll hn (nameStop name)) hch
      (List.nil_append _).symm start_reaches hrun
  · cases hrun

theorem getdentsScan_reaches (hn : 0 < fcbPerBlock sb)
    (hch : Linked Iseof (fatNext sb d) ip.clusterStart L)
    (hrun : (getdentsScan sb fuel ip).run d = .ok (r, d')) :
    d' = d ∧ Reaches sb d (dirSectors sb L) (fun _ => .ok false)
      (fcbPerBlock sb * (dirSectors sb L).length) r := by
  unfold getdentsScan at hrun
  split at hrun
  · have heq : (fun sec => getdentsEntries sb sec (fcbPerBlock sb + 1)) =
        fun sec => lookupEntries sb sec (fun _ => .ok false) (fcbPerBlock sb + 1) := by
      funext sec xs s
      exact getdentsEntries_eq sb sec _ xs s
    rw [heq] at hrun
    exact scanClusters_reaches (lookupEntries_reachesAll hn _) hch (List.nil_append _).symm
      start_reaches hrun
  · cases hrun

end

theorem Marked.mem {p : Nat} {vs : List Visit} (h : Marked sb d S p vs) {v : Visit} (hv : v ∈ vs) :
    ∃ e < p, (slotEntry sb d S e).Live ∧ v.inum = slotInum sb S e ∧
      v.off = u32 (e + drift sb d S e) := by
  have hmem : v.mark ∈ vs.map Visit.mark := List.mem_map_of_mem hv
  rw [h] at hmem
  obtain ⟨e, he, heq⟩ := List.mem_map.1 hmem
  obtain ⟨hp, hlive⟩ := mem_liveBefore.1 he
  obtain ⟨hinum, hoff⟩ := Prod.mk.inj heq
  exact ⟨e, hp, hlive, hinum.symm, hoff.symm⟩

/-- The number that a scan has for slot `e` is right when no sector before ends in a long entry. -/
theorem drifted_eq_iff (e : Nat) :
    u32 (e + drift sb d S e) = e ↔
      e < 2 ^ 32 ∧ ∀ s ∈ S.take (e / fcbPerBlock sb), ¬ EndsLong sb (d s) := by
  have hzero : drift sb d S e = 0 ↔ ∀ s ∈ S.take (e / fcbPerBlock sb), ¬ EndsLong sb (d s) := by
    unfold drift
    simp only [List.countP_eq_zero, decide_eq_true_eq]
  have hle := @drift_le sb d S e
  rw [← hzero]
  unfold u32
  constructor
  · intro h
    have := Nat.mod_lt (e + drift sb d S e) (by decide : 0 < 2 ^ 32)
    omega
  · rintro ⟨hlt, h0⟩
    omega

/-- The inode that a scan gets for an entry has its number, and when the table did not have it, the
slot that the scan takes it to be in. -/
theorem getChild_records {t t' : Inodes} {p : Ptr} {v : Visit} {name : List (BitVec 8)}
    {i : Fin nentry} (h : getChild t p v name = .ok (i, t')) :
    (t'.entry i).iIno = v.inum ∧
      ((∀ j, ¬ (t.entry j).Matches (t.deref p).dev.toNat v.inum) → (t'.entry i).parentOff = v.off) := by
  obtain ⟨⟨j, t₁⟩, hget, hlast⟩ := Res.bind_eq_ok.1 h
  cases hlast
  obtain ⟨hm, rfl⟩ | ⟨-, -, e, hr, rfl⟩ := fat32InodeGet_cases hget
  · refine ⟨?_, fun hno => absurd hm (hno i)⟩
    simp [hm.2.2]
  · refine ⟨?_, fun _ => ?_⟩
    · simp [hr.iIno]
    · simp [hr.parentOff]

/-- For every live short entry that `fat32_inode_dirlookup` finds or `fat32_getdents` lists, in a
directory with any content, the number that it stores is that of the entry's slot if and only if no
sector of the directory before the entry's own ends in a long entry. -/
theorem scan_offsets {L : List Nat} {t : Inodes} {p : Ptr} (hn : 0 < fcbPerBlock sb)
    (hch : Linked Iseof (fatNext sb d) (t.deref p).clusterStart L) :
    (∀ {fuel : Nat} {name : CStr} {i : Fin nentry} {off : Nat} {t' : Inodes},
      (fat32InodeDirlookup sb fuel t p name).run d = .ok ((some (i, off), t'), d') →
      ∃ e < fcbPerBlock sb * (dirSectors sb L).length, (slotEntry sb d (dirSectors sb L) e).Live ∧
        (t'.entry i).iIno = slotInum sb (dirSectors sb L) e ∧
        ((∀ j, ¬ (t.entry j).Matches (t.deref p).dev.toNat (t'.entry i).iIno) →
          (t'.entry i).parentOff = off) ∧
        (off = e ↔ e < 2 ^ 32 ∧
          ∀ s ∈ (dirSectors sb L).take (e / fcbPerBlock sb), ¬ EndsLong sb (d s))) ∧
    (∀ {fuel : Nat} {r : Scanned},
      (getdentsScan sb fuel (t.deref p).toInode).run d = .ok (r, d') → ∀ v ∈ r.scan.visits,
      ∃ e < fcbPerBlock sb * (dirSectors sb L).length, (slotEntry sb d (dirSectors sb L) e).Live ∧
        v.inum = slotInum sb (dirSectors sb L) e ∧
        (∀ {t₁ t' : Inodes} {i : Fin nentry}, getChild t₁ p v v.nameBuf = .ok (i, t') →
          (∀ j, ¬ (t₁.entry j).Matches (t₁.deref p).dev.toNat v.inum) →
          (t'.entry i).parentOff = v.off) ∧
        (v.off = e ↔ e < 2 ^ 32 ∧
          ∀ s ∈ (dirSectors sb L).take (e / fcbPerBlock sb), ¬ EndsLong sb (d s))) := by
  constructor
  · intro fuel name i off t' hrun
    obtain ⟨z, hscan, ⟨-, hnone, -⟩ | ⟨v, k, hhit, heq, hget⟩⟩ := dirlookup_cases hrun
    · cases hnone
    · cases heq
      obtain ⟨-, hr⟩ := dirlookupScan_reaches hn hch hscan
      obtain ⟨q, hq, hmark⟩ := hr.marked
      have hv : v ∈ z.scan.visits := by
        cases z with
        | found s => exact List.mem_of_getLast? hhit
        | free s => cases hhit
        | more s => cases hhit
      obtain ⟨e, he, hlive, hinum, hoff⟩ := hmark.mem hv
      obtain ⟨hino, hpar⟩ := getChild_records hget
      refine ⟨e, by omega, hlive, hino.trans hinum, ?_, ?_⟩
      · rw [hino]
        exact hpar
      · rw [hoff]
        exact drifted_eq_iff e
  · intro fuel r hrun v hv
    obtain ⟨-, hr⟩ := getdentsScan_reaches hn hch hrun
    obtain ⟨q, hq, hmark⟩ := hr.marked
    obtain ⟨e, he, hlive, hinum, hoff⟩ := hmark.mem hv
    refine ⟨e, by omega, hlive, hinum, fun hget => (getChild_records hget).2, ?_⟩
    rw [hoff]
    exact drifted_eq_iff e

end

/-! ## A name over a sector boundary -/

/-- A lookup that finds the inode with number `inum` and takes its entry to be in slot `off`. -/
def FindsAt (prog : FsProg (Option (Fin nentry × Nat) × Inodes)) (d : Nat → Sector) (inum off : Nat) :
    Prop :=
  ∃ i t' d', prog.run d = .ok ((some (i, off), t'), d') ∧ (t'.entry i).iIno = inum ∧
    (t'.entry i).parentOff = off

theorem FindsAt.of_toOption {prog : FsProg (Option (Fin nentry × Nat) × Inodes)} {d : Nat → Sector}
    {inum off : Nat}
    (h : ((prog.run d).toOption.any fun r => match r.1.1 with
      | some (i, o) => decide (o = off ∧ (r.1.2.entry i).iIno = inum ∧ (r.1.2.entry i).parentOff = off)
      | none => false) = true) : FindsAt prog d inum off := by
  obtain ⟨⟨⟨r, t'⟩, d'⟩, hrun, hr⟩ := Res.exists_ok_of_any h
  cases r with
  | none => cases hr
  | some r =>
    obtain ⟨i, o⟩ := r
    obtain ⟨rfl, hino, hpar⟩ := of_decide_eq_true hr
    exact ⟨i, t', d', hrun, hino, hpar⟩

/-- A deleted short entry. -/
def deadShort : List (BitVec 8) := 0xE5 :: shortA.drop 1

/-- A directory of one cluster with two sectors: the long entry of `a.txt` is in slot 15, the last of
the first sector, and the short one in slot 16. -/
def crossDisk (sec : Nat) : Sector :=
  if sec = 10 then sectorOf shortA
  else diskWith (sectorOf ((List.replicate 15 deadShort).flatten ++ longA)) sec

/-- The inodes after the mount. -/
def rootOnly : Inodes := inodeTableInit blankRoot

theorem crossDisk_linked : Linked Iseof (fatNext wideSb crossDisk) rootOnly.root.clusterStart [2] := by
  refine ⟨rfl, by decide, ?_⟩
  show Iseof (fatNext wideSb crossDisk 2)
  decide +kernel

/-- One sector with `a.txt`, the long entry in slot 0 and the short one in slot 1. -/
def singleDisk : Nat → Sector := diskWith (sectorOf (longA ++ shortA))

theorem scan_offsets_single :
    FindsAt (fat32InodeDirlookup blankSb 2 rootOnly .root nameA) singleDisk 2 1 ∧
    ∃ e < 16, (slotEntry blankSb singleDisk [9] e).Live ∧
      (1 = e ↔ e < 2 ^ 32 ∧ ∀ s ∈ ([9] : List Nat).take (e / 16), ¬ EndsLong blankSb (singleDisk s)) := by
  have hfinds : FindsAt (fat32InodeDirlookup blankSb 2 rootOnly .root nameA) singleDisk 2 1 := by
    apply FindsAt.of_toOption
    decide +kernel
  refine ⟨hfinds, ?_⟩
  obtain ⟨i, t', d', hrun, -, -⟩ := hfinds
  obtain ⟨e, he, hlive, -, -, hiff⟩ :=
    (scan_offsets (t := rootOnly) (p := .root) (by decide) (diskWith_linked _)).1 hrun
  exact ⟨e, he, hlive, hiff⟩

/-- The short entry of `a.txt` is in slot 16, but both functions take it to be in slot 17. -/
theorem scan_offset_drifts :
    Linked Iseof (fatNext wideSb crossDisk) rootOnly.root.clusterStart [2] ∧
    (slotEntry wideSb crossDisk (dirSectors wideSb [2]) 16).Live ∧
    slotInum wideSb (dirSectors wideSb [2]) 16 = 17 ∧
    FindsAt (fat32InodeDirlookup wideSb 2 rootOnly .root nameA) crossDisk 17 17 ∧
    ∃ r d', (getdentsScan wideSb 2 blankRoot).run crossDisk = .ok (r, d') ∧
      r.scan.visits.map Visit.mark = [(17, 17)] := by
  refine ⟨crossDisk_linked, by decide +kernel, by decide +kernel, ?_, ?_⟩
  · apply FindsAt.of_toOption
    decide +kernel
  · have h : (((getdentsScan wideSb 2 blankRoot).run crossDisk).toOption.any fun r =>
        decide (r.1.scan.visits.map Visit.mark = [(17, 17)])) = true := by
      decide +kernel
    obtain ⟨⟨r, d'⟩, hrun, hr⟩ := Res.exists_ok_of_any h
    exact ⟨r, d', hrun, of_decide_eq_true hr⟩

end Fs
