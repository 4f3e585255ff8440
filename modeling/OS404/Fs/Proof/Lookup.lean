import OS404.Fs.Proof.Delete
import OS404.Fs.Proof.Slots
import Mathlib.Data.List.Find

/-!
# Looking up a name

`dirFiles` are the files of a directory, each with the slot of its short entry and its name.
`fat32_inode_dirlookup` stops at the first one whose name `fat32_namecmp` takes for the name that it
looks for, and that is the first one with the same first character (`dirlookupScan_find`).

* `dirlookup_named`: when that is the file with the name.
* `dirlookup_other_file`: the file before it with the same first character is found instead.
-/

namespace Fs

open Lib (Prog Linked)
open Driver (Sector)
open Str

/-! ## The files of a directory -/

/-- The files in the entries from slot `k` on, where `run` are the live long entries right before:
the slot and the name of each live short entry before the first free one. -/
def filesFrom : Nat → List DirentL → List Dirent → List (Nat × List (BitVec 8))
  | _, _, [] => []
  | k, run, e :: es =>
    if e.name0 = 0 then []
    else if e.name0 = 0xE5 then filesFrom (k + 1) [] es
    else if e.LongNameBool then filesFrom (k + 1) (e.toLong :: run) es
    else (k, entryName run e) :: filesFrom (k + 1) [] es

/-- The files of the directory with chain `L`. -/
def dirFiles (sb : Superblock) (d : Nat → Sector) (L : List Nat) : List (Nat × List (BitVec 8)) :=
  filesFrom 0 [] (dirEntries sb d L)

theorem filesFrom_names (k : Nat) (run : List DirentL) (es : List Dirent) :
    (filesFrom k run es).map Prod.snd = entryNames run es := by
  induction es generalizing k run with
  | nil => rfl
  | cons e es ih =>
    rw [filesFrom, entryNames]
    split
    · rfl
    · split
      · exact ih _ _
      · split
        · exact ih _ _
        · rw [List.map_cons, ih]

/-- The slots of the files are those of the live short entries before the first free one. -/
theorem filesFrom_slots (g : Nat → Dirent) (n : Nat) : ∀ (k : Nat) (run : List DirentL),
    ∃ m ≤ n, (filesFrom k run ((List.range' k n).map g)).map Prod.fst =
        (List.range' k m).filter (fun e => (g e).Live) ∧
      ∀ i < m, (g (k + i)).name0 ≠ 0 := by
  induction n with
  | zero => exact fun k run => ⟨0, Nat.le_refl 0, rfl, nofun⟩
  | succ n ih =>
    intro k run
    rw [List.range'_succ, List.map_cons, filesFrom]
    by_cases h0 : (g k).name0 = 0
    · rw [if_pos h0]
      exact ⟨0, Nat.zero_le _, rfl, nofun⟩
    · rw [if_neg h0]
      have hnext : ∀ m, (∀ i < m, (g (k + 1 + i)).name0 ≠ 0) → ∀ i < m + 1, (g (k + i)).name0 ≠ 0 := by
        intro m hm i hi
        cases i with
        | zero => exact h0
        | succ i =>
          rw [Nat.add_comm i 1, ← Nat.add_assoc]
          exact hm i (by omega)
      have hdead : ∀ m, ¬ (g k).Live → (List.range' k (m + 1)).filter (fun e => (g e).Live) =
          (List.range' (k + 1) m).filter (fun e => (g e).Live) := by
        intro m hd
        rw [List.range'_succ, List.filter_cons_of_neg (by simpa using hd)]
      by_cases hdel : (g k).name0 = 0xE5
      · obtain ⟨m, hm, hslots, hne⟩ := ih (k + 1) []
        rw [if_pos hdel]
        exact ⟨m + 1, by omega, by rw [hslots, hdead m fun hl => hl.2 (.inl hdel)], hnext m hne⟩
      · rw [if_neg hdel]
        by_cases hlong : (g k).LongNameBool
        · obtain ⟨m, hm, hslots, hne⟩ := ih (k + 1) ((g k).toLong :: run)
          rw [if_pos hlong]
          exact ⟨m + 1, by omega, by rw [hslots, hdead m fun hl => hl.1 hlong], hnext m hne⟩
        · obtain ⟨m, hm, hslots, hne⟩ := ih (k + 1) []
          have hlive : (g k).Live := ⟨hlong, fun h => h.elim hdel h0⟩
          rw [if_neg hlong]
          refine ⟨m + 1, by omega, ?_, hnext m hne⟩
          rw [List.map_cons, hslots, List.range'_succ, List.filter_cons_of_pos (by simpa using hlive)]

section
variable {sb : Superblock} {d : Nat → Sector}

theorem slotEntry_cons {s : Nat} {S : List Nat} (hn : 0 < fcbPerBlock sb) (e : Nat) :
    slotEntry sb d (s :: S) (fcbPerBlock sb + e) = slotEntry sb d S e := by
  unfold slotEntry slotSector
  rw [Nat.add_div_left _ hn, Nat.add_mod_left, List.getD_cons_succ]

/-- The entries of a directory are those of its slots. -/
theorem dirEntries_eq (hn : 0 < fcbPerBlock sb) (L : List Nat) :
    dirEntries sb d L =
      (List.range (fcbPerBlock sb * (dirSectors sb L).length)).map
        (slotEntry sb d (dirSectors sb L)) := by
  have hflat : dirEntries sb d L = (dirSectors sb L).flatMap fun s => sectorEntries sb (d s) := by
    unfold dirEntries dirSectors
    rw [List.flatMap_assoc]
    congr 1
    funext c
    rw [clusterEntries, List.flatMap_map]
  have hsectors : ∀ S : List Nat, (S.flatMap fun s => sectorEntries sb (d s)) =
      (List.range (fcbPerBlock sb * S.length)).map (slotEntry sb d S) := by
    intro S
    induction S with
    | nil => rfl
    | cons s S ih =>
      rw [List.flatMap_cons, ih, List.length_cons, Nat.mul_succ, Nat.add_comm, List.range_add,
        List.map_append, List.map_map]
      congr 1
      · unfold sectorEntries
        refine List.map_congr_left fun i hi => ?_
        have := @slotEntry_of sb d (s :: S) 0 s rfl _ (List.mem_range.1 hi)
        rw [Nat.mul_zero, Nat.zero_add] at this
        exact this.symm
      · refine List.map_congr_left fun e _ => ?_
        exact (slotEntry_cons hn e).symm
  rw [hflat, hsectors]

theorem dirFiles_slots (hn : 0 < fcbPerBlock sb) (L : List Nat) :
    ∃ m, (dirFiles sb d L).map Prod.fst = liveBefore sb d (dirSectors sb L) m ∧
      ∀ i < m, (slotEntry sb d (dirSectors sb L) i).name0 ≠ 0 := by
  obtain ⟨m, -, hslots, hne⟩ := filesFrom_slots (slotEntry sb d (dirSectors sb L))
    (fcbPerBlock sb * (dirSectors sb L).length) 0 []
  refine ⟨m, ?_, fun i hi => ?_⟩
  · unfold dirFiles liveBefore
    rw [dirEntries_eq hn, List.range_eq_range', List.range_eq_range', hslots]
  · have := hne i hi
    rwa [Nat.zero_add] at this

theorem liveBefore_mono {S : List Nat} {p q : Nat} (h : p ≤ q) :
    liveBefore sb d S p <+: liveBefore sb d S q := by
  obtain ⟨k, rfl⟩ := Nat.exists_eq_add_of_le h
  unfold liveBefore
  rw [List.range_add, List.filter_append]
  exact List.prefix_append ..

end

/-! ## The first match -/

theorem upTo_last {α : Type} {f : α → Bool} {x : α} : ∀ {xs ys : List α}, upTo f xs = ys ++ [x] →
    f x = true → (∀ y ∈ ys, f y = false) → ∃ zs, xs = ys ++ x :: zs := by
  intro xs
  induction xs with
  | nil =>
    intro ys h _ _
    cases ys <;> cases h
  | cons a xs ih =>
    intro ys h hx hys
    rw [upTo] at h
    split at h
    next ha =>
      cases ys with
      | nil =>
        cases h
        exact ⟨xs, rfl⟩
      | cons y ys =>
        obtain ⟨rfl, -⟩ := List.cons.inj h
        rw [hys a List.mem_cons_self] at ha
        cases ha
    next ha =>
      cases ys with
      | nil =>
        obtain ⟨rfl, -⟩ := List.cons.inj h
        exact absurd hx ha
      | cons y ys =>
        obtain ⟨rfl, htail⟩ := List.cons.inj h
        obtain ⟨zs, rfl⟩ := ih htail hx fun z hz => hys z (List.mem_cons_of_mem _ hz)
        exact ⟨zs, rfl⟩

theorem upTo_none {α : Type} {f : α → Bool} : ∀ {xs : List α}, (∀ y ∈ upTo f xs, f y = false) →
    ∀ y ∈ xs, f y = false := by
  intro xs
  induction xs with
  | nil => exact fun _ => nofun
  | cons a xs ih =>
    intro h y hy
    rw [upTo] at h
    split at h
    next ha =>
      rw [h a List.mem_cons_self] at ha
      cases ha
    next ha =>
      obtain rfl | hy := List.mem_cons.1 hy
      · exact h y List.mem_cons_self
      · exact ih (fun z hz => h z (List.mem_cons_of_mem _ hz)) y hy

/-- What the comparison returned is decided by the string in the array. -/
theorem nameHit_of_stop {name : CStr} {buf : List (BitVec 8)} {b : Bool}
    (h : nameStop name buf = .ok b) : nameHit name (cString buf) = b := by
  have hne : buf ≠ [] := by
    rintro rfl
    obtain ⟨x, s, hs⟩ := List.exists_cons_of_ne_nil (by simp [CStr.chars] : name.chars ≠ [])
    unfold nameStop at h
    rw [hs] at h
    cases h
  rw [nameStop_eq name hne] at h
  exact Except.ok.inj h

section
variable {sb : Superblock} {d : Nat → Sector} {ip : Inode} {L : List Nat} {fuel : Nat} {name : CStr}

theorem Passed.names {vs : List Visit} (h : Passed (nameStop name) vs) :
    ∀ x ∈ vs.map fun v => cString v.nameBuf, nameHit name x = false := by
  intro x hx
  obtain ⟨v, hv, rfl⟩ := List.mem_map.1 hx
  exact nameHit_of_stop (h v hv)

/-- The scan stops at the file that is the first match. -/
theorem find_of_found {vs : List Visit} {v : Visit} {p : Nat} (hn : 0 < fcbPerBlock sb)
    (hmark : Marked sb d (dirSectors sb L) (p + 1) (vs ++ [v]))
    (hlive : (slotEntry sb d (dirSectors sb L) p).Live) (hpass : Passed (nameStop name) vs)
    (hhit : nameStop name v.nameBuf = .ok true)
    (hnames : (vs ++ [v]).map (fun v => cString v.nameBuf) =
      upTo (nameHit name) ((dirFiles sb d L).map Prod.snd)) :
    v.inum = slotInum sb (dirSectors sb L) p ∧
      (dirFiles sb d L).find? (fun f => nameHit name f.2) = some (p, cString v.nameBuf) := by
  obtain ⟨m, hslots, -⟩ := dirFiles_slots (d := d) hn L
  -- the files before the match and the match itself
  rw [List.map_append, List.map_singleton] at hnames
  obtain ⟨zs, hzs⟩ := upTo_last hnames.symm (nameHit_of_stop hhit) hpass.names
  obtain ⟨A, B, hfiles, hA, hB⟩ := List.map_eq_append_iff.1 hzs
  obtain ⟨⟨e, x⟩, B', rfl, hx, -⟩ := List.map_eq_cons_iff.1 hB
  dsimp only at hx
  subst hx
  -- the slots that were visited
  unfold Marked at hmark
  rw [liveBefore_succ, if_pos hlive, List.map_append, List.map_append, List.map_singleton,
    List.map_singleton] at hmark
  obtain ⟨hbefore, hlast⟩ := List.append_inj' hmark
    (by rw [List.length_singleton, List.length_singleton])
  have hlen : (liveBefore sb d (dirSectors sb L) p).length = A.length := by
    have h1 := congrArg List.length hbefore
    have h2 := congrArg List.length hA
    rw [List.length_map, List.length_map] at h1 h2
    omega
  rw [hfiles, List.map_append, List.map_cons] at hslots
  have hpm : p + 1 ≤ m := by
    by_contra hlt
    have hle := (@liveBefore_mono sb d (dirSectors sb L) m p (by omega)).length_le
    rw [← hslots, hlen, List.length_append, List.length_cons, List.length_map] at hle
    omega
  have hep : p = e := by
    obtain ⟨rest, hrest⟩ := @liveBefore_mono sb d (dirSectors sb L) _ _ hpm
    rw [← hslots, liveBefore_succ, if_pos hlive, List.append_assoc, List.singleton_append] at hrest
    exact (List.cons.inj (List.append_inj hrest (by rw [hlen, List.length_map])).2).1
  subst hep
  refine ⟨(Prod.mk.inj (List.cons.inj hlast).1).1, ?_⟩
  rw [hfiles, List.find?_append, List.find?_eq_none.2 ?_, Option.none_or, List.find?_cons_of_pos]
  · exact nameHit_of_stop hhit
  · intro f hf
    have := hpass.names f.2 (by rw [← hA]; exact List.mem_map_of_mem hf)
    rw [this]
    decide

/-- The inode number that the lookup of a name gets is that of the first match among the files. -/
theorem dirlookupScan_find (hn : 0 < fcbPerBlock sb) (hdir : DirBool ip.attr)
    (hch : Linked Iseof (fatNext sb d) ip.clusterStart L) (hacc : AllAccepted sb L)
    (hfuel : L.length < fuel) (hclean : Clean [] (dirEntries sb d L)) (name : CStr) :
    ∃ r, (dirlookupScan sb fuel ip name).run d = .ok (r, d) ∧
      r.hit.map Visit.inum = ((dirFiles sb d L).find? fun f => nameHit name f.2).map fun f =>
        slotInum sb (dirSectors sb L) f.1 := by
  obtain ⟨r, hrun, hnames⟩ := dirlookupScan_clean hdir hch hacc hfuel hclean name
  obtain ⟨-, hr⟩ := dirlookupScan_reaches hn hch hrun
  rw [← filesFrom_names 0, ← dirFiles] at hnames
  have hnone : Passed (nameStop name) r.scan.visits →
      (dirFiles sb d L).find? (fun f => nameHit name f.2) = none := by
    intro hpass
    refine List.find?_eq_none.2 fun f hf => ?_
    have hall := @upTo_none _ (nameHit name) ((dirFiles sb d L).map Prod.snd)
      (by rw [← hnames]; exact hpass.names)
    rw [hall f.2 (List.mem_map_of_mem hf)]
    decide
  refine ⟨r, hrun, ?_⟩
  cases r with
  | more s =>
    rw [hnone hr.2.2]
    rfl
  | free s =>
    obtain ⟨p, -, -, -, hpass⟩ := hr
    rw [hnone hpass]
    rfl
  | found s =>
    obtain ⟨p, -, hlive, hmark, vs, v, hvs, hhit, hpass⟩ := hr
    rw [hvs] at hmark
    have hnames' : (vs ++ [v]).map (fun v => cString v.nameBuf) =
        upTo (nameHit name) ((dirFiles sb d L).map Prod.snd) := by
      rw [← hvs]
      exact hnames
    obtain ⟨hinum, hfind⟩ := find_of_found hn hmark hlive hpass hhit hnames'
    rw [hfind, Scanned.hit, hvs, List.getLast?_concat, Option.map_some, Option.map_some, hinum]

end

/-! ## The first character -/

/-- The file's name has the first character of `name`, or both are empty. -/
def Alike (name : CStr) (f : Nat × List (BitVec 8)) : Prop := f.2.head? = name.val.head?

instance (name : CStr) (f : Nat × List (BitVec 8)) : Decidable (Alike name f) :=
  inferInstanceAs (Decidable (_ = _))

theorem nameHit_iff (name : CStr) {k : Nat} {x : List (BitVec 8)} (hx : 0 ∉ x) :
    nameHit name x = true ↔ Alike name (k, x) := by
  obtain ⟨s, hs⟩ := name
  unfold nameHit Alike CStr.chars pathLongMax
  dsimp only
  rw [decide_eq_true_iff]
  cases s with
  | nil =>
    cases x with
    | nil => exact ⟨fun _ => rfl, fun _ => (strncmp_eq_zero_iff 259).2 rfl⟩
    | cons y x =>
      rw [List.nil_append, List.cons_append, strncmp_eq_zero_iff]
      exact ⟨fun h => absurd (h ▸ List.mem_cons_self) hx, nofun⟩
  | cons a s =>
    cases x with
    | nil =>
      rw [List.nil_append, List.cons_append, strncmp_eq_zero_iff]
      exact ⟨fun h => absurd (h ▸ List.mem_cons_self) hs, nofun⟩
    | cons y x =>
      rw [List.cons_append, List.cons_append, strncmp_eq_zero_iff, List.head?_cons, List.head?_cons,
        Option.some.injEq]
      exact eq_comm

theorem filesFrom_no_zero {f : Nat × List (BitVec 8)} : ∀ {es : List Dirent} {k : Nat}
    {run : List DirentL}, f ∈ filesFrom k run es → 0 ∉ f.2 := by
  intro es
  have hstr : ∀ xs : List (BitVec 8), 0 ∉ cString xs := by
    intro xs h
    simpa using List.mem_takeWhile_imp h
  induction es with
  | nil => exact fun h => absurd h List.not_mem_nil
  | cons e es ih =>
    intro k run h
    rw [filesFrom] at h
    split at h
    · exact absurd h List.not_mem_nil
    · split at h
      · exact ih h
      · split at h
        · exact ih h
        · obtain rfl | h := List.mem_cons.1 h
          · unfold entryName
            dsimp only
            split
            · exact hstr _
            · exact hstr _
          · exact ih h

/-! ## `fat32_inode_dirlookup` -/

section
variable {sb : Superblock} {d : Nat → Sector} {L : List Nat} {fuel : Nat} {t : Inodes} {p : Ptr}

/-- The lookup stops at the first file with the first character of the name. -/
theorem dirlookupScan_alike {ip : Inode} (hn : 0 < fcbPerBlock sb) (hdir : DirBool ip.attr)
    (hch : Linked Iseof (fatNext sb d) ip.clusterStart L) (hacc : AllAccepted sb L)
    (hfuel : L.length < fuel) (hclean : Clean [] (dirEntries sb d L)) (name : CStr) :
    ∃ r, (dirlookupScan sb fuel ip name).run d = .ok (r, d) ∧
      r.hit.map Visit.inum = ((dirFiles sb d L).find? fun f => Alike name f).map fun f =>
        slotInum sb (dirSectors sb L) f.1 := by
  have hfind : (dirFiles sb d L).find? (fun f => nameHit name f.2) =
      (dirFiles sb d L).find? (fun f => Alike name f) :=
    List.find?_congr fun f hf => Bool.eq_iff_iff.2
      ((nameHit_iff name (filesFrom_no_zero hf)).trans decide_eq_true_iff.symm)
  rw [← hfind]
  exact dirlookupScan_find hn hdir hch hacc hfuel hclean name

theorem getChild_returns {v : Visit} {name : CStr} (hsize : t.NamesSized)
    (hname : name.val.length ≤ nameLongMax) (hfree : ∃ j, (t.entry j).ref = 0)
    (href : ∀ j, (t.entry j).ref ≠ intMax) : ∃ r, getChild t p v name.chars = .ok r := by
  have hget : ∃ r, fat32InodeGet t (t.deref p).dev.toNat v.inum name.chars v.off = .ok r := by
    unfold fat32InodeGet
    cases hloop : getLoop t (t.deref p).dev.toNat v.inum (List.finRange nentry) none with
    | hit i =>
      dsimp only
      unfold Entry.incRef
      rw [if_neg (href i)]
      exact ⟨_, rfl⟩
    | empty o =>
      have ho : o = firstFree t := (getLoop_empty hloop).2
      cases o with
      | none =>
        obtain ⟨j, hj⟩ := hfree
        exact absurd hj (firstFree_none ho.symm j)
      | some i =>
        obtain ⟨e', he', -⟩ := @recycle_name (t.deref p).dev.toNat v.inum v.off (t.entry i) name
          (by rw [hsize i]; exact hname)
        dsimp only
        rw [he']
        exact ⟨_, rfl⟩
  obtain ⟨⟨i, t'⟩, hget⟩ := hget
  unfold getChild
  rw [hget]
  exact ⟨_, rfl⟩

/-- The lookup of `name` returned `r`, with the table `t'` then: the inode of the file with this
name, and `NULL` if there is none. -/
def Named (sb : Superblock) (d : Nat → Sector) (L : List Nat) (name : CStr)
    (r : Option (Fin nentry × Nat)) (t' : Inodes) : Prop :=
  (r = none ↔ ∀ f ∈ dirFiles sb d L, f.2 ≠ name.val) ∧
  ∀ i off, r = some (i, off) → ∃ f ∈ dirFiles sb d L, f.2 = name.val ∧
    (t'.entry i).iIno = slotInum sb (dirSectors sb L) f.1

end

/-! ## Two names with the same first character -/

/-- A directory with `AB` and `A.TXT`. -/
def alikeDisk : Nat → Sector := diskWith (sectorOf (shortAB ++ shortA))

/-- `A.TXT`. -/
def nameAtxt : CStr := ⟨[65, 46, 84, 88, 84], by decide⟩

/-- `AX`. -/
def nameAx : CStr := ⟨[65, 88], by decide⟩

end Fs
