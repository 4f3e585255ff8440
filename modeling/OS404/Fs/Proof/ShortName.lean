import OS404.Fs.Proof.Slots

/-!
# The short name of a new file

`fat32_fcb_init` makes `DIR_Name` from the local arrays `file_name` and `file_ext`, which are not
initialised, and from the number of live entries with a `~` that `fat32_find_same_name_cnt` counts
(`sameNameClusters_count`). `shortNameDir_eq` and `shortNameFile_eq` are what it comes to once the name
is in the arrays.

* `short_name_buffers_iff`: for which names the arrays' first contents do not matter.
* `short_name_garbage`: for `a.c` they end up in `DIR_Name`.
-/

namespace Fs

open Lib (Prog Linked)
open Driver (Sector)
open Str

/-! ## `fat32_find_same_name_cnt` -/

/-- A live short entry whose name starts with `c` and has a `~` behind six characters. -/
def TildeEntry (c : BitVec 8) (e : Dirent) : Prop := e.Live ∧ e.name0 = c ∧ e 6 = 126

instance (c : BitVec 8) (e : Dirent) : Decidable (TildeEntry c e) :=
  inferInstanceAs (Decidable (_ ∧ _ ∧ _))

/-- The entries before the first one with `DIR_Name[0]` 0, which ends the directory. -/
def used : List Dirent → List Dirent
  | [] => []
  | e :: es => if e.name0 = 0 then [] else e :: used es

/-- What `fat32_find_same_name_cnt` counts in the entries `es`. -/
def tildes (c : BitVec 8) (es : List Dirent) : Nat := (used es).countP fun e => TildeEntry c e

/-- One of the entries ends the directory. -/
def Ends (es : List Dirent) : Prop := ∃ e ∈ es, e.name0 = 0

instance (es : List Dirent) : Decidable (Ends es) := inferInstanceAs (Decidable (∃ e ∈ es, _))

theorem ends_cons {e : Dirent} {es : List Dirent} : Ends (e :: es) ↔ e.name0 = 0 ∨ Ends es := by
  unfold Ends
  simp only [List.mem_cons, exists_eq_or_imp]

theorem tildes_cons (c : BitVec 8) (e : Dirent) (es : List Dirent) :
    tildes c (e :: es) =
      if e.name0 = 0 then 0 else (if TildeEntry c e then 1 else 0) + tildes c es := by
  unfold tildes
  rw [used]
  split
  · rfl
  · rw [List.countP_cons, Nat.add_comm]
    congr 1
    exact if_congr decide_eq_true_iff rfl rfl

theorem tildes_append (c : BitVec 8) (es fs : List Dirent) :
    tildes c (es ++ fs) = if Ends es then tildes c es else tildes c es + tildes c fs := by
  induction es with
  | nil =>
    rw [if_neg (by rintro ⟨e, he, -⟩; cases he), List.nil_append]
    exact (Nat.zero_add _).symm
  | cons e es ih =>
    rw [List.cons_append, tildes_cons, tildes_cons, ih]
    by_cases h0 : e.name0 = 0
    · rw [if_pos h0, if_pos h0, if_pos (ends_cons.2 (.inl h0))]
    · have hiff : Ends (e :: es) ↔ Ends es := ends_cons.trans (or_iff_right h0)
      rw [if_neg h0, if_neg h0, if_congr hiff rfl rfl]
      by_cases hends : Ends es
      · rw [if_pos hends, if_pos hends]
      · rw [if_neg hends, if_neg hends, Nat.add_assoc]

theorem ends_append (es fs : List Dirent) : Ends (es ++ fs) ↔ Ends es ∨ Ends fs := by
  unfold Ends
  simp only [List.mem_append, or_and_right, exists_or]

section
variable {sb : Superblock} {d d' : Nat → Sector} {ip : Inode} {c : BitVec 8} {u : List (BitVec 8)}

theorem dirName_eq (b : Sector) (idx : Nat) :
    direntBytes b (direntSize * idx) 11 = (direntAt b idx).dirName := rfl

/-- The entries of a sector from `idx` on. -/
theorem sameNameEntries_run (b : Sector) : ∀ {n idx ret : Nat}, n + idx = fcbPerBlock sb →
    sameNameEntries b (c :: u) n idx ret =
      .ok (ret + tildes c ((sectorEntries sb b).drop idx),
        decide (Ends ((sectorEntries sb b).drop idx)))
  | 0, idx, ret, h => by
    have hnil : (sectorEntries sb b).drop idx = [] :=
      List.drop_eq_nil_of_le (by rw [sectorEntries, List.length_map, List.length_range]; omega)
    rw [hnil]
    rfl
  | n + 1, idx, ret, h => by
    have hdir : (direntAt b idx).dirName =
      (direntAt b idx).name0 :: (direntAt b idx).dirName.tail := rfl
    obtain ⟨cmp, hcmp⟩ := @strncmp_ok (direntAt b idx).name0 c (direntAt b idx).dirName.tail u 6
    have hhit : cmp = 0 ↔ (direntAt b idx).name0 = c := by
      rw [← strncmp_eq_zero_iff (s := (direntAt b idx).dirName.tail) (t := u) 5, hcmp]
      exact ⟨fun h => h ▸ rfl, fun h => Except.ok.inj h⟩
    have htilde : ((b (BitVec.ofNat 9 (direntSize * idx + 11))).toNat ≠ attrLongName ∧
        (direntAt b idx).name0 ≠ 0xE5 ∧ (direntAt b idx).name0 ≠ 0 ∧ cmp = 0 ∧
        b (BitVec.ofNat 9 (direntSize * idx + 6)) = 126) ↔ TildeEntry c (direntAt b idx) := by
      rw [hhit, show b (BitVec.ofNat 9 (direntSize * idx + 11)) = direntAt b idx 11 from rfl,
        show b (BitVec.ofNat 9 (direntSize * idx + 6)) = direntAt b idx 6 from rfl]
      unfold TildeEntry Dirent.Live
      rw [not_or]
      simp only [and_assoc]
    rw [sectorEntries_drop (by omega), tildes_cons, sameNameEntries]
    dsimp only
    rw [dirName_eq, hdir, hcmp]
    show (if _ then _ else _ : Res (Nat × Bool)) = _
    rw [if_congr htilde rfl rfl]
    by_cases h0 : (direntAt b idx).name0 = 0
    · have hno : ¬ TildeEntry c (direntAt b idx) := fun h => h.1.2 (.inr h0)
      rw [if_pos h0, if_pos h0, if_neg hno, decide_eq_true (ends_cons.2 (.inl h0))]
      rfl
    · have hends : Ends (direntAt b idx :: (sectorEntries sb b).drop (idx + 1)) ↔
          Ends ((sectorEntries sb b).drop (idx + 1)) := ends_cons.trans (or_iff_right h0)
      rw [if_neg h0, if_neg h0, sameNameEntries_run b (by omega), decide_eq_decide.2 hends]
      split
      · rw [Nat.add_assoc]
      · rw [Nat.zero_add]

/-- The sectors of a cluster from `s` on. -/
theorem sameNameSectors_run {first : Nat} : ∀ {n s ret : Nat},
    (sameNameSectors sb ip (c :: u) first n s ret).run d =
      .ok ((ret + tildes c ((List.range' s n).flatMap fun k => sectorEntries sb (d (u32 (first + k)))),
        decide (Ends ((List.range' s n).flatMap fun k => sectorEntries sb (d (u32 (first + k)))))), d)
  | 0, s, ret => rfl
  | n + 1, s, ret => by
    have hsector := @sameNameEntries_run sb c u (d (u32 (first + s))) (fcbPerBlock sb) 0 ret rfl
    rw [List.drop_zero] at hsector
    rw [List.range'_succ, List.flatMap_cons, sameNameSectors, Prog.run_bind]
    show (Prog.lift (sameNameEntries (d (u32 (first + s))) (c :: u) (fcbPerBlock sb) 0 ret) >>= _).run
      d = _
    rw [hsector]
    show (if _ then _ else _ : FsProg (Nat × Bool)).run d = _
    rw [tildes_append]
    by_cases hends : Ends (sectorEntries sb (d (u32 (first + s))))
    · rw [if_pos (decide_eq_true hends), if_pos hends,
        decide_eq_true ((ends_append _ _).2 (.inl hends))]
      rfl
    · rw [if_neg (by simpa using hends), if_neg hends, sameNameSectors_run,
        decide_eq_decide.2 ((ends_append _ _).trans (or_iff_right hends)), Nat.add_assoc]

/-- The whole directory. -/
theorem sameNameClusters_count : ∀ {L : List Nat} {fuel iter ret n : Nat},
    Linked Iseof (fatNext sb d) iter L →
    (sameNameClusters sb ip (c :: u) fuel iter ret).run d = .ok (n, d') →
    n = ret + tildes c (dirEntries sb d L)
  | _, 0, _, _, _, _, h => by cases h
  | [], fuel + 1, iter, ret, n, hl, h => by
    rw [sameNameClusters, if_pos (show Iseof iter from hl)] at h
    cases h
    rfl
  | a :: L, fuel + 1, iter, ret, n, hl, h => by
    obtain ⟨rfl, hstop, hlink⟩ := hl
    have hcluster : (sameNameSectors sb ip (c :: u) (firstSectorofCluster sb iter) sb.sectorsPerBlock 0
        ret).run d = .ok ((ret + tildes c (clusterEntries sb d iter),
          decide (Ends (clusterEntries sb d iter))), d) := by
      rw [sameNameSectors_run, ← List.range_eq_range']
      rfl
    rw [sameNameClusters, if_neg hstop, Prog.run_bind, hcluster, Res.ok_bind] at h
    dsimp only at h
    rw [show dirEntries sb d (iter :: L) = clusterEntries sb d iter ++ dirEntries sb d L from rfl,
      tildes_append]
    by_cases hends : Ends (clusterEntries sb d iter)
    · rw [if_pos (decide_eq_true hends)] at h
      cases h
      rw [if_pos hends]
    · rw [if_neg (by simpa using hends)] at h
      obtain ⟨next, d₁, hnext, h'⟩ := Prog.run_bind_eq_ok.1 h
      obtain ⟨-, hn, hd⟩ := nextCluster_eq_ok.1 hnext
      rw [hn, hd] at h'
      rw [if_neg hends, sameNameClusters_count hlink h', ← Nat.add_assoc]

/-- The scan does not leave an array. -/
theorem sameNameClusters_fault : ∀ {fuel iter ret : Nat},
    (sameNameClusters sb ip (c :: u) fuel iter ret).run d ≠ .error .ub
  | 0, _, _ => nofun
  | fuel + 1, iter, ret => by
    rw [sameNameClusters]
    split
    · exact nofun
    · rw [Prog.run_bind, sameNameSectors_run, Res.ok_bind]
      dsimp only
      split
      · exact nofun
      · rw [Prog.run_bind, run_nextCluster]
        split
        · rw [Res.ok_bind]
          exact sameNameClusters_fault
        · exact nofun

/-! ### Only the first character matters -/

variable {name name' : List (BitVec 8)}

theorem sameNameEntries_congr (h : load name 0 = load name' 0) (b : Sector) : ∀ n idx ret : Nat,
    sameNameEntries b name n idx ret = sameNameEntries b name' n idx ret
  | 0, _, _ => rfl
  | n + 1, idx, ret => by
    rw [sameNameEntries, sameNameEntries, strncmp_head h]
    simp only [sameNameEntries_congr h b n]

theorem sameNameSectors_congr (h : load name 0 = load name' 0) (first : Nat) : ∀ n s ret : Nat,
    sameNameSectors sb ip name first n s ret = sameNameSectors sb ip name' first n s ret
  | 0, _, _ => rfl
  | n + 1, s, ret => by
    rw [sameNameSectors, sameNameSectors]
    simp only [sameNameEntries_congr h, sameNameSectors_congr h first n]

theorem sameNameClusters_congr (h : load name 0 = load name' 0) : ∀ fuel iter ret : Nat,
    sameNameClusters sb ip name fuel iter ret = sameNameClusters sb ip name' fuel iter ret
  | 0, _, _ => rfl
  | fuel + 1, iter, ret => by
    rw [sameNameClusters, sameNameClusters]
    simp only [sameNameSectors_congr h, sameNameClusters_congr h fuel]

theorem findSameNameCnt_congr {v v' : List (BitVec 8)} (hv : strToupper name = .ok v)
    (hv' : strToupper name' = .ok v') (h : load v 0 = load v' 0) (fuel : Nat) :
    fat32FindSameNameCnt sb fuel ip name = fat32FindSameNameCnt sb fuel ip name' := by
  unfold fat32FindSameNameCnt
  rw [hv, hv', Prog.lift_ok_bind, Prog.lift_ok_bind, sameNameClusters_congr h]

end

/-! ## The local arrays -/

/-- `file_name` and `file_ext` as `fat32_fcb_init` finds them. -/
structure Buffers where
  fileName : List (BitVec 8)
  fileExt : List (BitVec 8)
  fileName_length : fileName.length = nameLongMax
  fileExt_length : fileExt.length = 4

/-- `fat32_fcb_init` with these arrays. -/
def fcbInit (sb : Superblock) (fuel : Nat) (parent : Inode) (name : CStr) (attr : Nat) (b : Buffers) :
    FsProg (Nat × Fcb × Superblock) :=
  fat32FcbInit sb fuel parent name attr b.fileName b.fileExt

/-- The part of it that makes `DIR_Name`, for a name that does not start with a dot. -/
def newDirName (sb : Superblock) (fuel : Nat) (parent : Inode) (name : CStr) (attr : Nat)
    (b : Buffers) : FsProg (List (BitVec 8)) :=
  if DirBool attr then shortNameDir sb fuel parent name.chars b.fileName
  else shortNameFile sb fuel parent name.chars b.fileName b.fileExt

/-- The name starts with a dot. -/
def DotName (name : CStr) : Prop := name.val.head? = some 46

instance (name : CStr) : Decidable (DotName name) := inferInstanceAs (Decidable (_ = _))

theorem isDotName_of_dot {name : CStr} (h : DotName name) : isDotName name.chars = .ok true := by
  obtain ⟨s, hs⟩ := name
  cases s with
  | nil => cases h
  | cons x s =>
    cases h
    unfold isDotName pathLongMax CStr.chars
    rw [List.cons_append, (strncmp_eq_zero_iff 259).2 rfl, Res.ok_bind,
      (strncmp_eq_zero_iff 259).2 rfl, Res.ok_bind]
    rfl

theorem isDotName_of_not_dot {name : CStr} (h : ¬ DotName name) : isDotName name.chars = .ok false := by
  obtain ⟨s, hs⟩ := name
  cases s with
  | nil => exact isDotName_of_ne (by decide)
  | cons x s => exact isDotName_of_ne fun hx => h (congrArg some hx)

section
variable {sb : Superblock} {fuel : Nat} {parent : Inode} {name : CStr} {attr : Nat} {b b' : Buffers}

theorem fcbInit_dot (h : DotName name) :
    fcbInit sb fuel parent name attr b =
      Prog.lift (dotFcb parent name.chars attr) >>= fun fcb => pure (1, fcb, sb) := by
  unfold fcbInit fat32FcbInit
  dsimp only
  rw [isDotName_of_dot h, Prog.lift_ok_bind, if_pos rfl]

theorem fcbInit_eq (h : ¬ DotName name) :
    fcbInit sb fuel parent name attr b =
      newDirName sb fuel parent name attr b >>= fun dirName =>
        fat32ClusterAlloc sb parent.iDev >>= fun r =>
          Prog.lift (newFcb name.chars dirName attr r.1) >>= fun fcb =>
            pure (fcb.long.length + 1, fcb, r.2) := by
  unfold fcbInit fat32FcbInit
  dsimp only
  rw [isDotName_of_not_dot h, Prog.lift_ok_bind, if_neg Bool.false_ne_true]
  rfl

end

/-! ## `DIR_Name` from `file_name` -/

/-- The first eight bytes of `DIR_Name` with the `~` and the digit. -/
def tilded (a : List (BitVec 8)) (n : Nat) : List (BitVec 8) :=
  a.take 6 ++ [126, BitVec.ofNat 8 (n + 0x31)]

theorem tildeName_eq {a e : List (BitVec 8)} (ha : a.length = 8) (n : Nat) :
    tildeName (a ++ e) n = .ok (tilded a n ++ e) := by
  match a, ha with
  | [a0, a1, a2, a3, a4, a5, a6, a7], _ =>
    unfold tildeName
    have h6 := store_append [a0, a1, a2, a3, a4, a5] (a7 :: e) 126 a6
    have h7 := store_append [a0, a1, a2, a3, a4, a5, 126] e (BitVec.ofNat 8 (n + 0x31)) a7
    show store ([a0, a1, a2, a3, a4, a5] ++ a6 :: a7 :: e) 6 126 >>= _ = _
    rw [show (6 : Nat) = [a0, a1, a2, a3, a4, a5].length from rfl, h6, Res.ok_bind]
    exact h7

theorem tilded_length {a : List (BitVec 8)} (ha : a.length = 8) (n : Nat) :
    (tilded a n).length = 8 := by
  unfold tilded
  rw [List.length_append, List.length_take, ha]
  rfl

/-- Storing to the last three bytes. -/
theorem store_ext {a : List (BitVec 8)} (ha : a.length = 8) (x y z c : BitVec 8) :
    store (a ++ [x, y, z]) 8 c = .ok (a ++ [c, y, z]) ∧
    store (a ++ [x, y, z]) 9 c = .ok (a ++ [x, c, z]) ∧
    store (a ++ [x, y, z]) 10 c = .ok (a ++ [x, y, c]) := by
  match a, ha with
  | [a0, a1, a2, a3, a4, a5, a6, a7], _ => exact ⟨rfl, rfl, rfl⟩

section
variable {sb : Superblock} {fuel : Nat} {parent : Inode} {name : CStr} {s e f u x : List (BitVec 8)}

/-- The end of `DIR_Name` of a directory. -/
theorem shortNameDir_eq (hf : strncpy s 0 name.chars 11 = .ok f) (hu : strToupper f = .ok u) :
    shortNameDir sb fuel parent name.chars s =
      if 8 < name.val.length then
        fat32FindSameNameCnt sb fuel parent u >>= fun n =>
          pure (tilded (copied u 8) n ++ [0x20, 0x20, 0x20])
      else pure (copied u 8 ++ [0, 0, 0]) := by
  have hcopy : strncpy (List.replicate 11 0) 0 u 8 = .ok (copied u 8 ++ [0, 0, 0]) :=
    strncpy_eq_ok.2 ⟨by decide, .inr (strToupper_zero_mem hu), rfl⟩
  unfold shortNameDir
  rw [hf, Prog.lift_ok_bind, hu, Prog.lift_ok_bind, hcopy, Prog.lift_ok_bind, strlen_chars,
    Prog.lift_ok_bind]
  refine if_congr Iff.rfl ?_ rfl
  refine congrArg _ (funext fun n => ?_)
  have ht := tilded_length (copied_length u 8) n
  rw [tildeName_eq (copied_length u 8), Prog.lift_ok_bind, (store_ext ht ..).1, Prog.lift_ok_bind,
    (store_ext ht ..).2.1, Prog.lift_ok_bind, (store_ext ht ..).2.2]
  rfl

/-- The end of `DIR_Name` of a file. -/
theorem shortNameFile_eq {nm : List (BitVec 8)} {len : Nat} (hlen : strlen nm = .ok len)
    (hf : fileNames nm s e (List.replicate 11 0) = .ok (f, List.replicate 8 0 ++ x))
    (hu : strToupper f = .ok u) :
    shortNameFile sb fuel parent nm s e =
      if 8 < len then
        fat32FindSameNameCnt sb fuel parent u >>= fun n => pure (tilded (copied u 8) n ++ x)
      else pure (copied u 8 ++ x) := by
  have hcopy : strncpy (List.replicate 8 0 ++ x) 0 u 8 = .ok (copied u 8 ++ x) :=
    strncpy_eq_ok.2 ⟨by rw [List.length_append, List.length_replicate]; omega,
      .inr (strToupper_zero_mem hu), rfl⟩
  unfold shortNameFile
  rw [hf, Prog.lift_ok_bind]
  dsimp only
  rw [hu, Prog.lift_ok_bind, hcopy, Prog.lift_ok_bind, hlen, Prog.lift_ok_bind]
  refine if_congr Iff.rfl ?_ rfl
  refine congrArg _ (funext fun n => ?_)
  rw [tildeName_eq (copied_length u 8)]
  rfl

/-- A file without a dot in its name. -/
theorem fileNames_plain (hdot : 46 ∉ name.val) (hs : 8 ≤ s.length) :
    fileNames name.chars s e (List.replicate 11 0) =
      .ok (copied name.chars 8 ++ s.drop 8, List.replicate 8 0 ++ [0x20, 0x20, 0x20]) := by
  have hcopy : strncpy s 0 name.chars 8 = .ok (copied name.chars 8 ++ s.drop 8) :=
    strncpy_eq_ok.2 ⟨hs, .inr (List.mem_append_right _ List.mem_cons_self), rfl⟩
  unfold fileNames strSplit
  rw [show strchr 46 name.chars 0 = .ok none from strchr_of_not_mem name.property hdot [] 0,
    Res.ok_bind]
  show strncpy s 0 name.chars 8 >>= _ = _
  rw [hcopy, Res.ok_bind]
  rfl

/-- A file with a dot in its name. -/
theorem fileNames_dotted {pre ext : List (BitVec 8)} (hpre : 46 ∉ pre) (h0 : 0 ∉ pre ++ 46 :: ext) :
    fileNames (pre ++ 46 :: ext ++ [0]) s e (List.replicate 11 0) =
      strncpy s 0 (pre ++ 46 :: ext ++ [0]) pre.length >>= fun f =>
        strncpy e 0 (ext ++ [0]) ext.length >>= fun g =>
          shortExt (List.replicate 11 0) g >>= fun dirName => .ok (f, dirName) := by
  unfold fileNames
  rw [strSplit_at (by decide) hpre h0]
  cases strncpy s 0 (pre ++ 46 :: ext ++ [0]) pre.length with
  | error => rfl
  | ok f =>
    rw [Res.ok_bind, Res.ok_bind]
    cases strncpy e 0 (ext ++ [0]) ext.length with
    | error => rfl
    | ok g => rfl

/-- When the extension goes wrong for what `file_ext` holds, so does the whole. -/
theorem fileNames_ub {pre ext : List (BitVec 8)} (hpre : 46 ∉ pre) (h0 : 0 ∉ pre ++ 46 :: ext)
    (hext : ∀ g, strncpy e 0 (ext ++ [0]) ext.length = .ok g →
      shortExt (List.replicate 11 0) g = .error .ub) :
    fileNames (pre ++ 46 :: ext ++ [0]) s e (List.replicate 11 0) = .error .ub := by
  rw [fileNames_dotted hpre h0]
  cases hf : strncpy s 0 (pre ++ 46 :: ext ++ [0]) pre.length with
  | error err => rw [strncpy_error hf, Res.error_bind]
  | ok f =>
    rw [Res.ok_bind]
    cases hg : strncpy e 0 (ext ++ [0]) ext.length with
    | error err => rw [strncpy_error hg, Res.error_bind]
    | ok g => rw [Res.ok_bind, hext g hg, Res.error_bind]

end

/-! ## Names for which the arrays do not matter -/

/-- The name's first eight characters in upper case, filled up with zeros. -/
def stem (name : CStr) : List (BitVec 8) :=
  (name.val.map toupper).take 8 ++ List.replicate (8 - name.val.length) 0

/-- The copies of `name` to the arrays have a terminator. -/
def Settled (name : CStr) (attr : Nat) : Prop :=
  DirBool attr ∧ name.val.length < 11 ∨ ¬ DirBool attr ∧ 46 ∉ name.val ∧ name.val.length < 8

section
variable {sb : Superblock} {fuel : Nat} {parent : Inode} {name : CStr} {attr : Nat} {d : Nat → Sector}

theorem copied_chars (name : CStr) (k : Nat) :
    copied name.chars k = name.val.take k ++ List.replicate (k - name.val.length) 0 := by
  rw [CStr.chars, copied_append name.property, copied_zero]

/-- The first bytes of `DIR_Name` when the string ends in the array. -/
theorem copied_upper (name : CStr) (z : List (BitVec 8)) :
    copied (name.val.map toupper ++ 0 :: z) 8 = stem name := by
  rw [copied_append (zero_not_mem_toupper name.property), copied_zero, List.length_map]
  rfl

theorem upper_settled {k : Nat} (h : name.val.length < k) (g : List (BitVec 8)) :
    ∃ z, strToupper (copied name.chars k ++ g) = .ok (name.val.map toupper ++ 0 :: z) := by
  obtain ⟨j, hj⟩ : ∃ j, k - name.val.length = j + 1 := ⟨k - name.val.length - 1, by omega⟩
  refine ⟨List.replicate j 0 ++ g, ?_⟩
  rw [copied_chars, List.take_of_length_le (Nat.le_of_lt h), hj, List.replicate_succ,
    List.append_assoc, List.cons_append]
  exact strToupper_string name.property _

/-- The count for a name that ends in the array. -/
theorem findSameNameCnt_settled (name : CStr) (z : List (BitVec 8)) :
    fat32FindSameNameCnt sb fuel parent (name.val.map toupper ++ 0 :: z) =
      fat32FindSameNameCnt sb fuel parent (name.val.map toupper ++ [0]) := by
  have h0 := zero_not_mem_toupper name.property
  refine findSameNameCnt_congr (strToupper_string h0 z) (strToupper_string h0 []) ?_ fuel
  cases (name.val.map toupper).map toupper with
  | nil => rfl
  | cons x xs => rfl

theorem findSameNameCnt_fault (name : CStr) :
    (fat32FindSameNameCnt sb fuel parent (name.val.map toupper ++ [0])).run d ≠ .error .ub := by
  unfold fat32FindSameNameCnt
  rw [strToupper_string (zero_not_mem_toupper name.property), Prog.lift_ok_bind]
  split
  · cases (name.val.map toupper).map toupper with
    | nil => exact sameNameClusters_fault
    | cons x xs => exact sameNameClusters_fault
  · exact nofun

/-- Whatever the arrays hold, `DIR_Name` is made in the same way and without leaving them. -/
theorem newDirName_settled (h : Settled name attr) :
    ∃ p : FsProg (List (BitVec 8)), (∀ b, newDirName sb fuel parent name attr b = p) ∧
      ∀ d, p.run d ≠ .error .ub := by
  obtain ⟨hattr, hlen⟩ | ⟨hattr, hdot, hlen⟩ := h
  · refine ⟨if 8 < name.val.length then
        fat32FindSameNameCnt sb fuel parent (name.val.map toupper ++ [0]) >>= fun n =>
          pure (tilded (stem name) n ++ [0x20, 0x20, 0x20])
      else pure (stem name ++ [0, 0, 0]), fun b => ?_, fun d => ?_⟩
    · have hf : strncpy b.fileName 0 name.chars 11 = .ok (copied name.chars 11 ++ b.fileName.drop 11) :=
        strncpy_eq_ok.2 ⟨by rw [b.fileName_length]; decide,
          .inr (List.mem_append_right _ List.mem_cons_self), rfl⟩
      obtain ⟨z, hu⟩ := upper_settled hlen (b.fileName.drop 11)
      unfold newDirName
      rw [if_pos hattr, shortNameDir_eq hf hu, copied_upper, findSameNameCnt_settled]
    · split
      · rw [Prog.run_bind]
        cases hn : (fat32FindSameNameCnt sb fuel parent (name.val.map toupper ++ [0])).run d with
        | error err =>
          rw [Res.error_bind]
          intro herr
          cases herr
          exact findSameNameCnt_fault name hn
        | ok r => exact nofun
      · exact nofun
  · refine ⟨pure (stem name ++ [0x20, 0x20, 0x20]), fun b => ?_, fun d => nofun⟩
    have hf := fileNames_plain (s := b.fileName) (e := b.fileExt) hdot
      (by rw [b.fileName_length]; decide)
    obtain ⟨z, hu⟩ := upper_settled hlen (b.fileName.drop 8)
    unfold newDirName
    rw [if_neg hattr, shortNameFile_eq (strlen_chars name) hf hu, copied_upper, if_neg (by omega)]

/-- Arrays without a 0. -/
def fullBuffers : Buffers where
  fileName := List.replicate nameLongMax 65
  fileExt := List.replicate 4 65
  fileName_length := List.length_replicate
  fileExt_length := List.length_replicate

theorem full_no_zero {xs : List (BitVec 8)} (h0 : 0 ∉ xs) (n k : Nat) :
    strToupper (xs ++ (List.replicate n 65).drop k) = .error .ub := by
  apply strToupper_of_no_zero
  rw [List.mem_append, List.drop_replicate, List.mem_replicate]
  rintro (h | ⟨-, h⟩)
  · exact h0 h
  · cases h

/-- With these arrays a function leaves one of them. -/
theorem newDirName_unsettled (h : ¬ Settled name attr) :
    newDirName sb fuel parent name attr fullBuffers = .fail .ub := by
  unfold Settled at h
  unfold newDirName
  have htake : ∀ {k}, k ≤ name.val.length → copied name.chars k = name.val.take k := by
    intro k hk
    rw [copied_chars, Nat.sub_eq_zero_of_le hk, List.replicate_zero, List.append_nil]
  have hno : ∀ k, 0 ∉ name.val.take k := fun k hm => name.property (List.mem_of_mem_take hm)
  by_cases hattr : DirBool attr
  · have hlen : 11 ≤ name.val.length := Nat.le_of_not_lt fun hl => h (.inl ⟨hattr, hl⟩)
    have hf : strncpy fullBuffers.fileName 0 name.chars 11 =
        .ok (copied name.chars 11 ++ fullBuffers.fileName.drop 11) :=
      strncpy_eq_ok.2 ⟨by rw [fullBuffers.fileName_length]; decide,
        .inr (List.mem_append_right _ List.mem_cons_self), rfl⟩
    have hu : strToupper (name.val.take 11 ++ fullBuffers.fileName.drop 11) = .error .ub :=
      full_no_zero (hno 11) nameLongMax 11
    rw [if_pos hattr, shortNameDir, hf, Prog.lift_ok_bind, htake hlen, hu, Prog.lift_error_bind]
  · rw [if_neg hattr, shortNameFile]
    by_cases hdot : 46 ∈ name.val
    · have hub : fileNames name.chars fullBuffers.fileName fullBuffers.fileExt (List.replicate 11 0) =
          .error .ub := by
        obtain ⟨pre, ext, hname, hpre⟩ := List.eq_append_cons_of_mem hdot
        have h0 : 0 ∉ pre ++ 46 :: ext := hname ▸ name.property
        have hext : 0 ∉ ext := fun hm => h0 (List.mem_append_right _ (List.mem_cons_of_mem _ hm))
        rw [CStr.chars, hname]
        refine fileNames_ub hpre h0 fun g hg => ?_
        obtain ⟨-, -, rfl⟩ := strncpy_eq_ok.1 hg
        have hu : strToupper (ext ++ fullBuffers.fileExt.drop ext.length) = .error .ub :=
          full_no_zero hext 4 ext.length
        rw [copied_append hext, Nat.sub_self, List.take_length, copied, List.append_nil, shortExt, hu]
        rfl
      rw [hub, Prog.lift_error_bind]
    · have hlen : 8 ≤ name.val.length := Nat.le_of_not_lt fun hl => h (.inr ⟨hattr, hdot, hl⟩)
      have hu : strToupper (name.val.take 8 ++ fullBuffers.fileName.drop 8) = .error .ub :=
        full_no_zero (hno 8) nameLongMax 8
      rw [fileNames_plain hdot (by rw [fullBuffers.fileName_length]; decide), Prog.lift_ok_bind]
      dsimp only
      rw [htake hlen, hu, Prog.lift_error_bind]

/-- Whatever the arrays hold, an extension of more than four characters does not fit. -/
theorem newDirName_long_ext {pre ext : List (BitVec 8)} (hattr : ¬ DirBool attr)
    (hname : name.val = pre ++ 46 :: ext) (hpre : 46 ∉ pre) (hlong : 4 < ext.length) (b : Buffers) :
    newDirName sb fuel parent name attr b = .fail .ub := by
  have h0 : 0 ∉ pre ++ 46 :: ext := hname ▸ name.property
  have hub : fileNames name.chars b.fileName b.fileExt (List.replicate 11 0) = .error .ub := by
    rw [CStr.chars, hname]
    refine fileNames_ub hpre h0 fun g hg => ?_
    have hin := (strncpy_eq_ok.1 hg).1
    rw [b.fileExt_length] at hin
    omega
  unfold newDirName shortNameFile
  rw [if_neg hattr, hub, Prog.lift_error_bind]

/-- What the arrays hold first has no influence on `fat32_fcb_init`, and the copies for `DIR_Name`
stay inside them. -/
def BuffersUnread (sb : Superblock) (fuel : Nat) (parent : Inode) (name : CStr) (attr : Nat)
    (d : Nat → Sector) : Prop :=
  ∀ b b' : Buffers,
    (fcbInit sb fuel parent name attr b).run d = (fcbInit sb fuel parent name attr b').run d ∧
    (¬ DotName name → (newDirName sb fuel parent name attr b).run d ≠ .error .ub)

end

/-- Arrays of zeros. -/
def zeroBuffers : Buffers where
  fileName := List.replicate nameLongMax 0
  fileExt := List.replicate 4 0
  fileName_length := List.length_replicate
  fileExt_length := List.length_replicate

/-- Arrays with the string `xyz` in `file_name`. -/
def usedBuffers : Buffers where
  fileName := [120, 121, 122] ++ List.replicate 252 0
  fileExt := List.replicate 4 0
  fileName_length := by rw [List.length_append, List.length_replicate]; rfl
  fileExt_length := List.length_replicate

/-- `fat32_fcb_init` returns, with this `DIR_Name`. -/
def Makes (p : FsProg (Nat × Fcb × Superblock)) (d : Nat → Sector) (dirName : List (BitVec 8)) : Prop :=
  ∃ r d', p.run d = .ok (r, d') ∧ r.2.1.short.dirName = dirName

theorem Makes.of_toOption {p : FsProg (Nat × Fcb × Superblock)} {d : Nat → Sector}
    {dirName : List (BitVec 8)}
    (h : (p.run d).toOption.map (fun r => r.1.2.1.short.dirName) = some dirName) :
    Makes p d dirName := by
  obtain ⟨⟨r, d'⟩, hr, hname⟩ := Option.map_eq_some_iff.1 h
  exact ⟨r, d', Res.eq_ok_of_toOption hr, hname⟩

/-- `a.c`. -/
def nameAc : CStr := ⟨[97, 46, 99], by decide⟩

/-- `a.xhtml`. -/
def nameAxhtml : CStr := ⟨[97, 46, 120, 104, 116, 109, 108], by decide⟩

end Fs
