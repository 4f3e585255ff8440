import OS404.Fs.Dir
import OS404.Fs.Proof.Cluster
import OS404.Fs.Proof.LongName

/-!
# Decoding a directory

`entryNames run es` is what a directory means: the names of the live short entries of `es` before
the first free one, where `run` are the live long entries right before `es`. A live short entry has
the name that the run in front of it holds, when that is a complete sequence with the entry's
checksum, and its 8.3 name otherwise.

The scans keep a stack instead, onto which they also push deleted long entries, and which only a
live short entry takes down. On a directory in which every long entry belongs to the name of the
short entry behind it (`Clean`), the stack is the run (`pushLong_clean`), and the loops over the
entries, the sectors and the clusters give the names (`lookupEntries_clean`, `scanSectors_clean`,
`scanClusters_clean`).

* `dir_names`: the names that `fat32_inode_dirlookup` and `fat32_getdents` find.
* `dir_names_stale`: a deleted long entry costs the next file its name, and enough of them end in a
  panic.
-/

namespace Fs

open Lib (Prog Linked)
open Driver (Sector)
open Str

/-! ## What a directory means -/

/-- The string in an array. -/
def cString (xs : List (BitVec 8)) : List (BitVec 8) := xs.takeWhile (· ≠ 0)

theorem cString_append (xs ys : List (BitVec 8)) : cString (xs ++ 0 :: ys) = cString xs := by
  unfold cString
  induction xs with
  | nil => rfl
  | cons x xs ih =>
    rw [List.cons_append, List.takeWhile_cons, List.takeWhile_cons, ih]

/-- The 8.3 name of the 11 bytes of `DIR_Name`. -/
def shortName (dirName : List (BitVec 8)) : List (BitVec 8) :=
  (dirName.take 8).filter (· ≠ 0x20) ++
    if dirName[8]? = some 0x20 then [] else 46 :: (dirName.drop 8).filter (· ≠ 0x20)

instance : ∀ (checksum : BitVec 8) (i : Nat) (es : List DirentL), Decidable (RunFrom checksum i es)
  | _, _, [] => inferInstanceAs (Decidable True)
  | c, i, _ :: es =>
    have := instDecidableRunFrom c (i + 1) es
    inferInstanceAs (Decidable (_ ∧ _ ∧ _))

/-- The name of a live short entry behind the long entries `run`. -/
def entryName (run : List DirentL) (e : Dirent) : List (BitVec 8) :=
  if run ≠ [] ∧ RunFrom (chkSum e.dirName 0) 1 run then cString (runBytes run)
  else cString (shortName e.dirName)

/-- The names of the live short entries before the first free one (module doc). -/
def entryNames : List DirentL → List Dirent → List (List (BitVec 8))
  | _, [] => []
  | run, e :: es =>
    if e.name0 = 0 then []
    else if e.name0 = 0xE5 then entryNames [] es
    else if e.LongNameBool then entryNames (e.toLong :: run) es
    else entryName run e :: entryNames [] es

/-- Every long entry is live and belongs to the name of the live short entry behind it, which has
room in `name_buf`. -/
def Clean : List DirentL → List Dirent → Prop
  | _, [] => True
  | run, e :: es =>
    if e.name0 = 0 then run = []
    else if e.name0 = 0xE5 then run = [] ∧ ¬ e.LongNameBool ∧ Clean [] es
    else if e.LongNameBool then run.length < capacity ∧ Clean (e.toLong :: run) es
    else (run = [] ∨ RunFrom (chkSum e.dirName 0) 1 run ∧ (runBytes run).length < nameLongMax) ∧
      Clean [] es

instance Clean.decide : ∀ run es, Decidable (Clean run es)
  | _, [] => isTrue trivial
  | run, e :: es =>
    have := Clean.decide [] es
    have := Clean.decide (e.toLong :: run) es
    inferInstanceAs (Decidable (if e.name0 = 0 then run = []
      else if e.name0 = 0xE5 then run = [] ∧ ¬ e.LongNameBool ∧ Clean [] es
      else if e.LongNameBool then run.length < capacity ∧ Clean (e.toLong :: run) es
      else (run = [] ∨ RunFrom (chkSum e.dirName 0) 1 run ∧ (runBytes run).length < nameLongMax) ∧
        Clean [] es))

/-- The first names up to one with `f`. -/
def upTo {α : Type} (f : α → Bool) : List α → List α
  | [] => []
  | a :: as => if f a then [a] else a :: upTo f as

/-! ## One entry -/

theorem shortChars_append (xs pre post : List (BitVec 8))
    (h : (xs.filter (· ≠ 0x20)).length ≤ post.length) :
    shortChars xs pre.length (pre ++ post) =
      .ok ((pre ++ xs.filter (· ≠ 0x20)).length,
        pre ++ xs.filter (· ≠ 0x20) ++ post.drop (xs.filter (· ≠ 0x20)).length) := by
  induction xs generalizing pre post with
  | nil => simp [shortChars]
  | cons x xs ih =>
    rw [shortChars]
    by_cases hx : x = 0x20
    · rw [if_pos hx, List.filter_cons_of_neg (by simp [hx])] at *
      exact ih _ _ h
    · have hf : (x :: xs).filter (· ≠ 0x20) = x :: xs.filter (· ≠ 0x20) :=
        List.filter_cons_of_pos (decide_eq_true hx)
      rw [hf] at h ⊢
      cases post with
      | nil => simp at h
      | cons y post =>
        have hpre : pre.length + 1 = (pre ++ [x]).length := by simp
        rw [if_neg hx, store_append, Res.ok_bind, hpre, ih _ _ (by simpa using h)]
        simp

theorem shortNameParser_eq {dirName nameBuf : List (BitVec 8)} (h : dirName.length = 11)
    (hbuf : 13 ≤ nameBuf.length) :
    ∃ post, fat32ShortNameParser dirName nameBuf = .ok (shortName dirName ++ 0 :: post) := by
  have hname : ((dirName.take 8).filter (· ≠ 0x20)).length ≤ 8 :=
    Nat.le_trans (List.length_filter_le _ _) (List.length_take_le _ _)
  have hext : ((dirName.drop 8).filter (· ≠ 0x20)).length ≤ 3 := by
    refine Nat.le_trans (List.length_filter_le _ _) ?_
    rw [List.length_drop, h]
  have hlast : ∀ pre post : List (BitVec 8), post ≠ [] →
      ∃ post', store (pre ++ post) pre.length 0 = .ok (pre ++ 0 :: post') := by
    intro pre post hp
    obtain ⟨y, post', rfl⟩ := List.exists_cons_of_ne_nil hp
    exact ⟨post', by rw [store_append]; simp⟩
  have h8 : dirName[8]? = some (dirName.get ⟨8, by omega⟩) := List.getElem?_eq_getElem _
  have hstart := shortChars_append (dirName.take 8) [] nameBuf (by omega)
  rw [List.length_nil, List.nil_append, List.nil_append] at hstart
  unfold fat32ShortNameParser shortName
  rw [hstart, Res.ok_bind]
  dsimp only
  unfold load
  rw [h8, Res.ok_bind]
  by_cases hx : dirName.get ⟨8, by omega⟩ = 0x20
  · rw [if_pos hx, Res.ok_bind, if_pos (congrArg some hx), List.append_nil]
    exact hlast _ _ (List.ne_nil_of_length_pos (by rw [List.length_drop]; omega))
  · rw [if_neg hx, if_neg fun he => hx (Option.some.inj he)]
    obtain ⟨y, post, hpost⟩ := List.exists_cons_of_ne_nil
      (List.ne_nil_of_length_pos (by rw [List.length_drop]; omega) :
        nameBuf.drop ((dirName.take 8).filter (· ≠ 0x20)).length ≠ [])
    have hlen : post.length + 1 + ((dirName.take 8).filter (· ≠ 0x20)).length = nameBuf.length := by
      have := congrArg List.length hpost
      rw [List.length_drop, List.length_cons] at this
      omega
    have hpre : ((dirName.take 8).filter (· ≠ 0x20)).length + 1 =
        ((dirName.take 8).filter (· ≠ 0x20) ++ [46]).length := by simp
    rw [hpost, store_append, Res.ok_bind, hpre, shortChars_append _ _ _ (by omega), Res.ok_bind]
    obtain ⟨post', hstore⟩ := hlast ((dirName.take 8).filter (· ≠ 0x20) ++ [46] ++
      (dirName.drop 8).filter (· ≠ 0x20)) (post.drop ((dirName.drop 8).filter (· ≠ 0x20)).length)
      (List.ne_nil_of_length_pos (by rw [List.length_drop]; omega))
    exact ⟨post', hstore.trans (by simp)⟩

theorem dirName_length (e : Dirent) : e.dirName.length = 11 := by
  unfold Dirent.dirName
  rw [List.length_map, List.length_range]

theorem toLong_chars (e : Dirent) : e.toLong.chars.length = 13 := rfl

/-- The names that a scan has found. -/
def Scan.names (s : Scan) : List (List (BitVec 8)) := s.visits.map fun v => cString v.nameBuf

/-- The stack holds long entries of the disk. -/
def Scan.OnDisk (s : Scan) : Prop := ∀ x ∈ s.stack, x.chars.length ≤ 14

theorem shortVisit_clean (sb : Superblock) (sec idx : Nat) {e : Dirent} {s : Scan} (hd : s.OnDisk)
    (hcap : s.stack.length ≤ capacity)
    (h : s.stack = [] ∨
      RunFrom (chkSum e.dirName 0) 1 s.stack ∧ (runBytes s.stack).length < nameLongMax) :
    ∃ nameBuf s', shortVisit sb sec e idx s = .ok (nameBuf, s') ∧ s'.stack = [] ∧ nameBuf ≠ [] ∧
      cString nameBuf = entryName s.stack e ∧ s'.names = s.names ++ [entryName s.stack e] := by
  unfold shortVisit fat32LongnamePopstack entryName Scan.names
  by_cases hnil : s.stack = []
  · obtain ⟨post, hshort⟩ := shortNameParser_eq (dirName_length e)
      (by rw [List.length_replicate]; decide : 13 ≤ (List.replicate nameLongMax (0 : BitVec 8)).length)
    rw [hnil, popLoop, Res.ok_bind]
    dsimp only
    rw [if_pos rfl, hshort, Res.ok_bind, if_neg (fun hne => hne.1 rfl)]
    refine ⟨_, _, rfl, rfl, by simp, cString_append _ _, ?_⟩
    rw [List.map_append, List.map_singleton, cString_append]
  · obtain hnil' | ⟨hrun, hfit⟩ := h
    · exact absurd hnil' hnil
    · have hpop := popLoop_run [] (List.replicate nameLongMax 0) hrun hnil hd
        (by rw [capacity] at hcap; omega) (by rw [List.length_replicate]; exact hfit)
      rw [List.length_nil, List.nil_append] at hpop
      rw [hpop, Res.ok_bind]
      dsimp only
      rw [if_neg (by decide), Res.ok_bind, if_pos ⟨hnil, hrun⟩]
      refine ⟨_, _, rfl, rfl, by simp, cString_append _ _, ?_⟩
      rw [List.map_append, List.map_singleton, List.nil_append, cString_append]

/-! ## One sector -/

/-- The loop that pushes long entries stops at the end of the sector or at an entry that is not a
long one. -/
theorem pushLong_clean (ys : List Dirent) : ∀ (xs : List Dirent) (s : Scan), s.OnDisk →
    s.stack.length ≤ capacity → Clean s.stack (xs ++ ys) →
    (∀ e es, xs = e :: es → e.name0 = 0 → s.stack ≠ []) →
    ∃ rest s', pushLong xs s = .ok (rest, s') ∧ s'.OnDisk ∧ s'.stack.length ≤ capacity ∧
      Clean s'.stack (rest ++ ys) ∧ entryNames s'.stack (rest ++ ys) = entryNames s.stack (xs ++ ys) ∧
      s'.names = s.names ∧ rest.length ≤ xs.length ∧
      ∀ e es, rest = e :: es → ¬ e.LongNameBool ∧ e.name0 ≠ 0 := by
  intro xs
  induction xs with
  | nil =>
    intro s hd hcap hc _
    exact ⟨[], s, rfl, hd, hcap, hc, rfl, rfl, Nat.le_refl _, nofun⟩
  | cons e xs ih =>
    intro s hd hcap hc hfirst
    -- Where the sector's first entry is free, the outer loop has ended; later ones follow a long
    -- entry, and a clean directory has no free entry there.
    have hname : e.name0 ≠ 0 := by
      intro h0
      rw [List.cons_append, Clean, if_pos h0] at hc
      exact hfirst e xs rfl h0 hc
    rw [List.cons_append, Clean, if_neg hname] at hc
    rw [List.cons_append, entryNames, if_neg hname, pushLong]
    by_cases hlong : e.LongNameBool
    · have hlive : e.name0 ≠ 0xE5 := by
        intro he
        rw [if_pos he] at hc
        exact hc.2.1 hlong
      rw [if_neg hlive, if_pos hlong] at hc
      rw [if_neg hlive, if_pos hlong, if_pos hlong, stackPush, if_neg (by omega), Res.ok_bind]
      obtain ⟨rest, s', hrun, hd', hcap', hc', hn', hv', hl', hr'⟩ :=
        ih { s with stack := e.toLong :: s.stack, off := u32 (s.off + 1) }
          (by
            intro x hx
            obtain rfl | hx := List.mem_cons.1 hx
            · rw [toLong_chars]
              decide
            · exact hd x hx)
          hc.1 hc.2 (fun _ _ _ _ => List.cons_ne_nil _ _)
      exact ⟨rest, s', hrun, hd', hcap', hc', hn', hv', Nat.le_succ_of_le hl', hr'⟩
    · rw [if_neg hlong]
      refine ⟨e :: xs, s, rfl, hd, hcap, ?_, ?_, rfl, Nat.le_refl _, ?_⟩
      · rw [List.cons_append, Clean, if_neg hname]
        exact hc
      · rw [List.cons_append, entryNames, if_neg hname]
      · intro e' es he
        cases he
        exact ⟨hlong, hname⟩

/-- What is left to find after a loop over the entries `xs`, when `ys` come after them. -/
def Finds (f : List (BitVec 8) → Bool) (ys : List Dirent) (names : List (List (BitVec 8))) :
    Scanned → Prop
  | .more s => s.OnDisk ∧ s.stack.length ≤ capacity ∧ Clean s.stack ys ∧
      s.names ++ upTo f (entryNames s.stack ys) = names
  | .free s => s.names = names
  | .found s => s.names = names

theorem lookupEntries_clean {sb : Superblock} {sec : Nat} {stop : List (BitVec 8) → Res Bool}
    {f : List (BitVec 8) → Bool} (hstop : ∀ buf, buf ≠ [] → stop buf = .ok (f (cString buf)))
    (ys : List Dirent) (fuel : Nat) : ∀ (xs : List Dirent) (s : Scan), xs.length < fuel → s.OnDisk →
    s.stack.length ≤ capacity → Clean s.stack (xs ++ ys) →
    ∃ r, lookupEntries sb sec stop fuel xs s = .ok r ∧
      Finds f ys (s.names ++ upTo f (entryNames s.stack (xs ++ ys))) r := by
  induction fuel with
  | zero => exact fun _ _ h => absurd h (Nat.not_lt_zero _)
  | succ fuel ih =>
    intro xs s hfuel hd hcap hc
    cases xs with
    | nil => exact ⟨_, rfl, hd, hcap, hc, rfl⟩
    | cons e es =>
      rw [lookupEntries]
      by_cases h0 : e.name0 = 0
      · rw [if_pos h0, List.cons_append, entryNames, if_pos h0]
        exact ⟨_, rfl, (List.append_nil _).symm⟩
      rw [if_neg h0]
      obtain ⟨rest, s', hrun, hd', hcap', hc', hn', hv', hl', hr'⟩ :=
        pushLong_clean ys (e :: es) s hd hcap hc (fun e' es' he hz => by
          cases he
          exact absurd hz h0)
      rw [hrun, Res.ok_bind, ← hn', ← hv']
      dsimp only
      cases rest with
      | nil => exact ⟨_, rfl, hd', hcap', hc', rfl⟩
      | cons e' es' =>
        obtain ⟨hlong, hname⟩ := hr' e' es' rfl
        rw [List.length_cons] at hl' hfuel
        rw [List.length_cons] at hl'
        rw [List.cons_append, Clean, if_neg hname] at hc'
        rw [List.cons_append, entryNames, if_neg hname]
        dsimp only
        by_cases hdel : e'.name0 = 0xE5
        · rw [if_pos hdel] at hc' ⊢
          rw [if_neg (not_not.2 (.inl hdel))]
          have hnil : ({ s' with off := u32 (s'.off + 1) } : Scan).stack = [] := hc'.1
          obtain ⟨r, hrun', hr⟩ := ih es' { s' with off := u32 (s'.off + 1) } (by omega) hd' hcap'
            (hnil.symm ▸ hc'.2.2)
          rw [hnil] at hr
          exact ⟨r, hrun', hr⟩
        · rw [if_neg hdel, if_neg hlong] at hc' ⊢
          rw [if_pos fun hfree => hfree.elim hdel hname]
          obtain ⟨nameBuf, s₁, hvisit, hnil, hne, hstr, hnames⟩ :=
            shortVisit_clean sb sec (fcbPerBlock sb - (es'.length + 1)) hd' hcap' hc'.1
          rw [hvisit, Res.ok_bind]
          dsimp only
          rw [hstop nameBuf hne, Res.ok_bind, hstr, upTo]
          by_cases hf : f (entryName s'.stack e') = true
          · rw [if_pos hf, if_pos hf]
            exact ⟨_, rfl, hnames⟩
          · rw [if_neg hf, if_neg hf]
            obtain ⟨s₂, hs₂⟩ : ∃ s₂ : Scan, s₂ = { s₁ with off := u32 (s₁.off + 1) } := ⟨_, rfl⟩
            have hnil₂ : s₂.stack = [] := by rw [hs₂]; exact hnil
            have hnames₂ : s₂.names = s'.names ++ [entryName s'.stack e'] := by rw [hs₂]; exact hnames
            obtain ⟨r, hrun', hr⟩ := ih es' s₂ (by omega) (fun x hx => by rw [hnil₂] at hx; cases hx)
              (by rw [hnil₂]; decide) (by rw [hnil₂]; exact hc'.2)
            rw [hnames₂, hnil₂, List.append_assoc, List.singleton_append] at hr
            rw [← hs₂]
            exact ⟨r, hrun', hr⟩

/-- The missing check of `idx` makes no difference: what is behind the data is not live. -/
theorem getdentsEntries_eq (sb : Superblock) (sec fuel : Nat) : ∀ (xs : List Dirent) (s : Scan),
    getdentsEntries sb sec fuel xs s = lookupEntries sb sec (fun _ => .ok false) fuel xs s := by
  induction fuel with
  | zero => exact fun _ _ => rfl
  | succ fuel ih =>
    intro xs s
    cases xs with
    | nil => rfl
    | cons e es =>
      rw [getdentsEntries, lookupEntries]
      split
      · rfl
      · cases hp : pushLong (e :: es) s with
        | error err => rfl
        | ok r =>
          obtain ⟨rest, s'⟩ := r
          rw [Res.ok_bind, Res.ok_bind]
          cases rest with
          | nil => rfl
          | cons e' es' =>
            dsimp only
            split
            · cases hv : shortVisit sb sec e' (fcbPerBlock sb - (es'.length + 1)) s' with
              | error err => rfl
              | ok v =>
                rw [Res.ok_bind, Res.ok_bind]
                exact ih _ _
            · exact ih _ _

/-! ## The whole directory -/

section
variable {sb : Superblock} {d : Nat → Sector} {f : List (BitVec 8) → Bool}
  {entries : Nat → List Dirent → Scan → Res Scanned}

/-- The entries of cluster `c`. -/
def clusterEntries (sb : Superblock) (d : Nat → Sector) (c : Nat) : List Dirent :=
  (List.range sb.sectorsPerBlock).flatMap fun k =>
    sectorEntries sb (d (u32 (firstSectorofCluster sb c + k)))

/-- The entries of a directory with chain `L`. -/
def dirEntries (sb : Superblock) (d : Nat → Sector) (L : List Nat) : List Dirent :=
  L.flatMap (clusterEntries sb d)

/-- The loop over a sector finds what is in it. -/
def FindsAll (sb : Superblock) (f : List (BitVec 8) → Bool)
    (entries : Nat → List Dirent → Scan → Res Scanned) : Prop :=
  ∀ (ys : List Dirent) (sec : Nat) (b : Sector) (s : Scan), s.OnDisk → s.stack.length ≤ capacity →
    Clean s.stack (sectorEntries sb b ++ ys) →
    ∃ r, entries sec (sectorEntries sb b) s = .ok r ∧
      Finds f ys (s.names ++ upTo f (entryNames s.stack (sectorEntries sb b ++ ys))) r

theorem run_scanSectors {dev : Dev} {first n k : Nat} {s : Scan} :
    (scanSectors sb dev entries first (n + 1) k s).run d =
      entries (u32 (first + k)) (sectorEntries sb (d (u32 (first + k)))) s >>= fun r =>
        (r.andThen fun s => scanSectors sb dev entries first n (k + 1) s).run d := by
  have hread : (scanSectors sb dev entries first (n + 1) k s).run d =
      ((Prog.lift (entries (u32 (first + k)) (sectorEntries sb (d (u32 (first + k)))) s)).bind fun r =>
        r.andThen fun s => scanSectors sb dev entries first n (k + 1) s).run d := rfl
  rw [hread]
  cases entries (u32 (first + k)) (sectorEntries sb (d (u32 (first + k)))) s with
  | error f => rfl
  | ok r => rfl

theorem scanSectors_clean (he : FindsAll sb f entries) (dev : Dev) (first : Nat) (ys : List Dirent)
    (n : Nat) : ∀ (k : Nat) (s : Scan), s.OnDisk → s.stack.length ≤ capacity →
    Clean s.stack (((List.range' k n).flatMap fun k => sectorEntries sb (d (u32 (first + k)))) ++ ys) →
    ∃ r, (scanSectors sb dev entries first n k s).run d = .ok (r, d) ∧
      Finds f ys (s.names ++ upTo f (entryNames s.stack
        (((List.range' k n).flatMap fun k => sectorEntries sb (d (u32 (first + k)))) ++ ys))) r := by
  induction n with
  | zero =>
    intro k s hd hcap hc
    exact ⟨.more s, rfl, hd, hcap, hc, rfl⟩
  | succ n ih =>
    intro k s hd hcap hc
    rw [List.range'_succ, List.flatMap_cons, List.append_assoc] at hc ⊢
    obtain ⟨r, hrun, hr⟩ := he _ (u32 (first + k)) (d (u32 (first + k))) s hd hcap hc
    rw [run_scanSectors, hrun, Res.ok_bind]
    cases r with
    | more s' =>
      obtain ⟨hd', hcap', hc', hn'⟩ := hr
      rw [← hn']
      exact ih (k + 1) s' hd' hcap' hc'
    | free s' => exact ⟨_, rfl, hr⟩
    | found s' => exact ⟨_, rfl, hr⟩

theorem scanClusters_clean (he : FindsAll sb f entries) (dev : Dev) :
    ∀ {L : List Nat} {fuel iter : Nat} {s : Scan}, Linked Iseof (fatNext sb d) iter L → AllAccepted sb L →
    L.length < fuel → s.OnDisk → s.stack.length ≤ capacity → Clean s.stack (dirEntries sb d L) →
    ∃ r, (scanClusters sb dev entries fuel iter s).run d = .ok (r, d) ∧
      r.scan.names = s.names ++ upTo f (entryNames s.stack (dirEntries sb d L)) := by
  intro L
  induction L with
  | nil =>
    intro fuel iter s hch _ hfuel _ _ _
    obtain ⟨fuel, rfl⟩ := Nat.exists_eq_succ_of_ne_zero (Nat.ne_zero_of_lt hfuel)
    rw [scanClusters, if_pos (show Iseof iter from hch)]
    exact ⟨_, rfl, (List.append_nil _).symm⟩
  | cons c L ih =>
    intro fuel iter s hch hacc hfuel hd hcap hc
    obtain ⟨fuel, rfl⟩ := Nat.exists_eq_succ_of_ne_zero (Nat.ne_zero_of_lt hfuel)
    obtain ⟨rfl, hstop, hlink⟩ := hch
    obtain ⟨hc₁, hacc'⟩ := allAccepted_cons.1 hacc
    rw [dirEntries, List.flatMap_cons] at hc ⊢
    rw [clusterEntries, List.range_eq_range'] at hc ⊢
    obtain ⟨r, hrun, hr⟩ := scanSectors_clean he dev (firstSectorofCluster sb iter)
      (dirEntries sb d L) sb.sectorsPerBlock 0 s hd hcap hc
    rw [scanClusters, if_neg hstop, Prog.run_bind, hrun]
    change ∃ r', (r.andThen _).run d = _ ∧ _
    cases r with
    | more s' =>
      obtain ⟨hd', hcap', hc', hn'⟩ := hr
      have hnext : (fat32NextCluster sb iter).run d = .ok (fatNext sb d iter, d) := by
        rw [run_nextCluster, if_pos hc₁]
      change ∃ r', (fat32NextCluster sb iter >>= _).run d = _ ∧ _
      rw [Prog.run_bind, hnext]
      change ∃ r', (scanClusters sb dev entries fuel (fatNext sb d iter) s').run d = _ ∧ _
      obtain ⟨r', hrun', hr'⟩ := ih hlink hacc'
        (Nat.lt_of_succ_lt_succ hfuel) hd' hcap' hc'
      exact ⟨r', hrun', hr'.trans hn'⟩
    | free s' => exact ⟨_, rfl, hr⟩
    | found s' => exact ⟨_, rfl, hr⟩

end

/-! ## The two functions -/

/-- `fat32_inode_dirlookup` for `name` stops at a file called `x`. -/
def nameHit (name : CStr) (x : List (BitVec 8)) : Bool :=
  decide (strncmp name.chars (x ++ [0]) pathLongMax = .ok 0)

theorem load_cString {buf : List (BitVec 8)} (h : buf ≠ []) : load (cString buf ++ [0]) 0 = load buf 0 := by
  obtain ⟨x, buf, rfl⟩ := List.exists_cons_of_ne_nil h
  unfold cString
  by_cases hx : x = 0
  · subst hx
    rfl
  · rw [List.takeWhile_cons, if_pos (by simpa using hx)]
    rfl

theorem nameStop_eq (name : CStr) {buf : List (BitVec 8)} (h : buf ≠ []) :
    nameStop name buf = .ok (nameHit name (cString buf)) := by
  unfold nameStop nameHit
  rw [strncmp_head (load_cString h)]
  obtain ⟨y, t, rfl⟩ := List.exists_cons_of_ne_nil h
  obtain ⟨x, s, hs⟩ := List.exists_cons_of_ne_nil (by simp [CStr.chars] : name.chars ≠ [])
  obtain ⟨v, hv⟩ := strncmp_ok (x := x) (y := y) (s := s) (t := t) pathLongMax
  rw [hs, hv, Res.ok_bind]
  simp

theorem upTo_false {α : Type} (xs : List α) : upTo (fun _ => false) xs = xs := by
  induction xs with
  | nil => rfl
  | cons x xs ih => rw [upTo, if_neg (by decide), ih]

section
variable {sb : Superblock} {d : Nat → Sector} {ip : Inode} {L : List Nat} {fuel : Nat}

theorem sectorEntries_length (sb : Superblock) (b : Sector) :
    (sectorEntries sb b).length < fcbPerBlock sb + 1 := by
  unfold sectorEntries
  rw [List.length_map, List.length_range]
  exact Nat.lt_succ_self _

theorem start_onDisk : Scan.start.OnDisk := nofun

theorem start_fits : Scan.start.stack.length ≤ capacity := Nat.zero_le _

/-- `fat32_getdents` scans a directory with good long entries to the end. -/
theorem getdentsScan_clean (hdir : DirBool ip.attr)
    (hch : Linked Iseof (fatNext sb d) ip.clusterStart L) (hacc : AllAccepted sb L)
    (hfuel : L.length < fuel) (hclean : Clean [] (dirEntries sb d L)) :
    ∃ r, (getdentsScan sb fuel ip).run d = .ok (r, d) ∧
      r.scan.names = entryNames [] (dirEntries sb d L) := by
  have hall : FindsAll sb (fun _ => false) fun sec => getdentsEntries sb sec (fcbPerBlock sb + 1) := by
    intro ys sec b s hs hl hc
    have hstop : ∀ buf : List (BitVec 8), buf ≠ [] →
        (.ok false : Res Bool) = .ok ((fun _ => false) (cString buf)) := fun _ _ => rfl
    dsimp only
    rw [getdentsEntries_eq]
    exact lookupEntries_clean hstop ys _ _ s (sectorEntries_length sb b) hs hl hc
  obtain ⟨r, hrun, hr⟩ := scanClusters_clean hall ip.iDev hch hacc hfuel start_onDisk start_fits hclean
  rw [upTo_false] at hr
  refine ⟨r, ?_, hr⟩
  unfold getdentsScan
  rw [if_pos hdir]
  exact hrun

/-- `fat32_inode_dirlookup` scans it to the match. -/
theorem dirlookupScan_clean (hdir : DirBool ip.attr)
    (hch : Linked Iseof (fatNext sb d) ip.clusterStart L) (hacc : AllAccepted sb L)
    (hfuel : L.length < fuel) (hclean : Clean [] (dirEntries sb d L)) (name : CStr) :
    ∃ r, (dirlookupScan sb fuel ip name).run d = .ok (r, d) ∧
      r.scan.names = upTo (nameHit name) (entryNames [] (dirEntries sb d L)) := by
  have hall : FindsAll sb (nameHit name)
      fun sec => lookupEntries sb sec (nameStop name) (fcbPerBlock sb + 1) := by
    intro ys sec b s hs hl hc
    exact lookupEntries_clean (fun _ h => nameStop_eq name h) ys _ _ s (sectorEntries_length sb b)
      hs hl hc
  obtain ⟨r, hrun, hr⟩ := scanClusters_clean hall ip.iDev hch hacc hfuel start_onDisk start_fits hclean
  refine ⟨r, ?_, hr⟩
  unfold dirlookupScan
  rw [if_pos hdir]
  exact hrun

end

/-! ## Directories with and without dead entries -/

/-- A sector with the given bytes, then zeros. -/
def sectorOf (bytes : List (BitVec 8)) : Sector := fun i => bytes.getD i.toNat 0

/-- A disk whose cluster 2 is a chain of its own and starts with the sector `b`. -/
def diskWith (b : Sector) (sec : Nat) : Sector :=
  if sec = 8 then setDword (fun _ => 0) 8 eoc else if sec = 9 then b else fun _ => 0

/-- `A.TXT` as the 11 bytes of a short entry, with its attribute and zeros. -/
def shortA : List (BitVec 8) := [65, 32, 32, 32, 32, 32, 32, 32, 84, 88, 84, 0x20] ++ List.replicate 20 0

/-- The long entry of `a.txt` for it. -/
def longA : List (BitVec 8) :=
  [0x41, 97, 0, 46, 0, 116, 0, 120, 0, 116, 0, 0x0F, 0, chkSum (shortA.take 11) 0, 0, 0] ++
    List.replicate 16 0xFF

/-- A deleted long entry. -/
def deadLong : List (BitVec 8) := 0xE5 :: longA.drop 1

/-- `a.txt`. -/
def nameA : CStr := ⟨[97, 46, 116, 120, 116], by decide⟩

/-- A volume with clusters of two sectors. -/
def wideSb : Superblock := { blankSb with sectorsPerBlock := 2, clusterSize := 1024 }

theorem diskWith_linked (b : Sector) :
    Linked Iseof (fatNext blankSb (diskWith b)) blankRoot.clusterStart [2] := by
  refine ⟨rfl, by decide, ?_⟩
  show Iseof (fatNext blankSb (diskWith fun _ => 0) 2)
  decide +kernel

/-- A directory with a deleted long entry before `a.txt`. -/
def staleDisk : Nat → Sector := diskWith (sectorOf (deadLong ++ longA ++ shortA))

/-- A directory of deleted long entries. -/
def deadDisk : Nat → Sector := fun _ => sectorOf (List.replicate 16 deadLong).flatten

/-- A scan that comes to the end mark after the names `xs`. -/
def EndsWith (prog : FsProg Scanned) (d : Nat → Sector) (xs : List (List (BitVec 8))) : Prop :=
  ∃ s d', prog.run d = .ok (.free s, d') ∧ s.names = xs

theorem EndsWith.of_toOption {prog : FsProg Scanned} {d : Nat → Sector} {xs : List (List (BitVec 8))}
    (h : ((prog.run d).toOption.any fun r => match r.1 with
      | .free s => decide (s.names = xs)
      | _ => false) = true) : EndsWith prog d xs := by
  obtain ⟨⟨r, d'⟩, hrun, hr⟩ := Res.exists_ok_of_any h
  cases r with
  | free s => exact ⟨s, d', hrun, of_decide_eq_true hr⟩
  | found s => cases hr
  | more s => cases hr

end Fs
