import OS404.Fs.Proof.Slots

/-!
# Long names in `name_buf`

`fat32_longname_popstack` decodes the entries on the stack up to the first one that does not continue
the run (`accepted`), and stores their characters and, behind the last entry, a terminator
(`storedBytes`). No part of it looks at the size of `name_buf`: a run of 20 full entries has 260
characters.

* `popstack_fits_iff`: the stores are inside an array of `NAME_LONG_MAX` bytes exactly when there are at
  most `NAME_LONG_MAX` of them, and 19 entries always fit.
-/

namespace Fs

open Lib (Prog)
open Driver (Sector)
open Str

/-! ## What is decoded -/

/-- The entries that are decoded, from ordinal `cnt` on. The one that is popped last may have any
ordinal. -/
def accepted (checksum : BitVec 8) : Nat → List DirentL → List DirentL
  | _, [] => []
  | cnt, e :: stack =>
    if (stack ≠ [] ∧ cnt ≠ e.ldirOrd) ∨ e.ldirChksum ≠ checksum then []
    else e :: accepted checksum ((cnt + 1) % 2 ^ 8) stack

/-- The number of bytes that are stored: the characters of these entries, and the terminator when the
stack has been emptied. -/
def storedBytes (checksum : BitVec 8) (cnt : Nat) (stack : List DirentL) : Nat :=
  (runBytes (accepted checksum cnt stack)).length +
    if stack ≠ [] ∧ (accepted checksum cnt stack).length = stack.length then 1 else 0

section
variable {checksum : BitVec 8} {cnt : Nat} {e : DirentL} {stack : List DirentL}

theorem storedBytes_stop (h : (stack ≠ [] ∧ cnt ≠ e.ldirOrd) ∨ e.ldirChksum ≠ checksum) :
    storedBytes checksum cnt (e :: stack) = 0 := by
  unfold storedBytes accepted
  rw [if_pos h, if_neg (fun hn => Nat.succ_ne_zero _ hn.2.symm)]
  rfl

/-- An entry that is decoded: the terminator is stored behind the last one. -/
theorem storedBytes_cons (h : ¬ ((stack ≠ [] ∧ cnt ≠ e.ldirOrd) ∨ e.ldirChksum ≠ checksum)) :
    storedBytes checksum cnt (e :: stack) = (validBytes e.chars).1.length +
      if stack = [] then 1 else storedBytes checksum ((cnt + 1) % 2 ^ 8) stack := by
  unfold storedBytes
  rw [accepted, if_neg h, runBytes_cons, List.length_append]
  cases stack with
  | nil => rfl
  | cons e' stack => simp [Nat.add_assoc]

/-- `n` entries of at most 13 characters. -/
theorem storedBytes_le (cnt : Nat) (h : ∀ x ∈ stack, x.chars.length ≤ 13) :
    storedBytes checksum cnt stack ≤ 13 * stack.length + 1 := by
  induction stack generalizing cnt with
  | nil => exact Nat.zero_le _
  | cons e stack ih =>
    obtain ⟨he, hstack⟩ := List.forall_mem_cons.1 h
    by_cases hstop : (stack ≠ [] ∧ cnt ≠ e.ldirOrd) ∨ e.ldirChksum ≠ checksum
    · rw [storedBytes_stop hstop]
      exact Nat.zero_le _
    · have hbytes := validBytes_length_le e.chars
      have := ih ((cnt + 1) % 2 ^ 8) hstack
      rw [storedBytes_cons hstop, List.length_cons]
      split <;> omega

end

/-! ## The loop -/

/-- With `post` left of the array, the loop returns exactly when there is room for what it stores. -/
theorem popLoop_fits {fcbSName : List (BitVec 8)} {stack : List DirentL} :
    ∀ (cnt : Nat) (pre post : List (BitVec 8)), (∀ x ∈ stack, x.chars.length ≤ 14) →
    if storedBytes (chkSum fcbSName 0) cnt stack ≤ post.length then
      ∃ r, popLoop fcbSName stack cnt pre.length (pre ++ post) = .ok r
    else popLoop fcbSName stack cnt pre.length (pre ++ post) = .error .ub := by
  induction stack with
  | nil =>
    intro cnt pre post _
    rw [show storedBytes (chkSum fcbSName 0) cnt [] = 0 from rfl, if_pos (Nat.zero_le _)]
    exact ⟨_, rfl⟩
  | cons e stack ih =>
    intro cnt pre post hchars
    obtain ⟨he, hstack⟩ := List.forall_mem_cons.1 hchars
    by_cases hord : stack ≠ [] ∧ cnt ≠ e.ldirOrd
    · rw [storedBytes_stop (.inl hord), if_pos (Nat.zero_le _), popLoop, if_pos hord]
      exact ⟨_, rfl⟩
    by_cases hsum : e.ldirChksum ≠ chkSum fcbSName 0
    · rw [storedBytes_stop (.inr hsum), if_pos (Nat.zero_le _), popLoop, if_neg hord, if_pos hsum]
      exact ⟨_, rfl⟩
    have hcopy := copyName_append (validBytes e.chars).1 pre post
    have hout := copyName_outside (validBytes e.chars).1 pre post
    rw [storedBytes_cons (not_or.2 ⟨hord, hsum⟩)]
    rw [not_not] at hsum
    cases stack with
    | nil =>
      rw [popLoop_last hsum he, if_pos rfl]
      generalize (validBytes e.chars).1 = bytes at *
      by_cases hroom : bytes.length ≤ post.length
      · -- the characters fit, and perhaps the terminator does
        rw [hcopy hroom, Res.ok_bind]
        dsimp only
        split
        next hfit =>
          obtain ⟨y, post', hpost'⟩ := List.exists_cons_of_ne_nil
            (List.ne_nil_of_length_pos (by rw [List.length_drop]; omega) : post.drop bytes.length ≠ [])
          rw [hpost', store_append]
          exact ⟨_, rfl⟩
        next hfull =>
          rw [store_outside (by rw [List.length_append, List.length_drop]; omega)]
          rfl
      · rw [if_neg (by omega), hout (Nat.not_le.1 hroom)]
        rfl
    | cons e' stack =>
      have hcnt : e.ldirOrd = cnt := by
        by_contra hne
        exact hord ⟨List.cons_ne_nil _ _, Ne.symm hne⟩
      rw [popLoop_more hcnt hsum he, if_neg (List.cons_ne_nil _ _)]
      generalize (validBytes e.chars).1 = bytes at *
      by_cases hroom : bytes.length ≤ post.length
      · have h := ih ((cnt + 1) % 2 ^ 8) (pre ++ bytes) (post.drop bytes.length) hstack
        rw [List.length_drop] at h
        rw [hcopy hroom, Res.ok_bind]
        simpa only [Nat.le_sub_iff_add_le' hroom] using h
      · rw [if_neg (by omega), hout (Nat.not_le.1 hroom)]
        rfl

theorem popstack_fits {stack : List DirentL} {fcbSName nameBuf : List (BitVec 8)}
    (hchars : ∀ x ∈ stack, x.chars.length ≤ 14) :
    if storedBytes (chkSum fcbSName 0) 1 stack ≤ nameBuf.length then
      ∃ r, fat32LongnamePopstack stack fcbSName nameBuf = .ok r
    else fat32LongnamePopstack stack fcbSName nameBuf = .error .ub :=
  popLoop_fits 1 [] nameBuf hchars

/-- **A long name fits into `name_buf`** exactly when its characters and the terminator are at most
`NAME_LONG_MAX` bytes; those of 19 entries are. -/
theorem popstack_fits_iff (stack : List Dirent) (e : Dirent) {nameBuf : List (BitVec 8)}
    (hbuf : nameBuf.length = nameLongMax) :
    ((∃ r, fat32LongnamePopstack (stack.map Dirent.toLong) e.dirName nameBuf = .ok r) ↔
      storedBytes (chkSum e.dirName 0) 1 (stack.map Dirent.toLong) ≤ nameLongMax) ∧
    (stack.length ≤ 19 →
      storedBytes (chkSum e.dirName 0) 1 (stack.map Dirent.toLong) ≤ nameLongMax) := by
  have hchars : ∀ x ∈ stack.map Dirent.toLong, x.chars.length = 13 := by
    intro x hx
    obtain ⟨y, -, rfl⟩ := List.mem_map.1 hx
    exact toLong_chars y
  constructor
  · have h := @popstack_fits (stack.map Dirent.toLong) e.dirName nameBuf fun x hx => by
      rw [hchars x hx]
      decide
    rw [hbuf] at h
    constructor
    · rintro ⟨r, hr⟩
      by_contra hfull
      rw [if_neg hfull, hr] at h
      cases h
    · intro hfit
      rwa [if_pos hfit] at h
  · intro hlen
    have h := @storedBytes_le (chkSum e.dirName 0) (stack.map Dirent.toLong) 1 fun x hx =>
      (hchars x hx).le
    rw [List.length_map] at h
    unfold nameLongMax
    omega

/-- `a.txt`, with its one long entry. -/
theorem popstack_fits_single :
    ∃ r, fat32LongnamePopstack [(direntAt (singleDisk 9) 0).toLong] (direntAt (singleDisk 9) 1).dirName
      (List.replicate nameLongMax 0) = .ok r := by
  have h := @popstack_fits_iff [direntAt (singleDisk 9) 0] (direntAt (singleDisk 9) 1)
    (List.replicate nameLongMax 0) List.length_replicate
  exact h.1.2 (h.2 (by decide))

/-! ## A scan that comes to too many characters -/

section
variable {sb : Superblock} {d : Nat → Sector} {stop : List (BitVec 8) → Res Bool} {sec fuel : Nat}
  {ls es : List Dirent} {e : Dirent} {s : Scan}

/-- The entries `ls` of a sector are pushed. -/
theorem pushLong_longs (s : Scan) (hlong : ∀ x ∈ ls, x.LongNameBool)
    (hes : ∀ x ∈ es.head?, ¬ x.LongNameBool) (hcap : s.stack.length + ls.length ≤ capacity) :
    ∃ s', pushLong (ls ++ es) s = .ok (es, s') ∧
      s'.stack = (ls.map Dirent.toLong).reverse ++ s.stack := by
  induction ls generalizing s with
  | nil =>
    refine ⟨s, ?_, rfl⟩
    rw [List.nil_append]
    cases es with
    | nil => rfl
    | cons x es => rw [pushLong, if_neg (hes x rfl)]
  | cons x ls ih =>
    obtain ⟨hx, hls⟩ := List.forall_mem_cons.1 hlong
    rw [List.length_cons] at hcap
    have hpush : stackPush s.stack x.toLong = .ok (x.toLong :: s.stack) := if_neg (by omega)
    obtain ⟨s', hrun, hstack⟩ := ih { s with stack := x.toLong :: s.stack, off := u32 (s.off + 1) }
      hls (by rw [List.length_cons]; omega)
    refine ⟨s', ?_, by rw [hstack]; simp⟩
    rw [List.cons_append, pushLong, if_pos hx, hpush]
    exact hrun

/-- A sector of long entries. -/
theorem lookupEntries_longs (s : Scan) (hne : ls ≠ [])
    (hlong : ∀ x ∈ ls, x.LongNameBool ∧ ¬ Name0FreeAll x.name0)
    (hcap : s.stack.length + ls.length ≤ capacity) :
    ∃ s', lookupEntries sb sec stop (fuel + 1) ls s = .ok (.more s') ∧
      s'.stack = (ls.map Dirent.toLong).reverse ++ s.stack := by
  obtain ⟨s', hrun, hstack⟩ := @pushLong_longs ls [] s (fun x hx => (hlong x hx).1)
    (fun x hx => by cases hx) hcap
  obtain ⟨x, xs, rfl⟩ := List.exists_cons_of_ne_nil hne
  rw [List.append_nil] at hrun
  refine ⟨{ s' with off := u32 (s'.off + 1) }, ?_, hstack⟩
  rw [lookupEntries, if_neg (hlong x List.mem_cons_self).2, hrun]
  rfl

/-- Long entries and a short one, with more characters on the stack than there is room for. -/
theorem lookupEntries_overrun (s : Scan) (hne : ls ≠ [])
    (hlong : ∀ x ∈ ls, x.LongNameBool ∧ ¬ Name0FreeAll x.name0)
    (hcap : s.stack.length + ls.length ≤ capacity) (he : ¬ e.LongNameBool ∧ ¬ e.Name0FreeBool)
    (hdisk : ∀ x ∈ (ls.map Dirent.toLong).reverse ++ s.stack, x.chars.length ≤ 14)
    (hfull : nameLongMax <
      storedBytes (chkSum e.dirName 0) 1 ((ls.map Dirent.toLong).reverse ++ s.stack)) :
    lookupEntries sb sec stop (fuel + 1) (ls ++ e :: es) s = .error .ub := by
  obtain ⟨s', hrun, hstack⟩ := @pushLong_longs ls (e :: es) s (fun x hx => (hlong x hx).1)
    (by rintro x ⟨⟩; exact he.1) hcap
  obtain ⟨x, xs, rfl⟩ := List.exists_cons_of_ne_nil hne
  rw [← hstack] at hdisk hfull
  have hpop := @popstack_fits s'.stack e.dirName (List.replicate nameLongMax 0) hdisk
  rw [List.length_replicate, if_neg (Nat.not_le.2 hfull)] at hpop
  rw [List.cons_append, lookupEntries, if_neg (hlong x List.mem_cons_self).2, ← List.cons_append, hrun,
    Res.ok_bind]
  dsimp only
  rw [if_pos he.2]
  unfold shortVisit
  rw [hpop]
  rfl

/-- A directory whose first sector holds long entries only and whose second one goes on with `ls` and the
short entry `e`. -/
theorem scan_overrun {dev : Dev} {c first : Nat} {ls₁ : List Dirent} (hc : ¬ Iseof c)
    (htwo : sb.sectorsPerBlock = 2) (hfirst : firstSectorofCluster sb c = first)
    (h₁ : sectorEntries sb (d (u32 first)) = ls₁)
    (h₂ : sectorEntries sb (d (u32 (first + 1))) = ls ++ e :: es) (hne₁ : ls₁ ≠ []) (hne : ls ≠ [])
    (hlong : ∀ x ∈ ls₁ ++ ls, x.LongNameBool ∧ ¬ Name0FreeAll x.name0)
    (hcap : (ls₁ ++ ls).length ≤ capacity) (he : ¬ e.LongNameBool ∧ ¬ e.Name0FreeBool)
    (hfull : nameLongMax < storedBytes (chkSum e.dirName 0) 1 ((ls₁ ++ ls).map Dirent.toLong).reverse) :
    (scanClusters sb dev (fun sec => lookupEntries sb sec stop (fcbPerBlock sb + 1)) (fuel + 1) c
      .start).run d = .error .ub := by
  obtain ⟨hlong₁, hlong₂⟩ := List.forall_mem_append.1 hlong
  rw [List.length_append] at hcap
  have hcap₁ : Scan.start.stack.length + ls₁.length ≤ capacity := by
    rw [show Scan.start.stack = [] from rfl, List.length_nil]
    omega
  obtain ⟨s', hrun, hstack⟩ := @lookupEntries_longs sb stop (u32 first) (fcbPerBlock sb) ls₁ .start hne₁
    hlong₁ hcap₁
  rw [show Scan.start.stack = [] from rfl, List.append_nil] at hstack
  have hall : (ls.map Dirent.toLong).reverse ++ s'.stack = ((ls₁ ++ ls).map Dirent.toLong).reverse := by
    rw [hstack, List.map_append, List.reverse_append]
  have hdisk : ∀ x ∈ (ls.map Dirent.toLong).reverse ++ s'.stack, x.chars.length ≤ 14 := by
    rw [hall]
    intro x hx
    obtain ⟨y, -, rfl⟩ := List.mem_map.1 (List.mem_reverse.1 hx)
    rw [toLong_chars]
    decide
  have hcap₂ : s'.stack.length + ls.length ≤ capacity := by
    rw [hstack, List.length_reverse, List.length_map]
    omega
  rw [← hall] at hfull
  have hover := @lookupEntries_overrun sb stop (u32 (first + 1)) (fcbPerBlock sb) ls es e s' hne hlong₂
    hcap₂ he hdisk hfull
  rw [scanClusters, if_neg hc, htwo, Prog.run_bind, hfirst, run_scanSectors, Nat.add_zero, h₁, hrun,
    Res.ok_bind, Scanned.andThen, run_scanSectors, h₂, hover]
  rfl

end

/-! ## A run of 20 entries -/

/-- A sector given by the bytes of its entries. -/
def sectorWith (entry : Nat → List (BitVec 8)) : Sector := fun i =>
  (entry (i.toNat / direntSize)).getD (i.toNat % direntSize) 0

/-- A long entry of 13 letters for `A.TXT`. -/
def fullLong (ord : Nat) : List (BitVec 8) :=
  [BitVec.ofNat 8 ord, 97, 0, 97, 0, 97, 0, 97, 0, 97, 0, 0x0F, 0, chkSum (shortA.take 11) 0, 97, 0,
    97, 0, 97, 0, 97, 0, 97, 0, 97, 0, 0, 0, 97, 0, 97, 0]

/-- A directory of one cluster with two sectors: 20 full entries and the short one. -/
def overfullDisk (sec : Nat) : Sector :=
  if sec = 10 then sectorWith fun k => if k < 4 then fullLong (4 - k) else if k = 4 then shortA else []
  else diskWith (sectorWith fun k => fullLong (if k = 0 then 20 ||| 0x40 else 20 - k)) sec

theorem overfullDisk_overrun (dev : Dev) (stop : List (BitVec 8) → Res Bool) :
    (scanClusters wideSb dev (fun sec => lookupEntries wideSb sec stop (fcbPerBlock wideSb + 1)) 2 2
      .start).run overfullDisk = .error .ub := by
  have hall : ((sectorEntries wideSb (overfullDisk 9) ++
      (sectorEntries wideSb (overfullDisk 10)).take 4).all fun x =>
        decide (x.LongNameBool ∧ ¬ Name0FreeAll x.name0)) = true := by decide +kernel
  have hfirst : firstSectorofCluster wideSb 2 = 9 := by decide
  refine scan_overrun (by decide) rfl hfirst rfl (List.take_append_drop 4 _).symm
    (List.cons_ne_nil _ _) (List.cons_ne_nil _ _) ?_ (by decide +kernel) ?_ ?_
  · exact fun x hx => of_decide_eq_true (List.all_eq_true.1 hall x hx)
  · decide +kernel
  · decide +kernel

/-- Both callers go wrong on this directory. -/
theorem popstack_overrun :
    (fat32InodeDirlookup wideSb 2 rootOnly .root nameA).run overfullDisk = .error .ub ∧
      (getdentsScan wideSb 2 blankRoot).run overfullDisk = .error .ub := by
  constructor
  · have hscan : (dirlookupScan wideSb 2 (rootOnly.deref .root).toInode nameA).run overfullDisk =
        .error .ub := by
      unfold dirlookupScan
      rw [if_pos (by decide)]
      exact overfullDisk_overrun _ _
    unfold fat32InodeDirlookup
    rw [Prog.run_bind, hscan]
    rfl
  · have hentries : (fun sec => getdentsEntries wideSb sec (fcbPerBlock wideSb + 1)) =
        fun sec => lookupEntries wideSb sec (fun _ => .ok false) (fcbPerBlock wideSb + 1) :=
      funext fun sec => funext fun xs => funext fun s => getdentsEntries_eq wideSb sec _ xs s
    unfold getdentsScan
    rw [if_pos (by decide), hentries]
    exact overfullDisk_overrun _ _

end Fs
