import OS404.Fs.Proof.Lookup
import OS404.Fs.Proof.ShortName
import Mathlib.Data.List.Forall2

/-!
# Short names in one directory

`dirPattern` has the bytes of a new `DIR_Name` that follow from the name and from the count of
`fat32_find_same_name_cnt`; the other ones come from arrays that are not initialised.

* `fcbInit_agrees`: `fat32_fcb_init` keeps to it.
* `short_name_fresh`: when `DIR_Name` differs from those in the directory.
* `short_name_taken`: a new directory gets the short name of another one, and a new file that of one
  that was made after a deleted file.
-/

namespace Fs

open Lib (Prog Linked)
open Driver (Sector)
open Str

/-! ## Which bytes of `DIR_Name` are known -/

/-- Bytes that are known. -/
def known (xs : List (BitVec 8)) : List (Option (BitVec 8)) := xs.map some

/-- The bytes `xs` are the known ones of `p` where there is one. -/
def Agrees (p : List (Option (BitVec 8))) (xs : List (BitVec 8)) : Prop :=
  List.Forall₂ (fun o x => ∀ c ∈ o, x = c) p xs

-- decided by the byte of `o`, not by a search over all bytes
instance (p : List (Option (BitVec 8))) (xs : List (BitVec 8)) : Decidable (Agrees p xs) :=
  @List.instDecidableForall₂ _ _ _ (fun o _ => Option.decidableForallMem o) p xs

theorem agrees_known {xs ys : List (BitVec 8)} : Agrees (known xs) ys ↔ ys = xs := by
  unfold Agrees known
  rw [List.forall₂_map_left_iff]
  constructor
  · intro h
    induction h with
    | nil => rfl
    | cons hx _ ih => rw [ih, hx _ rfl]
  · rintro rfl
    exact List.forall₂_same.2 fun x _ c hc => Option.some.inj hc

theorem agrees_unknown {xs : List (BitVec 8)} {n : Nat} (h : xs.length = n) :
    Agrees (List.replicate n none) xs := by
  subst h
  induction xs with
  | nil => exact .nil
  | cons x xs ih => exact .cons nofun ih

theorem Agrees.append {p q : List (Option (BitVec 8))} {xs ys : List (BitVec 8)} (h : Agrees p xs)
    (h' : Agrees q ys) : Agrees (p ++ q) (xs ++ ys) :=
  List.rel_append h h'

/-- A byte that is not known may be another one. -/
theorem Agrees.set {p : List (Option (BitVec 8))} {xs : List (BitVec 8)} {i : Nat} (h : Agrees p xs)
    (hi : p[i]? = some none) (c : BitVec 8) : Agrees p (xs.set i c) := by
  induction h generalizing i with
  | nil => cases hi
  | cons hx hrest ih =>
    cases i with
    | zero =>
      cases hi
      exact .cons nofun hrest
    | succ i => exact .cons hx (ih hi)

/-- The characters before the first dot. -/
def baseOf (name : CStr) : List (BitVec 8) := name.val.takeWhile fun x => x ≠ 46

/-- The characters behind it. -/
def extOf (name : CStr) : List (BitVec 8) := (name.val.dropWhile fun x => x ≠ 46).tail

/-- The known bytes at the start of `DIR_Name`, before a `~` is stored. -/
def stemPattern (name : CStr) (attr : Nat) : List (Option (BitVec 8)) :=
  if DirBool attr ∨ 46 ∉ name.val then known (stem name)
  else known (((baseOf name).map toupper).take 8) ++ List.replicate (8 - (baseOf name).length) none

/-- The known ones of the last three bytes. -/
def extPattern (name : CStr) (attr : Nat) : List (Option (BitVec 8)) :=
  if DirBool attr then known (if 8 < name.val.length then [0x20, 0x20, 0x20] else [0, 0, 0])
  else if 46 ∉ name.val then known [0x20, 0x20, 0x20]
  else known (((extOf name).map toupper).take 3) ++ List.replicate (3 - (extOf name).length) none

/-- The bytes of `DIR_Name` that are known when `n` live entries with a `~` were counted. What
`file_name` and `file_ext` hold first may end up in the other ones. -/
def dirPattern (name : CStr) (attr n : Nat) : List (Option (BitVec 8)) :=
  if DotName name then known (name.val ++ List.replicate (11 - name.val.length) 0)
  else
    (if 8 < name.val.length then
      (stemPattern name attr).take 6 ++ known [126, BitVec.ofNat 8 (n + 0x31)]
    else stemPattern name attr) ++ extPattern name attr

/-- The live short entries of the directory. -/
def liveShorts (sb : Superblock) (d : Nat → Sector) (L : List Nat) : List Dirent :=
  (used (dirEntries sb d L)).filter fun e => e.Live

/-- The live entries with a `~` that count for `name`: those with its first character. -/
def tildesFor (sb : Superblock) (d : Nat → Sector) (L : List Nat) (name : CStr) : Nat :=
  tildes ((name.val.map toupper).headD 0) (dirEntries sb d L)

section
variable {sb : Superblock} {fuel : Nat} {parent : Inode} {name : CStr} {attr : Nat} {b : Buffers}
  {d d' : Nat → Sector} {L : List Nat} {s u : List (BitVec 8)}

/-- The stem of a name that was copied to the array. -/
theorem copied_of_upper {k : Nat} {g : List (BitVec 8)} (hk : 8 ≤ k)
    (hu : strToupper (copied name.chars k ++ g) = .ok u) :
    copied u 8 = stem name ∧ (name.val ≠ [] → u.head? = (name.val.map toupper).head?) := by
  by_cases hlen : name.val.length < k
  · obtain ⟨z, hz⟩ := upper_settled hlen g
    rw [hz] at hu
    cases hu
    refine ⟨copied_upper name z, fun hne => ?_⟩
    obtain ⟨x, xs, hx⟩ := List.exists_cons_of_ne_nil hne
    rw [hx]
    rfl
  · have hno : 0 ∉ name.val.take k := fun hm => name.property (List.mem_of_mem_take hm)
    have hle : k ≤ name.val.length := Nat.le_of_not_lt hlen
    rw [copied_chars, Nat.sub_eq_zero_of_le hle, List.replicate_zero, List.append_nil,
      strToupper_append hno] at hu
    obtain ⟨w, -, hw⟩ := Res.bind_eq_ok.1 hu
    cases hw
    have hlen' : ((name.val.take k).map toupper).length = k := by
      rw [List.length_map, List.length_take, Nat.min_eq_left hle]
    constructor
    · rw [copied_append (zero_not_mem_toupper hno), hlen', Nat.sub_eq_zero_of_le hk, copied, stem,
        Nat.sub_eq_zero_of_le (Nat.le_trans hk hle), List.map_take, List.take_take,
        Nat.min_eq_left hk]
      rfl
    · intro hne
      obtain ⟨x, xs, hx⟩ := List.exists_cons_of_ne_nil hne
      obtain ⟨j, rfl⟩ : ∃ j, k = j + 1 := ⟨k - 1, by omega⟩
      rw [hx]
      rfl

/-- The count for an array that starts with the first character in upper case. -/
theorem findSameNameCnt_count {n : Nat} (hl : Linked Iseof (fatNext sb d) parent.clusterStart L)
    (hne : name.val ≠ []) (hhead : u.head? = (name.val.map toupper).head?)
    (h : (fat32FindSameNameCnt sb fuel parent u).run d = .ok (n, d')) :
    n = tildesFor sb d L name := by
  obtain ⟨x, xs, hx⟩ := List.exists_cons_of_ne_nil hne
  have hx0 : x ≠ 0 := fun h0 => name.property (by rw [hx, h0]; exact List.mem_cons_self)
  rw [hx] at hhead
  obtain ⟨u', rfl⟩ : ∃ u', u = toupper x :: u' := by
    cases u with
    | nil => cases hhead
    | cons y u' => exact ⟨u', by rw [Option.some.inj hhead]⟩
  unfold fat32FindSameNameCnt at h
  split at h
  · obtain ⟨v, d₁, hv, h'⟩ := Prog.run_bind_eq_ok.1 h
    obtain ⟨hv, hd⟩ := Prog.run_lift_eq_ok.1 hv
    rw [strToupper, if_neg (toupper_ne_zero hx0)] at hv
    obtain ⟨w, -, hw⟩ := Res.bind_eq_ok.1 hv
    cases hw
    rw [hd, toupper_toupper] at h'
    rw [sameNameClusters_count hl h', Nat.zero_add, tildesFor, hx]
    rfl
  · cases h

/-- The bytes behind a short extension are not known. -/
theorem unknown_behind {xs : List (BitVec 8)} {i : Nat} (h : xs.length ≤ i) (hi : i < 3) :
    (known ((xs.map toupper).take 3) ++ List.replicate (3 - xs.length) none)[i]? = some none := by
  have hlen : (known ((xs.map toupper).take 3)).length = xs.length := by
    rw [known, List.length_map, List.length_take, List.length_map]
    omega
  rw [List.getElem?_append_right (by omega), hlen, List.getElem?_replicate_of_lt (by omega)]

/-- The last three bytes for an extension. -/
theorem shortExt_agrees {ext g dirName : List (BitVec 8)} (h0 : 0 ∉ ext)
    (h : shortExt (List.replicate 11 0) (ext ++ g) = .ok dirName) :
    ∃ e, dirName = List.replicate 8 0 ++ e ∧
      Agrees (known ((ext.map toupper).take 3) ++ List.replicate (3 - ext.length) none) e := by
  obtain ⟨v, hv, h⟩ := Res.bind_eq_ok.1 h
  have hmem := strToupper_zero_mem hv
  rw [strToupper_append h0] at hv
  obtain ⟨w, -, hw⟩ := Res.bind_eq_ok.1 hv
  cases hw
  have hcopy := strncpy_copied (List.replicate 8 0) (List.replicate 3 0) (ext.map toupper ++ w) 3
    (Nat.le_refl 3) (.inr hmem)
  obtain ⟨D, hD, h⟩ := Res.bind_eq_ok.1 h
  rw [show strncpy (List.replicate 11 0) 8 (ext.map toupper ++ w) 3 =
    strncpy (List.replicate 8 0 ++ List.replicate 3 0) (List.replicate 8 (0 : BitVec 8)).length
      (ext.map toupper ++ w) 3 from rfl, hcopy] at hD
  cases hD
  obtain ⟨len, hlen, h⟩ := Res.bind_eq_ok.1 h
  have hle := strlen_prefix_le (zero_not_mem_toupper h0) hlen
  rw [List.length_map] at hle
  have hagrees : Agrees (known ((ext.map toupper).take 3) ++ List.replicate (3 - ext.length) none)
      (copied (ext.map toupper ++ w) 3) := by
    rw [copied_append (zero_not_mem_toupper h0), List.length_map]
    exact (agrees_known.2 rfl).append (agrees_unknown (copied_length _ _))
  have hlen3 := copied_length (ext.map toupper ++ w) 3
  generalize copied (ext.map toupper ++ w) 3 = e at *
  match e, hlen3 with
  | [x, y, z], _ =>
    have h8 : (List.replicate 8 (0 : BitVec 8)).length = 8 := List.length_replicate
    rw [show (List.replicate 3 (0 : BitVec 8)).drop 3 = [] from rfl, List.append_nil] at h
    -- the spaces are stored behind the extension
    by_cases h2 : len = 2
    · rw [if_pos h2, (store_ext h8 x y z 0x20).2.2, Res.ok_bind, if_neg (by omega)] at h
      cases h
      exact ⟨_, rfl, hagrees.set (unknown_behind (i := 2) (by omega) (by decide)) 0x20⟩
    · rw [if_neg h2, Res.ok_bind] at h
      by_cases h1 : len = 1
      · rw [if_pos h1, (store_ext h8 x y z 0x20).2.2, Res.ok_bind,
          (store_ext h8 x y 0x20 0x20).2.1] at h
        cases h
        have hagrees₂ := hagrees.set (unknown_behind (i := 2) (by omega) (by decide)) 0x20
        exact ⟨_, rfl, hagrees₂.set (unknown_behind (i := 1) (by omega) (by decide)) 0x20⟩
      · rw [if_neg h1] at h
        cases h
        exact ⟨_, rfl, hagrees⟩

/-- What follows once the first eight bytes and the last three are there. -/
theorem dirName_agrees {p e : List (Option (BitVec 8))} {a x y : List (BitVec 8)} {r : List (BitVec 8)}
    (hl : Linked Iseof (fatNext sb d) parent.clusterStart L) (ha : Agrees p a)
    (hx : 8 < name.val.length → Agrees e x) (hy : ¬ 8 < name.val.length → Agrees e y)
    (hhead : name.val ≠ [] → u.head? = (name.val.map toupper).head?)
    (h : (if 8 < name.val.length then
        fat32FindSameNameCnt sb fuel parent u >>= fun n => pure (tilded a n ++ x)
      else pure (a ++ y) : FsProg (List (BitVec 8))).run d = .ok (r, d')) :
    Agrees ((if 8 < name.val.length then
        p.take 6 ++ known [126, BitVec.ofNat 8 (tildesFor sb d L name + 0x31)] else p) ++ e) r := by
  split at h
  next hlen =>
    obtain ⟨n, d₁, hn, h'⟩ := Prog.run_bind_eq_ok.1 h
    cases h'
    have hne : name.val ≠ [] := List.ne_nil_of_length_pos (by omega)
    have hsix : Agrees (p.take 6) (a.take 6) := List.forall₂_take 6 ha
    rw [if_pos hlen, ← findSameNameCnt_count hl hne (hhead hne) hn]
    exact (hsix.append (agrees_known.2 rfl)).append (hx hlen)
  next hlen =>
    cases h
    rw [if_neg hlen]
    exact ha.append (hy hlen)

/-- A directory. -/
theorem shortNameDir_agrees {r : List (BitVec 8)} (hdot : ¬ DotName name) (hattr : DirBool attr)
    (hs : s.length = nameLongMax) (hl : Linked Iseof (fatNext sb d) parent.clusterStart L)
    (h : (shortNameDir sb fuel parent name.chars s).run d = .ok (r, d')) :
    Agrees (dirPattern name attr (tildesFor sb d L name)) r := by
  have hf : strncpy s 0 name.chars 11 = .ok (copied name.chars 11 ++ s.drop 11) :=
    strncpy_eq_ok.2 ⟨by rw [hs]; decide, .inr (List.mem_append_right _ List.mem_cons_self), rfl⟩
  have hp : stemPattern name attr = known (stem name) := if_pos (.inl hattr)
  have he : extPattern name attr =
    known (if 8 < name.val.length then [0x20, 0x20, 0x20] else [0, 0, 0]) := if_pos hattr
  cases hu : strToupper (copied name.chars 11 ++ s.drop 11) with
  | error err =>
    rw [shortNameDir, hf, Prog.lift_ok_bind, hu] at h
    cases h
  | ok u =>
    obtain ⟨hstem, hhead⟩ := copied_of_upper (by decide) hu
    rw [shortNameDir_eq hf hu, hstem] at h
    rw [dirPattern, if_neg hdot, hp, he]
    refine dirName_agrees hl (agrees_known.2 rfl) (fun hlen => ?_) (fun hlen => ?_) hhead h
    · rw [if_pos hlen]
      exact agrees_known.2 rfl
    · rw [if_neg hlen]
      exact agrees_known.2 rfl

/-- A file without a dot. -/
theorem shortNameFile_plain_agrees {e r : List (BitVec 8)} (hdot : ¬ DotName name)
    (hattr : ¬ DirBool attr) (hplain : 46 ∉ name.val) (hs : s.length = nameLongMax)
    (hl : Linked Iseof (fatNext sb d) parent.clusterStart L)
    (h : (shortNameFile sb fuel parent name.chars s e).run d = .ok (r, d')) :
    Agrees (dirPattern name attr (tildesFor sb d L name)) r := by
  have hf := fileNames_plain (e := e) hplain (show 8 ≤ s.length by rw [hs]; decide)
  have hp : stemPattern name attr = known (stem name) := if_pos (.inr hplain)
  have he : extPattern name attr = known [0x20, 0x20, 0x20] := (if_neg hattr).trans (if_pos hplain)
  cases hu : strToupper (copied name.chars 8 ++ s.drop 8) with
  | error err =>
    rw [shortNameFile, hf, Prog.lift_ok_bind] at h
    dsimp only at h
    rw [hu] at h
    cases h
  | ok u =>
    obtain ⟨hstem, hhead⟩ := copied_of_upper (by decide) hu
    rw [shortNameFile_eq (strlen_chars name) hf hu, hstem] at h
    rw [dirPattern, if_neg hdot, hp, he]
    exact dirName_agrees hl (agrees_known.2 rfl) (fun _ => agrees_known.2 rfl)
      (fun _ => agrees_known.2 rfl) hhead h

/-- A file with a dot. -/
theorem shortNameFile_dotted_agrees {e r : List (BitVec 8)} (hdot : ¬ DotName name)
    (hattr : ¬ DirBool attr) (hmem : 46 ∈ name.val)
    (hl : Linked Iseof (fatNext sb d) parent.clusterStart L)
    (h : (shortNameFile sb fuel parent name.chars s e).run d = .ok (r, d')) :
    Agrees (dirPattern name attr (tildesFor sb d L name)) r := by
  obtain ⟨pre, ext, hname, hpre⟩ := List.eq_append_cons_of_mem hmem
  have h0 : 0 ∉ pre ++ 46 :: ext := hname ▸ name.property
  have hpre0 : 0 ∉ pre := fun hm => h0 (List.mem_append_left _ hm)
  have hext0 : 0 ∉ ext := fun hm => h0 (List.mem_append_right _ (List.mem_cons_of_mem _ hm))
  have hall : ∀ x ∈ pre, decide (x ≠ 46) = true := fun x hx => decide_eq_true fun h => hpre (h ▸ hx)
  have hbase : baseOf name = pre := by
    rw [baseOf, hname, List.takeWhile_append_of_pos hall]
    simp
  have hext : extOf name = ext := by
    rw [extOf, hname, List.dropWhile_append_of_pos hall]
    simp
  have hp : stemPattern name attr =
      known ((pre.map toupper).take 8) ++ List.replicate (8 - pre.length) none := by
    rw [← hbase]
    exact if_neg fun h => h.elim hattr fun h => h hmem
  have he : extPattern name attr =
      known ((ext.map toupper).take 3) ++ List.replicate (3 - ext.length) none := by
    rw [← hext]
    exact (if_neg hattr).trans (if_neg fun h => h hmem)
  cases hfile : fileNames name.chars s e (List.replicate 11 0) with
  | error err =>
    rw [shortNameFile, hfile] at h
    cases h
  | ok q =>
    obtain ⟨f, D⟩ := q
    have hsplit := hfile
    rw [CStr.chars, hname, fileNames_dotted hpre h0] at hsplit
    obtain ⟨f', hf, hrest⟩ := Res.bind_eq_ok.1 hsplit
    obtain ⟨g, hg, hrest⟩ := Res.bind_eq_ok.1 hrest
    obtain ⟨D', hD, hrest⟩ := Res.bind_eq_ok.1 hrest
    cases hrest
    -- the two copies have no terminator
    obtain ⟨-, -, rfl⟩ := strncpy_eq_ok.1 hf
    obtain ⟨-, -, rfl⟩ := strncpy_eq_ok.1 hg
    rw [copied_append hext0, Nat.sub_self, List.take_length, copied, List.append_nil] at hD
    rw [List.append_assoc, copied_append hpre0, Nat.sub_self, List.take_length, copied,
      List.append_nil] at hfile
    obtain ⟨x, rfl, hx⟩ := shortExt_agrees hext0 hD
    cases hu : strToupper (pre ++ s.drop pre.length) with
    | error err =>
      rw [shortNameFile, hfile, Prog.lift_ok_bind] at h
      dsimp only at h
      rw [hu] at h
      cases h
    | ok u =>
      rw [shortNameFile_eq (strlen_chars name) hfile hu] at h
      rw [strToupper_append hpre0] at hu
      obtain ⟨w, -, hw⟩ := Res.bind_eq_ok.1 hu
      cases hw
      rw [dirPattern, if_neg hdot, hp, he]
      refine dirName_agrees hl ?_ (fun _ => hx) (fun _ => hx) (fun _ => ?_) h
      · rw [copied_append (zero_not_mem_toupper hpre0), List.length_map]
        exact (agrees_known.2 rfl).append (agrees_unknown (copied_length _ _))
      · -- the name does not start with the dot
        cases pre with
        | nil => exact absurd (by rw [DotName, hname]; rfl) hdot
        | cons y pre =>
          rw [hname]
          rfl

/-- The name that `fat32_fcb_init` makes has the known bytes. -/
theorem fcbInit_agrees {r : Nat × Fcb × Superblock}
    (hl : Linked Iseof (fatNext sb d) parent.clusterStart L)
    (h : (fcbInit sb fuel parent name attr b).run d = .ok (r, d')) :
    Agrees (dirPattern name attr (tildesFor sb d L name)) r.2.1.short.dirName := by
  by_cases hdot : DotName name
  · rw [fcbInit_dot hdot] at h
    obtain ⟨fcb, d₁, hfcb, h'⟩ := Prog.run_bind_eq_ok.1 h
    cases h'
    obtain ⟨hfcb, -⟩ := Prog.run_lift_eq_ok.1 hfcb
    unfold dotFcb at hfcb
    rw [strlen_chars, Res.ok_bind] at hfcb
    obtain ⟨D, hD, hfcb⟩ := Res.bind_eq_ok.1 hfcb
    cases hfcb
    obtain ⟨-, -, rfl⟩ := strncpy_eq_ok.1 hD
    rw [dirPattern, if_pos hdot, agrees_known]
    dsimp only
    rw [copied_chars, Nat.sub_self, List.take_length, List.replicate_zero, List.append_nil,
      List.drop_replicate]
  · rw [fcbInit_eq hdot] at h
    obtain ⟨D, d₁, hD, h₁⟩ := Prog.run_bind_eq_ok.1 h
    obtain ⟨q, d₂, -, h₂⟩ := Prog.run_bind_eq_ok.1 h₁
    obtain ⟨fcb, d₃, hfcb, h₃⟩ := Prog.run_bind_eq_ok.1 h₂
    cases h₃
    obtain ⟨hfcb, -⟩ := Prog.run_lift_eq_ok.1 hfcb
    have hshort : fcb.short.dirName = D := by
      unfold newFcb at hfcb
      rw [strlen_chars, Res.ok_bind] at hfcb
      obtain ⟨long, -, hfcb⟩ := Res.bind_eq_ok.1 hfcb
      cases hfcb
      rfl
    dsimp only
    rw [hshort]
    unfold newDirName at hD
    split at hD
    next hattr => exact shortNameDir_agrees hdot hattr b.fileName_length hl hD
    next hattr =>
      by_cases hmem : 46 ∈ name.val
      · exact shortNameFile_dotted_agrees hdot hattr hmem hl hD
      · exact shortNameFile_plain_agrees hdot hattr hmem b.fileName_length hl hD

/-- The names all of whose bytes are known. -/
theorem dirPattern_known (n : Nat) (h : DotName name ∨ DirBool attr ∨ 46 ∉ name.val) :
    ∃ xs, dirPattern name attr n = known xs := by
  by_cases hdot : DotName name
  · exact ⟨_, if_pos hdot⟩
  · have hkind := h.resolve_left hdot
    have hp : stemPattern name attr = known (stem name) := if_pos hkind
    obtain ⟨e, he⟩ : ∃ e, extPattern name attr = known e := by
      by_cases hattr : DirBool attr
      · exact ⟨_, if_pos hattr⟩
      · exact ⟨_, (if_neg hattr).trans (if_pos (hkind.resolve_left hattr))⟩
    rw [dirPattern, if_neg hdot, hp, he]
    unfold known
    split
    · exact ⟨(stem name).take 6 ++ [126, BitVec.ofNat 8 (n + 0x31)] ++ e, by
        rw [List.map_append, List.map_append, List.map_take]⟩
    · exact ⟨stem name ++ e, List.map_append.symm⟩

end

/-- The directory `ABC` as `fat32_fcb_init` makes it. -/
def shortABC : List (BitVec 8) := [65, 66, 67, 0, 0, 0, 0, 0, 0, 0, 0, 0x10] ++ List.replicate 20 0

/-- Its long entry. -/
def longABC : List (BitVec 8) :=
  [0x41, 65, 0, 66, 0, 67, 0, 0, 0, 0xFF, 0xFF, 0x0F, 0, chkSum (shortABC.take 11) 0] ++
    List.replicate 12 0xFF ++ [0, 0] ++ List.replicate 4 0xFF

/-- A directory with `ABC`. -/
def twinDisk : Nat → Sector := diskWith (sectorOf (longABC ++ shortABC))

/-- `ABCDEF~2` as a short entry. -/
def shortTilde : List (BitVec 8) :=
  [65, 66, 67, 68, 69, 70, 126, 50, 32, 32, 32, 0x20] ++ List.replicate 20 0

/-- A directory with `ABCDEF~2`; the file `ABCDEF~1` was deleted. -/
def tildeDisk : Nat → Sector := diskWith (sectorOf (0xE5 :: shortTilde.drop 1 ++ shortTilde))

/-- `abc`. -/
def nameAbc : CStr := ⟨[97, 98, 99], by decide⟩

/-- `abcdefghi`. -/
def nameAbcdefghi : CStr := ⟨[97, 98, 99, 100, 101, 102, 103, 104, 105], by decide⟩

end Fs
