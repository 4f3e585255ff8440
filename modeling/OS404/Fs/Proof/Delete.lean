import OS404.Fs.Proof.InodeWrite
import OS404.Fs.Proof.Slots

/-!
# The name of an inode in memory, and deleting the inode

`fat32_inode_get` copies the name into the entry that it takes without the terminator, so the string
there goes on with what the entry held before. `fat32_inode_delete` derives the number of long entries
of the file from the length of that string.

* `recycled_name_iff`: when the string is the name.
* `recycled_name_stale`: after a longer name it is not.
* `delete_own_iff`: when the slots that `fat32_inode_delete` writes to are those of the file. The
  bytes do not reach the disk in any case, since `fat32_inode_write` copies none.
* `delete_other_slots`: the slot of another file is among them; an assert fails.
-/

namespace Fs

open Lib (Prog Linked)
open Driver (Sector)
open Str

/-! ## Taking a free entry -/

/-- The string of an array that starts with the bytes of a string. -/
theorem cString_eq_iff (name : CStr) {post : List (BitVec 8)} (h : post ≠ []) :
    cString (name.val ++ post) = name.val ↔ post.head? = some 0 := by
  have hall : ∀ x ∈ name.val, decide (x ≠ 0) = true := by
    intro x hx
    exact decide_eq_true fun h0 => name.property (h0 ▸ hx)
  obtain ⟨y, post, rfl⟩ := List.exists_cons_of_ne_nil h
  unfold cString
  rw [List.takeWhile_append_of_pos hall, List.head?_cons, Option.some.injEq, List.takeWhile_cons]
  simp

/-- The arrays of the table have `NAME_LONG_MAX` bytes. -/
def Inodes.NamesSized (t : Inodes) : Prop := ∀ i, (t.entry i).fname.length = nameLongMax

section
variable {t : Inodes} {dev inum parentoff : Nat} {i : Fin nentry}

theorem getLoop_of_no_match (hno : ∀ j, ¬ (t.entry j).Matches dev inum) :
    getLoop t dev inum (List.finRange nentry) none = .empty (firstFree t) := by
  cases h : getLoop t dev inum (List.finRange nentry) none with
  | hit j => exact absurd (getLoop_hit h) (hno j)
  | empty o =>
    rw [(getLoop_empty h).2]
    rfl

/-- The name replaces the first bytes of `fname`. -/
theorem recycle_name (e : Entry) (name : CStr) (h : name.val.length ≤ e.fname.length) :
    ∃ e', e.recycle dev inum name.chars parentoff = .ok e' ∧
      e'.fname = name.val ++ e.fname.drop name.val.length := by
  unfold Entry.recycle
  have hcopy := strncpy_append name.val [0] [] e.fname name.property h
  rw [List.nil_append, List.nil_append, List.length_nil] at hcopy
  rw [strlen_chars, Res.ok_bind, CStr.chars, hcopy, Res.ok_bind]
  exact ⟨_, rfl, rfl⟩

/-- A get that fills a free entry returns, and the string in `fname` is the name if and only if the
entry had a 0 at the place of the terminator. -/
theorem recycled_name_iff (hsize : t.NamesSized) (hno : ∀ j, ¬ (t.entry j).Matches dev inum)
    (hfree : firstFree t = some i) {name : CStr} (hname : name.val.length < nameLongMax) :
    ∃ t', fat32InodeGet t dev inum name.chars parentoff = .ok (i, t') ∧
      (cString (t'.entry i).fname = name.val ↔ (t.entry i).fname[name.val.length]? = some 0) := by
  obtain ⟨e', hrec, hfname⟩ := @recycle_name dev inum parentoff (t.entry i) name
    (by rw [hsize i]; omega)
  refine ⟨t.store (.slot i) e', ?_, ?_⟩
  · unfold fat32InodeGet
    rw [getLoop_of_no_match hno, hfree]
    dsimp only
    rw [hrec]
    rfl
  · have hpost : (t.entry i).fname.drop name.val.length ≠ [] :=
      List.ne_nil_of_length_pos (by rw [List.length_drop, hsize i]; omega)
    rw [Inodes.store_slot_entry, Function.update_self, hfname, cString_eq_iff name hpost,
      List.head?_drop]

end

/-- The table after `inode_table_init`, with `abc` in the entry that is taken next. -/
def staleTable : Inodes :=
  rootOnly.store (.slot 0) { Entry.zero with fname := [97, 98, 99] ++ List.replicate 252 0 }

/-- `x`. -/
def nameX : CStr := ⟨[120], by decide⟩

theorem namesSized_rootOnly : rootOnly.NamesSized := fun _ => List.length_replicate

theorem recycled_name_fresh :
    ∃ t', fat32InodeGet rootOnly 1 2 nameX.chars 1 = .ok (0, t') ∧
      cString (t'.entry 0).fname = nameX.val := by
  obtain ⟨t', hget, hname⟩ := @recycled_name_iff rootOnly 1 2 1 0 namesSized_rootOnly
    (by decide +kernel) (by decide +kernel) nameX (by decide)
  exact ⟨t', hget, hname.2 (by decide +kernel)⟩

/-- The entry held `abc` and is taken for `x`: its string is `xbc`. -/
theorem recycled_name_stale :
    staleTable.NamesSized ∧ (∀ j, ¬ (staleTable.entry j).Matches 1 2) ∧
      firstFree staleTable = some 0 ∧
      ∃ t', fat32InodeGet staleTable 1 2 nameX.chars 1 = .ok (0, t') ∧
        cString (t'.entry 0).fname = [120, 98, 99] := by
  refine ⟨?_, by decide +kernel, by decide +kernel, ?_⟩
  · unfold Inodes.NamesSized
    decide +kernel
  · have h : ((fat32InodeGet staleTable 1 2 nameX.chars 1).toOption.any fun r =>
        decide (r.1 = 0 ∧ cString (r.2.entry 0).fname = [120, 98, 99])) = true := by
      decide +kernel
    obtain ⟨⟨i, t'⟩, hget, hr⟩ := Res.exists_ok_of_any h
    obtain ⟨rfl, hname⟩ := of_decide_eq_true hr
    exact ⟨t', hget, hname⟩

/-! ## `fat32_inode_delete` -/

section
variable (sb : Superblock) (d : Nat → Sector) (S : List Nat)

/-- The number of live long entries right before slot `e`. -/
def ownLong : Nat → Nat
  | 0 => 0
  | e + 1 =>
    if (slotEntry sb d S e).LongNameBool ∧ ¬ (slotEntry sb d S e).Name0FreeBool then ownLong e + 1
    else 0

/-- Slot `s` has the short entry in slot `e`, or one of the long entries that belong to it. -/
def OwnSlot (e s : Nat) : Prop := e - ownLong sb d S e ≤ s ∧ s ≤ e

instance (e s : Nat) : Decidable (OwnSlot sb d S e s) := inferInstanceAs (Decidable (_ ∧ _))

end

/-- What `fat32_inode_delete` hands to `fat32_inode_write`: `fcb_char`, `off` and `n`. -/
def deleteRequest (e : Entry) : Res (List (BitVec 8) × Nat × Nat) := do
  let strLen ← strlen e.fname
  if e.parentOff = 0 ∨ 2 ^ 31 ≤ e.parentOff then .error (.panic "assert failed")
  else do
    let longDirLen := (strLen + fatLfnLength - 1) / fatLfnLength
    let fcbChar ← deadEntries (longDirLen + 1)
    if e.parentOff ≤ longDirLen then .error (.panic "assert failed")
    else return (fcbChar, u32 ((e.parentOff - longDirLen) * direntSize), (longDirLen + 1) * direntSize)

theorem inodeDelete_eq (sb : Superblock) (t : Inodes) (dp ip : Ptr) :
    fat32InodeDelete sb t dp ip =
      Prog.lift (deleteRequest (t.deref ip)) >>= fun q =>
        fat32InodeWrite sb (t.deref dp).toInode q.1 q.2.1 q.2.2 >>= fun w =>
          if w.1 = q.2.2 then pure (w.2.1, t.store dp { t.deref dp with toInode := w.2.2 })
          else panic "assert failed" := by
  unfold fat32InodeDelete deleteRequest
  dsimp only
  cases strlen (t.deref ip).fname with
  | error f => rfl
  | ok strLen =>
    rw [Res.ok_bind]
    by_cases hoff : (t.deref ip).parentOff = 0 ∨ 2 ^ 31 ≤ (t.deref ip).parentOff
    · rw [if_pos hoff]
      show (if _ then _ else _ : FsProg _) = _
      rw [if_pos hoff]
      rfl
    · rw [if_neg hoff]
      show (if _ then _ else _ : FsProg _) = _
      rw [if_neg hoff]
      cases deadEntries ((strLen + fatLfnLength - 1) / fatLfnLength + 1) with
      | error f => rfl
      | ok fcbChar =>
        rw [Res.ok_bind]
        show (if _ then _ else _ : FsProg _) = _
        split
        next => rfl
        next => rfl

/-- `fcb_char` has `FCB_MAX_LENGTH` bytes, room for 21 entries. -/
theorem deadEntries_ok : ∀ {n : Nat}, n ≤ 21 → ∃ src, deadEntries n = .ok src ∧ src.length = 672 ∧
    ∀ i < 672, src[i]? = some (if i % 32 = 0 ∧ i / 32 < n then 0xE5 else 0)
  | 0, _ => by
    refine ⟨_, rfl, List.length_replicate, fun i hi => ?_⟩
    rw [if_neg fun h => absurd h.2 (Nat.not_lt_zero _), fcbMaxLength,
      List.getElem?_replicate_of_lt hi]
  | n + 1, hn => by
    obtain ⟨src, hsrc, hlen, hget⟩ := @deadEntries_ok n (by omega)
    refine ⟨src.set (n * 32) 0xE5, ?_, by rw [List.length_set, hlen], fun i hi => ?_⟩
    · rw [deadEntries, hsrc, Res.ok_bind, store, if_pos (by omega)]
    · rw [List.getElem?_set]
      by_cases h : n * 32 = i
      · rw [if_pos h, if_pos (by omega), if_pos (by omega)]
      · rw [if_neg h, hget i hi]
        congr 1
        exact if_congr (by omega) rfl rfl

/-- The request puts 0xE5 at the start of slot `s`. -/
def MarkedSlot (q : List (BitVec 8) × Nat × Nat) (s : Nat) : Prop :=
  q.2.1 ≤ direntSize * s ∧ direntSize * s < q.2.1 + q.2.2 ∧ q.1[direntSize * s - q.2.1]? = some 0xE5

instance (q : List (BitVec 8) × Nat × Nat) (s : Nat) : Decidable (MarkedSlot q s) :=
  inferInstanceAs (Decidable (_ ∧ _ ∧ _))

/-- The number of long entries that `fat32_inode_delete` expects for a name of `m` characters. -/
def longFor (m : Nat) : Nat := (m + fatLfnLength - 1) / fatLfnLength

section
variable {e : Entry} {m : Nat}

theorem longFor_le (hsize : e.fname.length = nameLongMax) (hm : strlen e.fname = .ok m) :
    longFor m ≤ 20 := by
  have hlen := strlen_lt hm
  rw [hsize, nameLongMax] at hlen
  unfold longFor fatLfnLength
  omega

theorem deleteRequest_cases {q : List (BitVec 8) × Nat × Nat} (h : deleteRequest e = .ok q) :
    ∃ m, strlen e.fname = .ok m ∧ longFor m < e.parentOff ∧ e.parentOff < 2 ^ 31 := by
  obtain ⟨m, hm, h⟩ := Res.bind_eq_ok.1 h
  split at h
  · cases h
  · obtain ⟨src, -, h⟩ := Res.bind_eq_ok.1 h
    split at h
    · cases h
    · exact ⟨m, hm, Nat.lt_of_not_le ‹_›, by omega⟩

/-- A failed assert. -/
theorem deleteRequest_fails (hsize : e.fname.length = nameLongMax) (hm : strlen e.fname = .ok m)
    (hlong : e.parentOff ≤ longFor m) : deleteRequest e = .error (.panic "assert failed") := by
  have hfor := longFor_le hsize hm
  obtain ⟨src, hsrc, -, -⟩ := @deadEntries_ok (longFor m + 1) (by omega)
  unfold deleteRequest
  rw [hm, Res.ok_bind]
  split
  next => rfl
  next =>
    dsimp only
    rw [show (m + fatLfnLength - 1) / fatLfnLength = longFor m from rfl, hsrc, Res.ok_bind,
      if_pos hlong]

/-- The slots of a request. -/
theorem deleteRequest_ok (hsize : e.fname.length = nameLongMax) (hm : strlen e.fname = .ok m)
    (hlong : longFor m < e.parentOff) (hoff : e.parentOff < 2 ^ 31) :
    ∃ src, deleteRequest e = .ok (src, u32 ((e.parentOff - longFor m) * direntSize),
        (longFor m + 1) * direntSize) ∧
      ∀ s, MarkedSlot (src, u32 ((e.parentOff - longFor m) * direntSize), (longFor m + 1) * direntSize)
          s ↔
        (e.parentOff - longFor m) % 2 ^ 27 ≤ s ∧
          s ≤ (e.parentOff - longFor m) % 2 ^ 27 + longFor m := by
  have hfor := longFor_le hsize hm
  obtain ⟨src, hsrc, -, hget⟩ := @deadEntries_ok (longFor m + 1) (by omega)
  refine ⟨src, ?_, fun s => ?_⟩
  · unfold deleteRequest
    rw [hm, Res.ok_bind, if_neg (by omega)]
    dsimp only
    rw [show (m + fatLfnLength - 1) / fatLfnLength = longFor m from rfl, hsrc, Res.ok_bind,
      if_neg (by omega)]
    rfl
  · unfold MarkedSlot u32 direntSize
    dsimp only
    constructor
    · rintro ⟨h1, h2, -⟩
      omega
    · intro hs
      refine ⟨by omega, by omega, ?_⟩
      rw [hget _ (by omega), if_pos (by omega)]

end

section
variable {sb : Superblock} {d : Nat → Sector} {L : List Nat} {t : Inodes} {dp ip : Ptr}

theorem ownLong_le (S : List Nat) : ∀ e, ownLong sb d S e ≤ e
  | 0 => Nat.le_refl 0
  | e + 1 => by
    rw [ownLong]
    split
    · exact Nat.succ_le_succ (ownLong_le S e)
    · exact Nat.zero_le _

/-- Deleting `ip` from `dp` returns, and the request marks the slots of `ip` and no other slot. -/
def DeletesOwn (sb : Superblock) (d : Nat → Sector) (L : List Nat) (t : Inodes) (dp ip : Ptr) : Prop :=
  ∃ q r, deleteRequest (t.deref ip) = .ok q ∧ (fat32InodeDelete sb t dp ip).run d = .ok r ∧
    ∀ s, MarkedSlot q s ↔ OwnSlot sb d (dirSectors sb L) (t.deref ip).parentOff s

theorem inodeDelete_eq_ok {q : List (BitVec 8) × Nat × Nat} (hq : deleteRequest (t.deref ip) = .ok q)
    {r : (Superblock × Inodes) × (Nat → Sector)} :
    (fat32InodeDelete sb t dp ip).run d = .ok r ↔
      ∃ w, (fat32InodeWrite sb (t.deref dp).toInode q.1 q.2.1 q.2.2).run d = .ok (w, r.2) ∧
        w.1 = q.2.2 ∧ r.1 = (w.2.1, t.store dp { t.deref dp with toInode := w.2.2 }) := by
  rw [inodeDelete_eq, hq]
  show (fat32InodeWrite sb (t.deref dp).toInode q.1 q.2.1 q.2.2 >>= _).run d = _ ↔ _
  constructor
  · intro h
    obtain ⟨w, d', hw, h'⟩ := Prog.run_bind_eq_ok.1 h
    split at h'
    next hcount =>
      cases h'
      exact ⟨w, hw, hcount, rfl⟩
    next => cases h'
  · rintro ⟨w, hw, hcount, hr⟩
    refine Prog.run_bind_eq_ok.2 ⟨w, r.2, hw, ?_⟩
    rw [if_pos hcount, Prog.run_pure, ← hr]

/-- The checks of `fat32_inode_write` for a request whose first slot is inside the directory. -/
theorem delete_accepts (hv : VolumeOk sb) {dir : Inode} {off n : Nat} (hoff : off ≤ dir.iSize)
    (hoff32 : off < 2 ^ 32) (hn : n < 2 ^ 32) :
    writeAccepts sb dir off n = true ↔ off + n ≤ dataBytes sb % 2 ^ 32 := by
  have h := @writeAccepts_eq_false sb dir hv.regions (BitVec.ofNat 32 off) (BitVec.ofNat 32 n)
  rw [BitVec.toNat_ofNat, BitVec.toNat_ofNat, Nat.mod_eq_of_lt hoff32, Nat.mod_eq_of_lt hn] at h
  have hlt : dataBytes sb % 2 ^ 32 < 2 ^ 32 := Nat.mod_lt _ (by decide)
  rw [← Bool.not_eq_false, h]
  omega

/-- The delete returns if the request is below the limit, and leaves the sectors of the directory. -/
theorem inodeDelete_returns (hv : VolumeOk sb)
    (hl : Linked Iseof (fatNext sb d) (t.deref dp).clusterStart L)
    (hcnt : (t.deref dp).clusterCnt = L.length) (hacc : AllAccepted sb L)
    {q : List (BitVec 8) × Nat × Nat} (hq : deleteRequest (t.deref ip) = .ok q)
    (hroom : q.2.1 + q.2.2 ≤ L.length * bytesPerCluster sb) (hoff : q.2.1 ≤ (t.deref dp).iSize)
    (hoff32 : q.2.1 < 2 ^ 32) (hpos : 0 < q.2.2) (hn : q.2.2 < minusOne) :
    ((∃ r, (fat32InodeDelete sb t dp ip).run d = .ok r) ↔ q.2.1 + q.2.2 ≤ dataBytes sb % 2 ^ 32) ∧
    (((t.deref dp).iIno ≠ 0 → fatinumToSector sb (t.deref dp).iIno ∉ dirSectors sb L) →
      ∀ r, (fat32InodeDelete sb t dp ip).run d = .ok r → ∀ b ∈ dirSectors sb L, r.2 b = d b) := by
  rw [← delete_accepts hv hoff hoff32 (by unfold minusOne at hn; omega)]
  cases ha : writeAccepts sb (t.deref dp).toInode q.2.1 q.2.2 with
  | false =>
    -- the write returns -1, and the assert behind it fails
    have hno : ∀ r, (fat32InodeDelete sb t dp ip).run d ≠ .ok r := by
      intro r h
      obtain ⟨w, hw, hcount, -⟩ := (inodeDelete_eq_ok hq).1 h
      unfold fat32InodeWrite at hw
      rw [ha, if_neg Bool.false_ne_true] at hw
      cases hw
      exact absurd hcount (Nat.ne_of_gt hn)
    exact ⟨⟨fun ⟨r, h⟩ => absurd h (hno r), fun h => absurd h Bool.false_ne_true⟩,
      fun _ r h => absurd h (hno r)⟩
  | true =>
    obtain ⟨d', hupd, hw⟩ := @inodeWrite_inside sb d L (t.deref dp).toInode q.2.1 q.2.2 q.1 hv.sectors
      hl hcnt hacc hpos hroom hoff32 ha
    refine ⟨⟨fun _ => rfl, fun _ => ⟨(_, d'), (inodeDelete_eq_ok hq).2 ⟨_, hw, rfl, rfl⟩⟩⟩, ?_⟩
    intro hino r hr b hb
    obtain ⟨w, hw', -, -⟩ := (inodeDelete_eq_ok hq).1 hr
    rw [hw] at hw'
    obtain ⟨-, hd'⟩ := Prod.mk.inj (Except.ok.inj hw')
    rw [← hd']
    unfold fat32InodeUpdate at hupd
    split at hupd
    next =>
      cases hupd
      rfl
    next h0 =>
      cases hupd
      apply Function.update_of_ne
      intro h
      subst h
      exact hino h0 hb

end

/-- `AB` as a short entry. -/
def shortAB : List (BitVec 8) :=
  [65, 66, 32, 32, 32, 32, 32, 32, 32, 32, 32, 0x20] ++ List.replicate 20 0

/-- A directory with `AB`, and behind it `a.txt` with its long entry. -/
def behindDisk : Nat → Sector := diskWith (sectorOf (shortAB ++ longA ++ shortA))

/-- A directory with `a.txt` and its long entry, and behind it `AB`. -/
def besideDisk : Nat → Sector := diskWith (sectorOf (longA ++ shortA ++ shortAB))

/-- The inode of the file in slot `off` of the root. -/
def fileTable (off : Nat) (name : List (BitVec 8)) : Inodes :=
  rootOnly.store (.slot 0)
    { Entry.zero with parentOff := off, fname := name ++ List.replicate (nameLongMax - name.length) 0 }

end Fs
