import OS404.Fs.Path
import OS404.Fs.Proof.Table
import OS404.Fs.Proof.Dir
import OS404.Lib.Links

/-!
# The parents of the inodes in the table

Runs of the functions that look inodes up, with the directory in which each entry was found
(`home`). `inode_namex` and `fat32_getdents` get one inode after the other and drop the one before,
so they are taken one get at a time. An inode is needed when it is in use or the parent of a needed
one.

* `lock_alike`, `Linked.dup`, `Linked.drop`, `Linked.child`: what each function does to the links
  between the inodes;
* `parents_valid`: in every run in which no get recycles a needed entry, the parent of every inode in
  use is the directory in which it was found.

A walk leaves only its last inode in use, so the next get may recycle the entry of the directory
before it (`parents_valid_lost`).
-/

namespace Fs

open Lib (Prog Run Links)
open Driver (Sector)
open Str

/-! ## What the functions leave alone -/

/-- The identity of an inode. -/
def Entry.ident (e : Entry) : BitVec 8 × Nat := (e.dev, e.iIno)

/-- Entries with the same identity, references, links and parent. -/
structure Entry.Alike (e e' : Entry) : Prop where
  ident : e'.ident = e.ident
  ref : e'.ref = e.ref
  iNlink : e'.iNlink = e.iNlink
  parent : e'.parent = e.parent

theorem Entry.Alike.refl (e : Entry) : e.Alike e := ⟨rfl, rfl, rfl, rfl⟩

section
variable {sb : Superblock} {fuel : Nat} {d d' : Nat → Sector} {t t' : Inodes}

theorem travel_keeps {ip ip' : Inode} {num c : Nat}
    (h : (fat32FatTravel sb fuel ip num).run d = .ok ((c, ip'), d')) :
    d' = d ∧ ∃ last, ip' = { ip with clusterEnd := last } := by
  refine ⟨(readsOnly_travel ip fuel num).run_eq h, ?_⟩
  obtain ⟨⟨iter, cnt, prev⟩, d₁, -, h⟩ := Prog.run_bind_eq_ok.1 h
  dsimp only at h
  split at h
  · cases h
    exact ⟨_, rfl⟩
  · split at h
    · cases h
      exact ⟨ip.clusterEnd, rfl⟩
    · cases h
      exact ⟨ip.clusterEnd, rfl⟩

/-- What is loaded: the fields of the directory entry, and the length and the end of the chain. -/
theorem load_eq {e e' : Entry} (h : (e.load sb fuel).run d = .ok (e', d')) :
    d' = d ∧ ∃ cnt last, e' = Entry.loadRest sb
      { e.loadStart (direntAt (d (fatinumToSector sb e.iIno)) (fatinumToOffset sb e.iIno)) with
        clusterCnt := cnt, clusterEnd := last }
      (direntAt (d (fatinumToSector sb e.iIno)) (fatinumToOffset sb e.iIno)) := by
  unfold Entry.load at h
  obtain ⟨s, d₁, hread, h⟩ := Prog.run_bind_eq_ok.1 h
  cases hread
  obtain ⟨other, d₂, hother, h⟩ := Prog.run_bind_eq_ok.1 h
  have hd₂ : d₂ = d := by
    refine Prog.ReadsOnly.run_eq ?_ hother
    split
    · exact .bind (Prog.readsOnly_lift _) fun _ => Prog.readsOnly_pure _
    · exact Prog.readsOnly_pure _
  subst hd₂
  split at h
  · cases h
  · obtain ⟨e₁, d₃, hwalk, h⟩ := Prog.run_bind_eq_ok.1 h
    generalize direntAt (d₂ (fatinumToSector sb e.iIno)) (fatinumToOffset sb e.iIno) = fcb at *
    have hwalked : d₃ = d₂ ∧ ∃ cnt last, e₁ =
        { e.loadStart fcb with clusterCnt := cnt, clusterEnd := last } := by
      split at hwalk
      · obtain ⟨⟨cnt, ip⟩, d₄, htravel, hwalk⟩ := Prog.run_bind_eq_ok.1 hwalk
        obtain ⟨rfl, last, rfl⟩ := travel_keeps htravel
        cases hwalk
        exact ⟨rfl, cnt, last, rfl⟩
      · cases hwalk
        exact ⟨rfl, _, _, rfl⟩
    obtain ⟨rfl, cnt, last, rfl⟩ := hwalked
    dsimp only at h
    split at h
    · cases h
    · cases h
      exact ⟨rfl, cnt, last, rfl⟩

theorem load_alike {e e' : Entry} (h : (e.load sb fuel).run d = .ok (e', d')) : e.Alike e' := by
  obtain ⟨-, cnt, last, rfl⟩ := load_eq h
  exact ⟨rfl, rfl, rfl, rfl⟩

/-- Locking loads an inode, which changes nothing that is counted or linked. -/
theorem lock_alike {p : Ptr} (h : (fat32InodeLock sb fuel t p).run d = .ok (t', d')) (q : Ptr) :
    (t.deref q).Alike (t'.deref q) := by
  unfold fat32InodeLock at h
  split at h
  · cases h
  · split at h
    · cases h
      exact .refl _
    · obtain ⟨e, d₁, hload, hlast⟩ := Prog.run_bind_eq_ok.1 h
      cases hlast
      rw [Inodes.deref_store]
      split
      case isTrue hq =>
        subst hq
        exact load_alike hload
      case isFalse => exact .refl _

theorem unlockPut_run {sb' : Superblock} {p : Ptr} (hn : (t.deref p).iNlink ≠ 0)
    (h : (fat32InodeUnlockPut sb fuel t p).run d = .ok ((sb', t'), d')) :
    t' = t.store p { t.deref p with ref := (t.deref p).ref - 1 } := by
  obtain ⟨u, d₁, -, hput⟩ := Prog.run_bind_eq_ok.1 h
  exact (fat32InodePut_run (not_deleted_of_iNlink hn) hput).2.2

/-- The child of a directory is in a matching entry, or in the first free one. -/
theorem getChild_cases {p : Ptr} {v : Visit} {name : List (BitVec 8)} {i : Fin nentry}
    (h : getChild t p v name = .ok (i, t')) :
    ∃ e, t' = t.store (.slot i) e ∧ e.parent = some p ∧ e.iNlink ≠ 0 ∧ 0 < e.ref ∧
      (((t.entry i).Matches (t.deref p).dev.toNat v.inum ∧ e.ident = (t.entry i).ident ∧
          e.ref = (t.entry i).ref + 1) ∨
        ((∀ j, ¬ (t.entry j).Matches (t.deref p).dev.toNat v.inum) ∧ firstFree t = some i)) := by
  obtain ⟨⟨j, t₁⟩, hget, hlast⟩ := Res.bind_eq_ok.1 h
  cases hlast
  obtain ⟨hm, rfl⟩ | ⟨hno, hfree, e, hr, rfl⟩ := fat32InodeGet_cases hget
  · refine ⟨_, Inodes.store_store .., rfl, (by decide : (1 : BitVec 16) ≠ 0), ?_, .inl ⟨hm, ?_, ?_⟩⟩
    · simp only [Inodes.store_slot_entry, Function.update_self]
      have := hm.1
      omega
    · simp [Entry.ident]
    · simp
  · refine ⟨_, Inodes.store_store .., rfl, (by decide : (1 : BitVec 16) ≠ 0), ?_, .inr ⟨hno, hfree⟩⟩
    simp [hr.ref]

end

/-! ## The links between the inodes -/

/-- The inode is in use; the root always is. -/
def Inodes.Held (t : Inodes) : Ptr → Prop
  | .root => True
  | .slot i => 0 < (t.entry i).ref

instance (t : Inodes) : ∀ p, Decidable (t.Held p)
  | .root => isTrue trivial
  | .slot i => inferInstanceAs (Decidable (0 < (t.entry i).ref))

/-- The parent pointers of the inodes, with the directories in which they were found. -/
def Inodes.links (t : Inodes) (home : Ptr → BitVec 8 × Nat) : Links Ptr (BitVec 8 × Nat) where
  live := t.Held
  parent p := (t.deref p).parent
  ident p := (t.deref p).ident
  home := home

/-- The parents of the needed inodes are where they were found, and needed inodes have links. -/
structure Inodes.Linked (t : Inodes) (home : Ptr → BitVec 8 × Nat) : Prop where
  attached : (t.links home).Attached
  iNlink : ∀ p, (t.links home).Needed p → (t.deref p).iNlink ≠ 0
  nonneg : ∀ i, 0 ≤ (t.entry i).ref

section
variable {t t' : Inodes} {home : Ptr → BitVec 8 × Nat} {p : Ptr} {e : Entry}

theorem held_of_pos {q : Ptr} (h : 0 < (t.deref q).ref) : t.Held q := by
  cases q with
  | root => trivial
  | slot i => exact h

theorem held_iff_of_ref {q : Ptr} (h : (t'.deref q).ref = (t.deref q).ref) : t'.Held q ↔ t.Held q := by
  cases q with
  | root => exact Iff.rfl
  | slot i =>
    show 0 < (t'.deref (.slot i)).ref ↔ 0 < (t.deref (.slot i)).ref
    rw [h]

/-- A change of loaded data leaves the links. -/
theorem Inodes.Linked.alike (h : t.Linked home) (ha : ∀ q, (t.deref q).Alike (t'.deref q)) :
    t'.Linked home := by
  have hc : Links.Changes (t.links home) (t'.links home) fun _ => False :=
    { live := fun q hq => .inl (.live ((held_iff_of_ref (ha q).ref).1 hq))
      ident := fun q _ => (ha q).ident
      keep := fun q _ => .inl ⟨(ha q).parent, rfl⟩
      given := fun _ hf => hf.elim }
  refine ⟨h.attached.step hc, fun q hq => ?_, fun i => ?_⟩
  · rw [(ha q).iNlink]
    exact h.iNlink q ((hc.needed hq).resolve_right id)
  · exact le_of_le_of_eq (h.nonneg i) (ha (.slot i)).ref.symm

/-- So does a change of the references of an inode that is needed afterwards only when it was. -/
theorem Inodes.Linked.store_ref (h : t.Linked home) {r : Int}
    (hp : 0 < r → (t.links home).Needed p) (hr : ∀ i, p = .slot i → 0 ≤ r) :
    (t.store p { t.deref p with ref := r }).Linked home := by
  have hd : ∀ q, ((t.store p { t.deref p with ref := r }).deref q).ident = (t.deref q).ident ∧
      ((t.store p { t.deref p with ref := r }).deref q).parent = (t.deref q).parent ∧
      ((t.store p { t.deref p with ref := r }).deref q).iNlink = (t.deref q).iNlink := by
    intro q
    rw [Inodes.deref_store]
    split
    case isTrue hq =>
      subst hq
      exact ⟨rfl, rfl, rfl⟩
    case isFalse => exact ⟨rfl, rfl, rfl⟩
  have hc : Links.Changes (t.links home)
      ((t.store p { t.deref p with ref := r }).links home) fun _ => False :=
    { live := by
        intro q hq
        left
        by_cases hqp : q = p
        · subst hqp
          cases q with
          | root => exact .live trivial
          | slot i =>
            have hpos : 0 < ((t.store (.slot i) { t.entry i with ref := r }).deref (.slot i)).ref := hq
            rw [Inodes.deref_store_self] at hpos
            exact hp hpos
        · refine .live ((held_iff_of_ref ?_).1 hq)
          rw [Inodes.deref_store_ne _ _ hqp]
      ident := fun q _ => (hd q).1
      keep := fun q _ => .inl ⟨(hd q).2.1, rfl⟩
      given := fun _ hf => hf.elim }
  refine ⟨h.attached.step hc, fun q hq => ?_, fun i => ?_⟩
  · rw [(hd q).2.2]
    exact h.iNlink q ((hc.needed hq).resolve_right id)
  · show 0 ≤ ((t.store p { t.deref p with ref := r }).deref (.slot i)).ref
    rw [Inodes.deref_store]
    split
    case isTrue hi => exact hr i hi.symm
    case isFalse => exact h.nonneg i

/-- The inode of an entry of directory `p` is in the table, or the entry that a get takes for it is
not needed. -/
def Inodes.Roomy (t : Inodes) (home : Ptr → BitVec 8 × Nat) (p : Ptr) (v : Visit) : Prop :=
  (∃ j, (t.entry j).Matches (t.deref p).dev.toNat v.inum) ∨
    ∀ i, firstFree t = some i → ¬ (t.links home).Needed (.slot i)

/-- A child is linked to its directory. -/
theorem Inodes.Linked.child (h : t.Linked home) (hp : (t.links home).Needed p) {v : Visit}
    (hroom : t.Roomy home p v) {name : List (BitVec 8)} {i : Fin nentry}
    (hget : getChild t p v name = .ok (i, t')) :
    t'.Linked (Function.update home (.slot i) (t.deref p).ident) := by
  obtain ⟨e, rfl, hpar, hlink, hpos, hcases⟩ := getChild_cases hget
  have hid : (t.links home).Needed (.slot i) → e.ident = (t.entry i).ident := by
    intro hn
    obtain ⟨-, hid, -⟩ | ⟨hno, hfree⟩ := hcases
    · exact hid
    · cases hroom with
      | inl hm =>
        obtain ⟨j, hj⟩ := hm
        exact absurd hj (hno j)
      | inr hr => exact absurd hn (hr i hfree)
  have hgiven : Links.Given (t.links home)
      ((t.store (.slot i) e).links (Function.update home (.slot i) (t.deref p).ident)) (.slot i) := by
    refine ⟨p, ?_, hp, Function.update_self ..⟩
    show ((t.store (.slot i) e).deref (.slot i)).parent = some p
    rw [deref_store_self, hpar]
  have hc : Links.Changes (t.links home)
      ((t.store (.slot i) e).links (Function.update home (.slot i) (t.deref p).ident))
      (· = .slot i) :=
    { live := by
        intro q hq
        by_cases hqi : q = .slot i
        · exact .inr hqi
        · refine .inl (.live ((held_iff_of_ref ?_).1 hq))
          rw [deref_store_ne _ _ hqi]
      ident := by
        intro q hq
        show ((t.store (.slot i) e).deref q).ident = (t.deref q).ident
        by_cases hqi : q = .slot i
        · subst hqi
          rw [deref_store_self]
          exact hid hq
        · rw [deref_store_ne _ _ hqi]
      keep := by
        intro q hq
        by_cases hqi : q = .slot i
        · subst hqi
          exact .inr hgiven
        · refine .inl ⟨?_, Function.update_of_ne hqi ..⟩
          show ((t.store (.slot i) e).deref q).parent = (t.deref q).parent
          rw [deref_store_ne _ _ hqi]
      given := fun q hq => hq ▸ hgiven }
  refine ⟨h.attached.step hc, fun q hq => ?_, fun j => ?_⟩
  · by_cases hqi : q = .slot i
    · subst hqi
      rw [deref_store_self]
      exact hlink
    · rw [deref_store_ne _ _ hqi]
      exact h.iNlink q ((hc.needed hq).resolve_right hqi)
  · show 0 ≤ ((t.store (.slot i) e).deref (.slot j)).ref
    rw [deref_store]
    split
    case isTrue => exact hpos.le
    case isFalse => exact h.nonneg j

end

/-! ## The functions and the links -/

section
variable {sb sb' : Superblock} {fuel : Nat} {d d' : Nat → Sector} {t t' : Inodes}
  {home : Ptr → BitVec 8 × Nat} {p : Ptr}

theorem Inodes.Linked.nlink_of_held (h : t.Linked home) (hp : t.Held p) : (t.deref p).iNlink ≠ 0 :=
  h.iNlink p (.live hp)

theorem Inodes.Linked.dup (h : t.Linked home) (hp : (t.links home).Needed p)
    (hdup : fat32InodeDup t p = .ok t') : t'.Linked home := by
  rw [fat32InodeDup_ok hdup]
  refine h.store_ref (fun _ => hp) fun i hi => ?_
  have := h.nonneg i
  rw [hi, Inodes.deref_slot]
  omega

/-- One reference less. -/
theorem Inodes.Linked.drop (h : t.Linked home) (hp : t.Held p) :
    (t.store p { t.deref p with ref := (t.deref p).ref - 1 }).Linked home := by
  refine h.store_ref (fun _ => .live hp) fun i hi => ?_
  subst hi
  have hpos : 0 < (t.entry i).ref := hp
  rw [Inodes.deref_slot]
  omega

/-- An inode is in use after a dup. -/
theorem held_dup (h : t.Linked home) (hdup : fat32InodeDup t p = .ok t') : t'.Held p := by
  rw [fat32InodeDup_ok hdup]
  cases p with
  | root => trivial
  | slot i =>
    have := h.nonneg i
    refine held_of_pos ?_
    rw [Inodes.deref_store_self, Inodes.deref_slot]
    dsimp only
    omega

theorem held_alike (ha : ∀ q, (t.deref q).Alike (t'.deref q)) (hp : t.Held p) : t'.Held p :=
  (held_iff_of_ref (ha p).ref).2 hp

theorem Inodes.Roomy.alike {v : Visit} (hr : t.Roomy home p v)
    (ha : ∀ q, (t.deref q).Alike (t'.deref q)) : t'.Roomy home p v := by
  have hid : ∀ q, (t'.deref q).dev = (t.deref q).dev ∧ (t'.deref q).iIno = (t.deref q).iIno :=
    fun q => Prod.ext_iff.1 (ha q).ident
  have hfree : firstFree t' = firstFree t := by
    unfold firstFree
    congr 1
    funext i
    exact congrArg (fun r : Int => decide (r = 0)) (ha (.slot i)).ref
  have hneeded : ∀ q, (t'.links home).Needed q → (t.links home).Needed q := by
    intro q hq
    induction hq with
    | live hl => exact .live ((held_iff_of_ref (ha _).ref).1 hl)
    | parent _ hpar ih => exact .parent ih ((ha _).parent.symm.trans hpar)
  cases hr with
  | inl hm =>
    obtain ⟨j, hpos, hdev, hino⟩ := hm
    refine .inl ⟨j, ?_, ?_, ?_⟩
    · exact lt_of_lt_of_eq hpos (ha (.slot j)).ref.symm
    · rw [(hid p).1, ← hdev]
      exact congrArg BitVec.toNat (hid (.slot j)).1
    · exact ((hid (.slot j)).2).trans hino
  | inr hspare =>
    refine .inr fun i hi hn => ?_
    rw [hfree] at hi
    exact hspare i hi (hneeded _ hn)

/-- An inode in use stays in use when a child is looked up, also when a reference to it is dropped
then; so does the child. -/
theorem held_child {v : Visit} {name : List (BitVec 8)} {i : Fin nentry} {q : Ptr} {e : Entry}
    (hget : getChild t p v name = .ok (i, t')) (hq : t.Held q) :
    t'.Held q ∧ (t'.store q { e with ref := (t'.deref q).ref - 1 }).Held (.slot i) := by
  obtain ⟨c, rfl, -, -, hpos, hcases⟩ := getChild_cases hget
  by_cases hqi : q = .slot i
  · subst hqi
    have hq : 0 < (t.entry i).ref := hq
    obtain ⟨-, -, href⟩ | ⟨-, hfree⟩ := hcases
    · refine ⟨held_of_pos ?_, held_of_pos ?_⟩
      · rw [Inodes.deref_store_self]
        exact hpos
      · rw [Inodes.deref_store_self, Inodes.deref_store_self]
        dsimp only
        omega
    · exact absurd (firstFree_some hfree) (by omega)
  · refine ⟨(held_iff_of_ref ?_).2 hq, held_of_pos ?_⟩
    · rw [Inodes.deref_store_ne _ _ hqi]
    · rw [Inodes.deref_store_ne _ _ (Ne.symm hqi), Inodes.deref_store_self]
      exact hpos

/-- An inode in use stays in use when a child is looked up and dropped again. -/
theorem held_drop_child {t₁ : Inodes} {v : Visit} {name : List (BitVec 8)} {i : Fin nentry} {q : Ptr}
    {e : Entry} (hget : getChild t p v name = .ok (i, t'))
    (ha : ∀ q, (t'.deref q).Alike (t₁.deref q)) (hq : t.Held q) :
    (t₁.store (.slot i) { e with ref := (t₁.deref (.slot i)).ref - 1 }).Held q := by
  by_cases hqi : q = .slot i
  · subst hqi
    have hi := (held_child (e := e) hget hq).2
    refine (held_iff_of_ref ?_).2 hi
    rw [Inodes.deref_store_self, Inodes.deref_store_self, (ha _).ref]
  · refine (held_iff_of_ref ?_).2 (held_alike ha (held_child (e := e) hget hq).1)
    rw [Inodes.deref_store_ne _ _ hqi]

theorem dirlookup_cases {name : CStr} {r : Option (Fin nentry × Nat)}
    (h : (fat32InodeDirlookup sb fuel t p name).run d = .ok ((r, t'), d')) :
    ∃ z, (dirlookupScan sb fuel (t.deref p).toInode name).run d = .ok (z, d') ∧
      ((z.hit = none ∧ r = none ∧ t' = t) ∨
        ∃ v i, z.hit = some v ∧ r = some (i, v.off) ∧ getChild t p v name.chars = .ok (i, t')) := by
  obtain ⟨z, d₁, hscan, hrest⟩ := Prog.run_bind_eq_ok.1 h
  cases hz : z.hit with
  | none =>
    rw [hz] at hrest
    cases hrest
    exact ⟨z, hscan, .inl ⟨hz, rfl, rfl⟩⟩
  | some v =>
    rw [hz] at hrest
    obtain ⟨⟨i, t₁⟩, d₂, hlift, hlast⟩ := Prog.run_bind_eq_ok.1 hrest
    obtain ⟨hget, rfl⟩ := Prog.run_lift_eq_ok.1 hlift
    cases hlast
    exact ⟨z, hscan, .inr ⟨v, i, hz, rfl, hget⟩⟩

/-- The ways through an iteration of `inode_namex`, with how it ends. -/
inductive NamexRun (sb : Superblock) (fuel : Nat) (t : Inodes) (nameeparent : Bool) (ip : Ptr)
    (path name : List (BitVec 8)) (d : Nat → Sector) :
    Walked → Superblock → Inodes → (Nat → Sector) → Prop
  | atEnd : skepelem path name = .ok none →
    NamexRun sb fuel t nameeparent ip path name d (.done (some ip) name) sb t d
  | noParent {sb' : Superblock} {t' : Inodes} {d' : Nat → Sector} : skepelem path name = .ok none →
    (fat32InodePut sb fuel t ip).run d = .ok ((sb', t'), d') →
    NamexRun sb fuel t nameeparent ip path name d (.done none name) sb' t' d'
  | file {rest name' : List (BitVec 8)} {t₁ t' : Inodes} {sb' : Superblock} {d₁ d' : Nat → Sector} :
    skepelem path name = .ok (some (rest, name')) →
    (fat32InodeLock sb fuel t ip).run d = .ok (t₁, d₁) → ¬ DirBool (t₁.deref ip).attr →
    (fat32InodeUnlockPut sb fuel t₁ ip).run d₁ = .ok ((sb', t'), d') →
    NamexRun sb fuel t nameeparent ip path name d (.done none name') sb' t' d'
  | parent {name' : List (BitVec 8)} {t₁ : Inodes} {d₁ d' : Nat → Sector} :
    skepelem path name = .ok (some ([], name')) →
    (fat32InodeLock sb fuel t ip).run d = .ok (t₁, d₁) →
    NamexRun sb fuel t nameeparent ip path name d (.done (some ip) name') sb t₁ d'
  | absent {rest name' : List (BitVec 8)} {t₁ t₂ t' : Inodes} {sb' : Superblock}
    {d₁ d₂ d' : Nat → Sector} : skepelem path name = .ok (some (rest, name')) →
    (fat32InodeLock sb fuel t ip).run d = .ok (t₁, d₁) →
    (fat32InodeDirlookup sb fuel t₁ ip (bufStr name')).run d₁ = .ok ((none, t₂), d₂) →
    (fat32InodeUnlockPut sb fuel t₂ ip).run d₂ = .ok ((sb', t'), d') →
    NamexRun sb fuel t nameeparent ip path name d (.done none name') sb' t' d'
  | child {rest name' : List (BitVec 8)} {t₁ t₂ t' : Inodes} {sb' : Superblock}
    {d₁ d₂ d' : Nat → Sector} {i : Fin nentry} {off : Nat} :
    skepelem path name = .ok (some (rest, name')) →
    (fat32InodeLock sb fuel t ip).run d = .ok (t₁, d₁) → DirBool (t₁.deref ip).attr →
    ¬ (nameeparent ∧ rest = []) →
    (fat32InodeDirlookup sb fuel t₁ ip (bufStr name')).run d₁ = .ok ((some (i, off), t₂), d₂) →
    (fat32InodeUnlockPut sb fuel t₂ ip).run d₂ = .ok ((sb', t'), d') →
    NamexRun sb fuel t nameeparent ip path name d (.walk i rest name') sb' t' d'

theorem namexStep_cases {nameeparent : Bool} {ip : Ptr} {path name : List (BitVec 8)} {w : Walked}
    (h : (namexStep sb fuel t nameeparent ip path name).run d = .ok ((w, sb', t'), d')) :
    NamexRun sb fuel t nameeparent ip path name d w sb' t' d' := by
  obtain ⟨elem, d₁, hlift, h⟩ := Prog.run_bind_eq_ok.1 h
  obtain ⟨helem, rfl⟩ := Prog.run_lift_eq_ok.1 hlift
  cases elem with
  | none =>
    dsimp only at h
    split at h
    · obtain ⟨⟨sb₁, t₁⟩, d₂, hput, hlast⟩ := Prog.run_bind_eq_ok.1 h
      cases hlast
      exact .noParent helem hput
    · cases h
      exact .atEnd helem
  | some pn =>
    obtain ⟨rest, name'⟩ := pn
    obtain ⟨t₁, d₂, hlock, h⟩ := Prog.run_bind_eq_ok.1 h
    split at h
    · rename_i hfile
      obtain ⟨⟨sb₁, t₂⟩, d₃, hput, hlast⟩ := Prog.run_bind_eq_ok.1 h
      cases hlast
      exact .file helem hlock hfile hput
    · rename_i hdir
      split at h
      · rename_i hstop
        obtain ⟨u, d₃, -, hlast⟩ := Prog.run_bind_eq_ok.1 h
        cases hlast
        rw [hstop.2] at helem
        exact .parent helem hlock
      · rename_i hstop
        obtain ⟨⟨next, t₂⟩, d₃, hlook, h⟩ := Prog.run_bind_eq_ok.1 h
        obtain ⟨⟨sb₁, t₃⟩, d₄, hput, hlast⟩ := Prog.run_bind_eq_ok.1 h
        cases next with
        | none =>
          cases hlast
          exact .absent helem hlock hlook hput
        | some r =>
          cases hlast
          exact .child helem hlock (not_not.1 hdir) hstop hlook hput

/-- The entry of the directory that an iteration of `inode_namex` finds. -/
def namexVisit (sb : Superblock) (fuel : Nat) (t : Inodes) (nameeparent : Bool) (ip : Ptr)
    (path name : List (BitVec 8)) : FsProg (Option Visit) := do
  let elem ← Prog.lift (skepelem path name)
  match elem with
  | none => return none
  | some (path, name) => do
    let t ← fat32InodeLock sb fuel t ip
    if ¬ DirBool (t.deref ip).attr then return none
    else if nameeparent ∧ path = [] then return none
    else do
      let z ← dirlookupScan sb fuel (t.deref ip).toInode (bufStr name)
      return z.hit

theorem namexVisit_run {nameeparent : Bool} {ip : Ptr} {path name rest name' : List (BitVec 8)}
    {t₁ : Inodes} {d₁ d₂ : Nat → Sector} {z : Scanned}
    (helem : skepelem path name = .ok (some (rest, name')))
    (hlock : (fat32InodeLock sb fuel t ip).run d = .ok (t₁, d₁)) (hdir : DirBool (t₁.deref ip).attr)
    (hstop : ¬ (nameeparent ∧ rest = []))
    (hscan : (dirlookupScan sb fuel (t₁.deref ip).toInode (bufStr name')).run d₁ = .ok (z, d₂)) :
    (namexVisit sb fuel t nameeparent ip path name).run d = .ok (z.hit, d₂) := by
  refine Prog.run_bind_eq_ok.2 ⟨_, _, Prog.run_lift_eq_ok.2 ⟨helem, rfl⟩,
    Prog.run_bind_eq_ok.2 ⟨_, _, hlock, ?_⟩⟩
  rw [if_neg (not_not.2 hdir), if_neg hstop]
  exact Prog.run_bind_eq_ok.2 ⟨_, _, hscan, rfl⟩

/-- A walk starts at a needed inode. -/
theorem namexStart_linked {cwd ip : Ptr} {path : List (BitVec 8)} (h : t.Linked home)
    (hcwd : t.Held cwd) (hstart : namexStart t cwd path = .ok (ip, t')) :
    t'.Linked home ∧ t'.Held ip := by
  obtain ⟨q, hq, hrest⟩ := Res.bind_eq_ok.1 hstart
  obtain ⟨t₁, hdup, hlast⟩ := Res.bind_eq_ok.1 hrest
  cases hlast
  have hneeded : (t.links home).Needed ip := by
    split at hq
    · cases hq
      exact .live trivial
    · obtain ⟨cmp, -, hq₁⟩ := Res.bind_eq_ok.1 hq
      split at hq₁
      · split at hq₁
        · cases hq₁
        · rename_i hpar
          cases hq₁
          exact .parent (.live hcwd) hpar
      · cases hq₁
        exact .live hcwd
  exact ⟨h.dup hneeded hdup, held_dup h hdup⟩

/-- The links after an iteration of `inode_namex`. -/
def Walked.Linked (w : Walked) (t t' : Inodes) (home : Ptr → BitVec 8 × Nat) (ip : Ptr) : Prop :=
  match w with
  | .done _ _ => t'.Linked home
  | .walk i _ _ =>
    t'.Linked (Function.update home (.slot i) (t.deref ip).ident) ∧ t'.Held (.slot i)

theorem namexStep_linked {nameeparent : Bool} {ip : Ptr} {path name : List (BitVec 8)} {w : Walked}
    (h : t.Linked home) (hip : t.Held ip)
    (hroom : ∀ v d', (namexVisit sb fuel t nameeparent ip path name).run d = .ok (some v, d') →
      t.Roomy home ip v)
    (hrun : (namexStep sb fuel t nameeparent ip path name).run d = .ok ((w, sb', t'), d')) :
    w.Linked t t' home ip := by
  cases namexStep_cases hrun with
  | atEnd _ => exact h
  | noParent _ hput =>
    rw [Walked.Linked, (fat32InodePut_run (not_deleted_of_iNlink (h.nlink_of_held hip)) hput).2.2]
    exact h.drop hip
  | file _ hlock _ hput =>
    have ha := lock_alike hlock
    rw [Walked.Linked, unlockPut_run ((h.alike ha).nlink_of_held (held_alike ha hip)) hput]
    exact (h.alike ha).drop (held_alike ha hip)
  | parent _ hlock => exact h.alike (lock_alike hlock)
  | absent _ hlock hlook hput =>
    have ha := lock_alike hlock
    obtain ⟨z, -, ⟨-, -, rfl⟩ | ⟨v, i, -, hr, -⟩⟩ := dirlookup_cases hlook
    · rw [Walked.Linked, unlockPut_run ((h.alike ha).nlink_of_held (held_alike ha hip)) hput]
      exact (h.alike ha).drop (held_alike ha hip)
    · cases hr
  | child helem hlock hdir hstop hlook hput =>
    have ha := lock_alike hlock
    have hip₁ := held_alike ha hip
    obtain ⟨z, hscan, ⟨-, hr, -⟩ | ⟨v, i, hhit, hr, hget⟩⟩ := dirlookup_cases hlook
    · cases hr
    cases hr
    have hvisit := namexVisit_run helem hlock hdir hstop hscan
    rw [hhit] at hvisit
    have hl₂ := (h.alike ha).child (.live hip₁) ((hroom v _ hvisit).alike ha) hget
    have hip₂ := (held_child (e := t.deref ip) hget hip₁).1
    have ht := unlockPut_run (hl₂.nlink_of_held hip₂) hput
    subst ht
    refine ⟨?_, (held_child hget hip₁).2⟩
    rw [← (ha ip).ident]
    exact hl₂.drop hip₂

end

/-! ## Runs -/

/-- A call of `inode_namex` or `fat32_getdents` that has not returned. -/
inductive Task where
  | walk (nameeparent : Bool) (ip : Ptr) (path name : List (BitVec 8))
  | list (dp : Ptr) (visits : List Visit) (cnt : Nat) (dName : List (BitVec 8))

/-- The calls: `name_to_i` and `name_to_i_parent` (`namex`, then `walk` for each iteration),
`fat32_getdents` (then `visit` for each entry), `fat32_inode_dirlookup`, `fat32_inode_dup`,
`fat32_inode_put` and `fat32_inode_lock`. -/
inductive PathOp where
  | namex (cwd : Ptr) (path : List (BitVec 8)) (nameeparent : Bool) (name : List (BitVec 8))
  | walk
  | getdents (dp : Ptr) (dName : List (BitVec 8))
  | visit
  | dirlookup (p : Ptr) (name : CStr)
  | dup (p : Ptr)
  | put (p : Ptr)
  | lock (p : Ptr)

/-- The volume, the inodes in memory and the directories in which they were found. -/
structure Files where
  sb : Superblock
  disk : Nat → Sector
  inodes : Inodes
  task : Option Task
  home : Ptr → BitVec 8 × Nat

namespace Files

/-- After the mount of a volume with root `ip`. -/
def init (sb : Superblock) (disk : Nat → Sector) (ip : Inode) : Files :=
  { sb, disk, inodes := inodeTableInit ip, task := none
    home := fun _ => (inodeTableInit ip).root.ident }

/-- Inode `i` was found in the directory `p`. -/
def found (s : Files) (p : Ptr) (i : Fin nentry) : Ptr → BitVec 8 × Nat :=
  Function.update s.home (.slot i) (s.inodes.deref p).ident

section
variable (fuel : Nat)

/-- One iteration of a walk. -/
def stepWalk (s : Files) (nameeparent : Bool) (ip : Ptr) (path name : List (BitVec 8)) :
    Option Files :=
  match (namexStep s.sb fuel s.inodes nameeparent ip path name).run s.disk with
  | .ok ((.done _ _, sb, t), d) => some { s with sb, disk := d, inodes := t, task := none }
  | .ok ((.walk i path name, sb, t), d) =>
    some
      { sb, disk := d, inodes := t, task := some (.walk nameeparent (.slot i) path name)
        home := s.found ip i }
  | .error _ => none

/-- One entry of `fat32_getdents`. -/
def stepVisit (s : Files) (dp : Ptr) (v : Visit) (vs : List Visit) (cnt : Nat)
    (dName : List (BitVec 8)) : Option Files :=
  match getChild s.inodes dp v v.nameBuf with
  | .ok (i, t) =>
    match (getdentsRecord s.sb fuel t i (cnt + 1) v.nameBuf dName).run s.disk with
    | .ok ((_, dName, sb, t), d) =>
      some
        { sb, disk := d, inodes := t, task := some (.list dp vs (cnt + 1) dName)
          home := s.found dp i }
    | .error _ => none
  | .error _ => none

/-- One step; a call that does not return is none. -/
def step (s : Files) : PathOp → Option Files
  | .namex cwd path nameeparent name =>
    match s.task, namexStart s.inodes cwd path with
    | none, .ok (ip, t) => some { s with inodes := t, task := some (.walk nameeparent ip path name) }
    | _, _ => none
  | .walk =>
    match s.task with
    | some (.walk nameeparent ip path name) => s.stepWalk fuel nameeparent ip path name
    | _ => none
  | .getdents dp dName =>
    match s.task, (getdentsScan s.sb fuel (s.inodes.deref dp).toInode).run s.disk with
    | none, .ok (r, d) => some { s with disk := d, task := some (.list dp r.scan.visits 0 dName) }
    | _, _ => none
  | .visit =>
    match s.task with
    | some (.list _ [] _ _) => some { s with task := none }
    | some (.list dp (v :: vs) cnt dName) => s.stepVisit fuel dp v vs cnt dName
    | _ => none
  | .dirlookup p name =>
    match s.task, (fat32InodeDirlookup s.sb fuel s.inodes p name).run s.disk with
    | none, .ok ((none, t), d) => some { s with disk := d, inodes := t }
    | none, .ok ((some (i, _), t), d) => some { s with disk := d, inodes := t, home := s.found p i }
    | _, _ => none
  | .dup p =>
    match s.task, fat32InodeDup s.inodes p with
    | none, .ok t => some { s with inodes := t }
    | _, _ => none
  | .put p =>
    match s.task, (fat32InodePut s.sb fuel s.inodes p).run s.disk with
    | none, .ok ((sb, t), d) => some { s with sb, disk := d, inodes := t }
    | _, _ => none
  | .lock p =>
    match s.task, (fat32InodeLock s.sb fuel s.inodes p).run s.disk with
    | none, .ok (t, d) => some { s with disk := d, inodes := t }
    | _, _ => none

/-- The callers hold the inodes that they pass, and no get recycles a needed entry. -/
def Safe (s : Files) : PathOp → Prop
  | .namex cwd _ _ _ => s.inodes.Held cwd
  | .walk =>
    match s.task with
    | some (.walk nameeparent ip path name) =>
      ∀ v d', (namexVisit s.sb fuel s.inodes nameeparent ip path name).run s.disk = .ok (some v, d') →
        s.inodes.Roomy s.home ip v
    | _ => True
  | .getdents dp _ => s.inodes.Held dp
  | .visit =>
    match s.task with
    | some (.list dp (v :: _) _ _) => s.inodes.Roomy s.home dp v
    | _ => True
  | .dirlookup p name =>
    s.inodes.Held p ∧ ∀ z d' v,
      (dirlookupScan s.sb fuel (s.inodes.deref p).toInode name).run s.disk = .ok (z, d') →
      z.hit = some v → s.inodes.Roomy s.home p v
  | .dup p => s.inodes.Held p
  | .put p => s.inodes.Held p
  | .lock p => s.inodes.Held p

/-- A step. -/
def Step (s : Files) (op : PathOp) (s' : Files) : Prop := s.step fuel op = some s'

/-- A step under the condition. -/
def SafeStep (s : Files) (op : PathOp) (s' : Files) : Prop := s.Safe fuel op ∧ s.Step fuel op s'

end

/-- The inode that a call in progress has a reference to. -/
def TaskHeld (s : Files) : Prop :=
  match s.task with
  | none => True
  | some (.walk _ ip _ _) => s.inodes.Held ip
  | some (.list dp _ _ _) => s.inodes.Held dp

/-- The invariant. -/
structure Ok (s : Files) : Prop where
  linked : s.inodes.Linked s.home
  held : s.TaskHeld

variable {fuel : Nat} {s s' : Files}

theorem init_ok (sb : Superblock) (disk : Nat → Sector) (ip : Inode) : (init sb disk ip).Ok := by
  have hneeded : ∀ p, ((init sb disk ip).inodes.links (init sb disk ip).home).Needed p → p = .root := by
    intro p hp
    induction hp with
    | @live p hl =>
      cases p with
      | root => rfl
      | slot i => exact absurd hl (Int.lt_irrefl 0)
    | parent _ hq ih =>
      subst ih
      cases hq
      rfl
  refine ⟨⟨fun p hp => ?_, fun p hp => ?_, fun _ => Int.le_refl 0⟩, trivial⟩
  · rw [hneeded p hp]
    exact ⟨.root, rfl, rfl⟩
  · rw [hneeded p hp]
    exact (by decide : (1 : BitVec 16) ≠ 0)

theorem taskHeld_of_none (h : s.task = none) : s.TaskHeld := by
  unfold TaskHeld
  rw [h]
  trivial

theorem TaskHeld.walk (h : s.TaskHeld) {nameeparent : Bool} {ip : Ptr} {path name : List (BitVec 8)}
    (ht : s.task = some (.walk nameeparent ip path name)) : s.inodes.Held ip := by
  unfold TaskHeld at h
  rwa [ht] at h

theorem TaskHeld.list (h : s.TaskHeld) {dp : Ptr} {vs : List Visit} {cnt : Nat}
    {dName : List (BitVec 8)} (ht : s.task = some (.list dp vs cnt dName)) : s.inodes.Held dp := by
  unfold TaskHeld at h
  rwa [ht] at h

/-! ### The steps -/

theorem Ok.namex (h : s.Ok) {cwd : Ptr} {path name : List (BitVec 8)} {nameeparent : Bool}
    (hs : s.Safe fuel (.namex cwd path nameeparent name))
    (hst : s.step fuel (.namex cwd path nameeparent name) = some s') : s'.Ok := by
  dsimp only [step] at hst
  split at hst
  · rename_i ip t htask hstart
    cases hst
    exact ⟨(namexStart_linked h.linked hs hstart).1, (namexStart_linked h.linked hs hstart).2⟩
  · cases hst

theorem Ok.walk (h : s.Ok) (hs : s.Safe fuel .walk) (hst : s.step fuel .walk = some s') : s'.Ok := by
  dsimp only [step, Safe] at hst hs
  split at hst
  · rename_i nameeparent ip path name htask
    rw [htask] at hs
    have hip := h.held.walk htask
    unfold stepWalk at hst
    split at hst
    · rename_i hrun
      cases hst
      exact ⟨namexStep_linked h.linked hip hs hrun, trivial⟩
    · rename_i hrun
      cases hst
      have hw := namexStep_linked h.linked hip hs hrun
      exact ⟨hw.1, hw.2⟩
    · cases hst
  · cases hst

theorem Ok.getdents (h : s.Ok) {dp : Ptr} {dName : List (BitVec 8)}
    (hs : s.Safe fuel (.getdents dp dName)) (hst : s.step fuel (.getdents dp dName) = some s') :
    s'.Ok := by
  dsimp only [step] at hst
  split at hst
  · cases hst
    exact ⟨h.linked, hs⟩
  · cases hst

theorem Ok.dirlookup (h : s.Ok) {p : Ptr} {name : CStr} (hs : s.Safe fuel (.dirlookup p name))
    (hst : s.step fuel (.dirlookup p name) = some s') : s'.Ok := by
  dsimp only [step] at hst
  split at hst
  · rename_i htask hrun
    cases hst
    obtain ⟨z, -, ⟨-, -, rfl⟩ | ⟨v, i, -, hr, -⟩⟩ := dirlookup_cases hrun
    · exact ⟨h.linked, taskHeld_of_none htask⟩
    · cases hr
  · rename_i htask hrun
    cases hst
    obtain ⟨z, hscan, ⟨-, hr, -⟩ | ⟨v, i, hhit, hr, hget⟩⟩ := dirlookup_cases hrun
    · cases hr
    · cases hr
      exact ⟨h.linked.child (.live hs.1) (hs.2 z _ v hscan hhit) hget, taskHeld_of_none htask⟩
  · cases hst

theorem Ok.dup (h : s.Ok) {p : Ptr} (hs : s.Safe fuel (.dup p))
    (hst : s.step fuel (.dup p) = some s') : s'.Ok := by
  dsimp only [step] at hst
  split at hst
  · rename_i htask hdup
    cases hst
    exact ⟨h.linked.dup (.live hs) hdup, taskHeld_of_none htask⟩
  · cases hst

theorem Ok.put (h : s.Ok) {p : Ptr} (hs : s.Safe fuel (.put p))
    (hst : s.step fuel (.put p) = some s') : s'.Ok := by
  dsimp only [step] at hst
  split at hst
  · rename_i htask hput
    cases hst
    rw [(fat32InodePut_run (not_deleted_of_iNlink (h.linked.nlink_of_held hs)) hput).2.2]
    exact ⟨h.linked.drop hs, taskHeld_of_none htask⟩
  · cases hst

theorem Ok.lock (h : s.Ok) {p : Ptr} (hst : s.step fuel (.lock p) = some s') : s'.Ok := by
  dsimp only [step] at hst
  split at hst
  · rename_i htask hlock
    cases hst
    exact ⟨h.linked.alike (lock_alike hlock), taskHeld_of_none htask⟩
  · cases hst

theorem record_run {sb sb' : Superblock} {t t' : Inodes} {d d' : Nat → Sector} {i : Fin nentry}
    {cnt : Nat} {nameBuf dName dName' : List (BitVec 8)} {r : UserDirent}
    (hn : (t.entry i).iNlink ≠ 0)
    (h : (getdentsRecord sb fuel t i cnt nameBuf dName).run d = .ok ((r, dName', sb', t'), d')) :
    ∃ t₁ : Inodes, (∀ q, (t.deref q).Alike (t₁.deref q)) ∧
      t' = t₁.store (.slot i) { t₁.deref (.slot i) with ref := (t₁.deref (.slot i)).ref - 1 } := by
  obtain ⟨t₁, d₁, hlock, h₁⟩ := Prog.run_bind_eq_ok.1 h
  obtain ⟨len, d₂, -, h₂⟩ := Prog.run_bind_eq_ok.1 h₁
  obtain ⟨buf, d₃, -, h₃⟩ := Prog.run_bind_eq_ok.1 h₂
  obtain ⟨buf', d₄, -, h₄⟩ := Prog.run_bind_eq_ok.1 h₃
  obtain ⟨len', d₅, -, h₅⟩ := Prog.run_bind_eq_ok.1 h₄
  obtain ⟨⟨sb₁, t₂⟩, d₆, hput, hlast⟩ := Prog.run_bind_eq_ok.1 h₅
  cases hlast
  have ha := lock_alike hlock
  refine ⟨t₁, ha, unlockPut_run ?_ hput⟩
  rw [(ha (.slot i)).iNlink]
  exact hn

theorem Ok.visit (h : s.Ok) (hs : s.Safe fuel .visit) (hst : s.step fuel .visit = some s') :
    s'.Ok := by
  dsimp only [step, Safe] at hst hs
  split at hst
  · cases hst
    exact ⟨h.linked, trivial⟩
  · rename_i dp v vs cnt dName htask
    rw [htask] at hs
    have hdp := h.held.list htask
    unfold stepVisit at hst
    split at hst
    · rename_i i t hget
      split at hst
      · rename_i hrun
        cases hst
        have hl := h.linked.child (.live hdp) hs hget
        have hi : t.Held (.slot i) := by
          obtain ⟨e, rfl, -, -, hpos, -⟩ := getChild_cases hget
          refine held_of_pos ?_
          rw [Inodes.deref_store_self]
          exact hpos
        obtain ⟨t₁, ha, ht⟩ := record_run (hl.nlink_of_held hi) hrun
        subst ht
        exact ⟨(hl.alike ha).drop (held_alike ha hi), held_drop_child hget ha hdp⟩
      · cases hst
    · cases hst
  · cases hst

theorem Ok.step (h : s.Ok) {op : PathOp} (hst : s.SafeStep fuel op s') : s'.Ok := by
  obtain ⟨hs, hst⟩ := hst
  cases op with
  | namex cwd path nameeparent name => exact h.namex hs hst
  | walk => exact h.walk hs hst
  | getdents dp dName => exact h.getdents hs hst
  | visit => exact h.visit hs hst
  | dirlookup p name => exact h.dirlookup hs hst
  | dup p => exact h.dup hs hst
  | put p => exact h.put hs hst
  | lock p => exact h.lock hst

/-- In every run in which the callers hold the inodes that they pass and no get recycles an inode in
use or an ancestor of one, the parent of every inode in use is the directory in which it was
found. -/
theorem parents_valid {sb : Superblock} {disk : Nat → Sector} {ip : Inode} {ops : List PathOp}
    (hrun : Run (SafeStep fuel) (init sb disk ip) ops s) (i : Fin nentry)
    (hi : 0 < (s.inodes.entry i).ref) :
    ∃ q, (s.inodes.entry i).parent = some q ∧ (s.inodes.deref q).ident = s.home (.slot i) := by
  have h : s.Ok := hrun.invariant (init_ok sb disk ip) fun _ _ _ ht hst => ht.step hst
  exact h.linked.attached (.slot i) (.live hi)

/-! ## Two walks -/

/-- No pointer leads to the first free entry. -/
def Spare (t : Inodes) : Prop :=
  ∀ i, firstFree t = some i → t.root.parent ≠ some (.slot i) ∧ ∀ j, (t.entry j).parent ≠ some (.slot i)

instance (t : Inodes) : Decidable (Spare t) := inferInstanceAs (Decidable (∀ _, _ → _ ∧ ∀ _, _))

theorem Spare.roomy {t : Inodes} (h : Spare t) (home : Ptr → BitVec 8 × Nat) (p : Ptr) (v : Visit) :
    t.Roomy home p v := by
  refine .inr fun i hi hn => ?_
  cases hn with
  | live hl => exact absurd (firstFree_some hi) (Int.ne_of_gt hl)
  | @parent q _ _ hq =>
    cases q with
    | root => exact (h i hi).1 hq
    | slot j => exact (h i hi).2 j hq

/-- A check of the condition for the steps of a walk. -/
def checkWalk (fuel : Nat) (s : Files) : PathOp → Bool
  | .namex cwd _ _ _ => decide (s.inodes.Held cwd)
  | .walk =>
    match s.task with
    | some (.walk nameeparent ip path name) =>
      match (namexVisit s.sb fuel s.inodes nameeparent ip path name).run s.disk with
      | .ok (some _, _) => decide (Spare s.inodes)
      | _ => true
    | _ => true
  | _ => false

theorem safe_of_checkWalk {op : PathOp} (h : s.checkWalk fuel op = true) : s.Safe fuel op := by
  cases op with
  | namex cwd path nameeparent name => exact (of_decide_eq_true h : s.inodes.Held cwd)
  | walk =>
    dsimp only [checkWalk, Safe] at h ⊢
    split
    · intro v d' hv
      rename_i htask
      rw [htask] at h
      dsimp only at h
      rw [hv] at h
      exact (of_decide_eq_true h : Spare s.inodes).roomy _ _ _
    · trivial
  | getdents dp dName => cases h
  | visit => cases h
  | dirlookup p name => cases h
  | dup p => cases h
  | put p => cases h
  | lock p => cases h

/-- Steps of walks that pass the check. -/
def nextWalk (fuel : Nat) (s : Files) (op : PathOp) : Option Files :=
  if s.checkWalk fuel op then s.step fuel op else none

theorem safeStep_of_nextWalk {op : PathOp} (h : s.nextWalk fuel op = some s') :
    s.SafeStep fuel op s' := by
  unfold nextWalk at h
  split at h
  case isTrue hc => exact ⟨safe_of_checkWalk hc, h⟩
  case isFalse => cases h

/-- A short entry with a name of one letter. -/
def letterEntry (letter attr cluster : BitVec 8) : List (BitVec 8) :=
  letter :: List.replicate 10 0x20 ++ attr :: List.replicate 14 0 ++ cluster :: List.replicate 5 0

/-- A volume with a directory `A` that has a file `B`, and a file `X`. -/
def treeDisk (sec : Nat) : Sector :=
  if sec = 8 then [2, 3, 4, 5].foldl (fun d c => setDword d (4 * c) eoc) fun _ => 0
  else if sec = 9 then sectorOf (letterEntry 65 0x10 3 ++ letterEntry 88 0x20 4)
  else if sec = 10 then sectorOf (letterEntry 66 0x20 5)
  else fun _ => 0

/-- `name_to_i("/A/B")`. -/
def walkB : List PathOp :=
  [.namex .root [47, 65, 47, 66] false (List.replicate nameLongMax 0), .walk, .walk, .walk]

/-- `name_to_i("/X")`. -/
def walkX : List PathOp := [.namex .root [47, 88] false (List.replicate nameLongMax 0), .walk]

theorem parents_valid_walk :
    ∃ s, Run (SafeStep 3) (init blankSb treeDisk blankRoot) walkB s ∧ 0 < (s.inodes.entry 1).ref ∧
      ∃ q, (s.inodes.entry 1).parent = some q ∧ (s.inodes.deref q).ident = s.home (.slot 1) := by
  have hx : ((Lib.exec (nextWalk 3) (init blankSb treeDisk blankRoot) walkB).any fun s =>
      decide (0 < (s.inodes.entry 1).ref)) = true := by decide +kernel
  obtain ⟨s, hs, hx⟩ := (Option.any_eq_true _ _).1 hx
  have hrun : Run (SafeStep 3) (init blankSb treeDisk blankRoot) walkB s := by
    refine Lib.run_of_exec ?_ hs
    exact fun _ _ _ h => safeStep_of_nextWalk h
  exact ⟨s, hrun, of_decide_eq_true hx, parents_valid hrun 1 (of_decide_eq_true hx)⟩

/-- After the second walk the parent of `B` is `X`. -/
theorem parents_valid_lost :
    ∃ s, Run (Step 3) (init blankSb treeDisk blankRoot) (walkB ++ walkX) s ∧
      0 < (s.inodes.entry 1).ref ∧ (s.inodes.entry 1).parent = some (.slot 0) ∧
      s.home (.slot 1) = (1, 1) ∧ (s.inodes.entry 0).ident = (1, 2) := by
  have hx : ((Lib.exec (step 3) (init blankSb treeDisk blankRoot) (walkB ++ walkX)).any fun s =>
      decide (0 < (s.inodes.entry 1).ref ∧ (s.inodes.entry 1).parent = some (.slot 0) ∧
        s.home (.slot 1) = (1, 1) ∧ (s.inodes.entry 0).ident = (1, 2))) = true := by decide +kernel
  obtain ⟨s, hs, hx⟩ := (Option.any_eq_true _ _).1 hx
  refine ⟨s, Lib.run_of_exec ?_ hs, of_decide_eq_true hx⟩
  exact fun _ _ _ h => h

end Files

end Fs
