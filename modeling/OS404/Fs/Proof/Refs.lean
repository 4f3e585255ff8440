import OS404.Fs.File
import OS404.Fs.Proof.Path
import OS404.Fs.Proof.Dirent
import OS404.Lib.Ledger

/-!
# References that a walk takes and drops

The references to the inodes in memory as a ledger (`refs`). Every function of the table moves it by a
reference to one inode: a dup and a get add one, a put takes one away, and locking, writing and
truncating leave the counts.

* `namexStep_moves`: what an iteration of `inode_namex` leaves is a reference to the inode that it
  returns or goes on with, in each of its exits;
* `namex_balance`: so a walk that returns `NULL` leaves all counts, and every other walk adds a
  reference to the inode that it returns, for any links of the inodes;
* `create_held_iff`: `fat32_inode_create` hands over a reference exactly to an inode that it made in a
  free entry of the table. For a name that exists it drops the reference to the inode that it returns,
  and the entry may be recycled under the caller (`create_existing_dropped`).
-/

namespace Fs

open Lib (Prog Ledger)
open Lib.Ledger (held held_nonneg held_apply)
open Driver (Sector)
open Str

/-- The references to the inodes in memory. -/
def refs : Ledger Inodes Ptr (BitVec 8 × Nat) where
  count t p := (t.deref p).ref
  ident t p := (t.deref p).ident

/-! ## Entries that are stored -/

section
variable {t t' : Inodes} {p : Ptr} {e : Entry}

theorem store_moves (h : 0 < (t.deref p).ref → e.ident = (t.deref p).ident) :
    refs.Moves t (t.store p e) (Pi.single p (e.ref - (t.deref p).ref)) := by
  refine ⟨fun q => ?_, fun q hq => ?_⟩
  · show ((t.store p e).deref q).ref = (t.deref q).ref + _
    by_cases hqp : q = p
    · subst hqp
      simp
    · simp [Inodes.deref_store_ne _ _ hqp, hqp]
  · show ((t.store p e).deref q).ident = (t.deref q).ident
    by_cases hqp : q = p
    · subst hqp
      rw [Inodes.deref_store_self]
      exact h hq
    · rw [Inodes.deref_store_ne _ _ hqp]

/-- A change of the data of an inode. -/
theorem store_moves_same (hid : e.ident = (t.deref p).ident) (href : e.ref = (t.deref p).ref) :
    refs.Moves t (t.store p e) 0 := by
  have h := store_moves (t := t) (p := p) (e := e) fun _ => hid
  rwa [href, sub_self, Pi.single_zero] at h

/-- One reference more. -/
theorem store_moves_inc (hid : 0 < (t.deref p).ref → e.ident = (t.deref p).ident)
    (href : e.ref = (t.deref p).ref + 1) : refs.Moves t (t.store p e) (held (some p)) := by
  have h := store_moves hid
  rwa [href, add_sub_cancel_left] at h

theorem alike_moves (h : ∀ q, (t.deref q).Alike (t'.deref q)) : refs.Moves t t' 0 :=
  ⟨fun q => (h q).ref.trans (add_zero _).symm, fun q _ => (h q).ident⟩

end

/-! ## What a write leaves of an inode -/

/-- The same file: a write changes the length of the chain and the size only. -/
structure Inode.Same (ip ip' : Inode) : Prop where
  iIno : ip'.iIno = ip.iIno
  clusterStart : ip'.clusterStart = ip.clusterStart

section
variable {sb sb' : Superblock} {fuel : Nat} {d d' : Nat → Sector} {t t' : Inodes} {p : Ptr}

theorem Inode.Same.refl (ip : Inode) : ip.Same ip := ⟨rfl, rfl⟩

theorem Inode.Same.trans {ip ip₁ ip' : Inode} (h : ip.Same ip₁) (h' : ip₁.Same ip') : ip.Same ip' :=
  ⟨h'.iIno.trans h.iIno, h'.clusterStart.trans h.clusterStart⟩

theorem appendCluster_same {ip : Inode} {iter : Nat} {r : Nat × Superblock × Inode}
    (h : (appendCluster sb ip iter).run d = .ok (r, d')) : ip.Same r.2.2 := by
  obtain ⟨x, d₁, -, h₁⟩ := Prog.run_bind_eq_ok.1 h
  obtain ⟨u, d₂, -, hlast⟩ := Prog.run_bind_eq_ok.1 h₁
  cases hlast
  exact ⟨rfl, rfl⟩

theorem writeClusters_same {n : Nat} : ∀ {fuel iter sN sO tot : Nat} {src : List (BitVec 8)}
    {sb : Superblock} {ip : Inode} {d d' : Nat → Sector} {w : Nat × Superblock × Inode},
    (writeClusters n fuel iter sN sO tot src sb ip).run d = .ok (w, d') → ip.Same w.2.2
  | 0, _, _, _, _, _, _, _, _, _, _, h => by cases h
  | fuel + 1, iter, sN, sO, tot, src, sb, ip, d, d', w, h => by
    unfold writeClusters at h
    split at h
    · obtain ⟨x, d₁, -, h⟩ := Prog.run_bind_eq_ok.1 h
      dsimp only at h
      split at h
      · cases h
        exact .refl ip
      · obtain ⟨next, d₂, -, h⟩ := Prog.run_bind_eq_ok.1 h
        split at h
        · obtain ⟨a, d₃, happ, h⟩ := Prog.run_bind_eq_ok.1 h
          exact (appendCluster_same happ).trans (writeClusters_same h)
        · exact writeClusters_same h
    · cases h
      exact .refl ip

theorem inodeWrite_same {ip : Inode} {src : List (BitVec 8)} {off n : Nat}
    {r : Nat × Superblock × Inode} (h : (fat32InodeWrite sb ip src off n).run d = .ok (r, d')) :
    ip.Same r.2.2 := by
  unfold fat32InodeWrite at h
  split at h
  · obtain ⟨⟨iter, ip₁⟩, d₁, htravel, h₁⟩ := Prog.run_bind_eq_ok.1 h
    obtain ⟨⟨iter₂, sb₂, ip₂⟩, d₂, happ, h₂⟩ := Prog.run_bind_eq_ok.1 h₁
    obtain ⟨⟨tot, sb₃, ip₃⟩, d₃, hwrite, h₃⟩ := Prog.run_bind_eq_ok.1 h₂
    obtain ⟨u, d₄, -, hlast⟩ := Prog.run_bind_eq_ok.1 h₃
    cases hlast
    have hfirst : ip₁.Same ip₂ := by
      split at happ
      · exact appendCluster_same happ
      · cases happ
        exact .refl _
    have htravel : ip.Same ip₁ := by
      obtain ⟨-, last, rfl⟩ := travel_keeps htravel
      exact ⟨rfl, rfl⟩
    have hall := (htravel.trans hfirst).trans (writeClusters_same hwrite)
    exact ⟨hall.iIno, hall.clusterStart⟩
  · cases h
    exact .refl ip

/-! ## The functions of the table -/

theorem dup_moves (h : fat32InodeDup t p = .ok t') : refs.Moves t t' (held (some p)) := by
  rw [fat32InodeDup_ok h]
  exact store_moves_inc (fun _ => rfl) rfl

theorem lock_moves (h : (fat32InodeLock sb fuel t p).run d = .ok (t', d')) : refs.Moves t t' 0 :=
  alike_moves (lock_alike h)

theorem get_moves {dev inum parentoff : Nat} {name : List (BitVec 8)} {i : Fin nentry}
    (h : fat32InodeGet t dev inum name parentoff = .ok (i, t')) :
    refs.Moves t t' (held (some (.slot i))) := by
  obtain ⟨-, rfl⟩ | ⟨-, hfree, e, hr, rfl⟩ := fat32InodeGet_cases h
  · exact store_moves_inc (fun _ => rfl) rfl
  · have h0 : (t.deref (.slot i)).ref = 0 := firstFree_some hfree
    refine store_moves_inc (fun hpos => absurd hpos (by omega)) ?_
    rw [hr.ref, h0]
    rfl

theorem getChild_moves {v : Visit} {name : List (BitVec 8)} {i : Fin nentry}
    (h : getChild t p v name = .ok (i, t')) : refs.Moves t t' (held (some (.slot i))) := by
  obtain ⟨⟨j, t₁⟩, hget, hlast⟩ := Res.bind_eq_ok.1 h
  cases hlast
  exact (get_moves hget).same (held_nonneg _) (store_moves_same rfl rfl)

/-- From `t` to `t'` the file of inode `p` was written to. -/
def WrittenTo (t t' : Inodes) (p : Ptr) : Prop :=
  ∃ ip, (t.deref p).toInode.Same ip ∧ t' = t.store p { t.deref p with toInode := ip }

theorem WrittenTo.moves (h : WrittenTo t t' p) : refs.Moves t t' 0 := by
  obtain ⟨ip, hsame, rfl⟩ := h
  exact store_moves_same (congrArg (Prod.mk (t.deref p).dev) hsame.iIno) rfl

/-- A delete writes to the directory. -/
theorem delete_written {dp : Ptr} (h : (fat32InodeDelete sb t dp p).run d = .ok ((sb', t'), d')) :
    WrittenTo t t' dp := by
  obtain ⟨strLen, d₁, -, h⟩ := Prog.run_bind_eq_ok.1 h
  dsimp only at h
  split at h
  · cases h
  · obtain ⟨fcbChar, d₂, -, h⟩ := Prog.run_bind_eq_ok.1 h
    split at h
    · cases h
    · obtain ⟨⟨tot, sb₁, dir⟩, d₃, hwrite, h⟩ := Prog.run_bind_eq_ok.1 h
      dsimp only at h
      split at h
      · cases h
        exact ⟨dir, inodeWrite_same hwrite, rfl⟩
      · cases h

theorem trunc_written (h : (fat32InodeTrunc sb fuel t p).run d = .ok ((sb', t'), d')) :
    ∃ dp t₁, WrittenTo t t₁ dp ∧ t' = t₁.store p (t₁.deref p).truncated := by
  obtain ⟨u, d₁, -, h⟩ := Prog.run_bind_eq_ok.1 h
  split at h
  · cases h
  · obtain ⟨⟨sb₁, t₁⟩, d₂, hdelete, h⟩ := Prog.run_bind_eq_ok.1 h
    obtain ⟨u, d₃, -, hlast⟩ := Prog.run_bind_eq_ok.1 h
    cases hlast
    exact ⟨_, t₁, delete_written hdelete, rfl⟩

/-- A put drops a reference, also when it deletes the file. -/
theorem put_moves (h : (fat32InodePut sb fuel t p).run d = .ok ((sb', t'), d')) :
    refs.Moves t t' (-held (some p)) := by
  obtain ⟨⟨sb₁, t₁⟩, d₁, hdel, h⟩ := Prog.run_bind_eq_ok.1 h
  obtain ⟨e, d₂, hlift, hlast⟩ := Prog.run_bind_eq_ok.1 h
  obtain ⟨hdec, rfl⟩ := Prog.run_lift_eq_ok.1 hlift
  cases hlast
  have hfirst : refs.Moves t t₁ 0 := by
    split at hdel
    · obtain ⟨⟨sb₂, t₂⟩, d₃, htrunc, hdel⟩ := Prog.run_bind_eq_ok.1 hdel
      obtain ⟨u, d₄, -, hlast⟩ := Prog.run_bind_eq_ok.1 hdel
      cases hlast
      obtain ⟨dp, t₃, hwritten, rfl⟩ := trunc_written htrunc
      refine Ledger.Moves.same ?_ le_rfl (store_moves_same rfl rfl)
      exact hwritten.moves.same le_rfl (store_moves_same rfl rfl)
    · cases hdel
      exact .refl t
  have hlast : refs.Moves t₁ (t₁.store p e) (-held (some p)) := by
    have hmove := store_moves (t := t₁) (p := p) (e := e) fun _ => by rw [decRef_ok hdec]; rfl
    rw [decRef_ok hdec] at hmove ⊢
    dsimp only at hmove
    rwa [sub_sub_cancel_left, Pi.single_neg] at hmove
  have hall := hfirst.trans le_rfl hlast
  rwa [zero_add] at hall

theorem unlockPut_moves (h : (fat32InodeUnlockPut sb fuel t p).run d = .ok ((sb', t'), d')) :
    refs.Moves t t' (-held (some p)) := by
  obtain ⟨u, d₁, -, hput⟩ := Prog.run_bind_eq_ok.1 h
  exact put_moves hput

/-- The inode that a lookup gets. -/
def foundPtr (r : Option (Fin nentry × Nat)) : Option Ptr := r.map fun x => .slot x.1

theorem dirlookup_moves {name : CStr} {r : Option (Fin nentry × Nat)}
    (h : (fat32InodeDirlookup sb fuel t p name).run d = .ok ((r, t'), d')) :
    refs.Moves t t' (held (foundPtr r)) := by
  obtain ⟨z, -, ⟨-, rfl, rfl⟩ | ⟨v, i, -, rfl, hget⟩⟩ := dirlookup_cases h
  · exact .refl t'
  · exact getChild_moves hget

end

/-! ## Walks -/

section
variable {sb sb' : Superblock} {fuel : Nat} {d d' : Nat → Sector} {t₀ t t' : Inodes}
  {nameeparent : Bool}

theorem namexStart_moves {cwd ip : Ptr} {path : List (BitVec 8)}
    (h : namexStart t cwd path = .ok (ip, t')) : refs.Moves t t' (held (some ip)) := by
  obtain ⟨q, -, hrest⟩ := Res.bind_eq_ok.1 h
  obtain ⟨t₁, hdup, hlast⟩ := Res.bind_eq_ok.1 hrest
  cases hlast
  exact dup_moves hdup

/-- The inode that an iteration returns or goes on with. -/
def Walked.ptr : Walked → Option Ptr
  | .done ip _ => ip
  | .walk i _ _ => some (.slot i)

/-- With a reference to `ip` before it, an iteration leaves one to the inode that it ends with. -/
theorem namexStep_moves {ip : Ptr} {path name : List (BitVec 8)} {w : Walked}
    (h₀ : refs.Moves t₀ t (held (some ip)))
    (h : (namexStep sb fuel t nameeparent ip path name).run d = .ok ((w, sb', t'), d')) :
    refs.Moves t₀ t' (held w.ptr) := by
  have hip := held_nonneg (some ip)
  cases namexStep_cases h with
  | atEnd _ => exact h₀
  | noParent _ hput =>
    rw [← add_zero (held (some ip))] at h₀
    exact h₀.drop le_rfl (put_moves hput)
  | file _ hlock _ hput =>
    have h₁ := h₀.same hip (lock_moves hlock)
    rw [← add_zero (held (some ip))] at h₁
    exact h₁.drop le_rfl (unlockPut_moves hput)
  | parent _ hlock => exact h₀.same hip (lock_moves hlock)
  | absent _ hlock hlook hput =>
    have h₁ := (h₀.same hip (lock_moves hlock)).trans hip (dirlookup_moves hlook)
    exact h₁.drop (held_nonneg _) (unlockPut_moves hput)
  | child _ hlock _ _ hlook hput =>
    have h₁ := (h₀.same hip (lock_moves hlock)).trans hip (dirlookup_moves hlook)
    exact h₁.drop (held_nonneg _) (unlockPut_moves hput)

theorem namexLoop_moves : ∀ {n : Nat} {sb : Superblock} {t : Inodes} {ip : Ptr}
    {path name : List (BitVec 8)} {d : Nat → Sector} {r : Option Ptr} {name' : List (BitVec 8)},
    refs.Moves t₀ t (held (some ip)) →
    (namexLoop fuel nameeparent n sb t ip path name).run d = .ok ((r, name', sb', t'), d') →
    refs.Moves t₀ t' (held r)
  | 0, _, _, _, _, _, _, _, _, _, h => by cases h
  | n + 1, sb, t, ip, path, name, d, r, name', h₀, h => by
    obtain ⟨⟨w, sb₁, t₁⟩, d₁, hstep, hrest⟩ := Prog.run_bind_eq_ok.1 h
    have h₁ := namexStep_moves h₀ hstep
    cases w with
    | done ip' name₁ =>
      cases hrest
      exact h₁
    | walk i path₁ name₁ => exact namexLoop_moves h₁ hrest

theorem namex_moves {cwd : Ptr} {path name name' : List (BitVec 8)} {r : Option Ptr}
    (h : (inodeNamex sb fuel t cwd path nameeparent name).run d = .ok ((r, name', sb', t'), d')) :
    refs.Moves t t' (held r) := by
  obtain ⟨⟨ip, t₁⟩, d₁, hlift, hrest⟩ := Prog.run_bind_eq_ok.1 h
  obtain ⟨hstart, rfl⟩ := Prog.run_lift_eq_ok.1 hlift
  exact namexLoop_moves (namexStart_moves hstart) hrest

/-- A walk that returns leaves the counts of all inodes but that of the inode it returns, which is
one higher; the inodes that were in use stay where they are. -/
theorem namex_balance {cwd : Ptr} {path name name' : List (BitVec 8)} {r : Option Ptr}
    (h : (inodeNamex sb fuel t cwd path nameeparent name).run d = .ok ((r, name', sb', t'), d')) :
    (r = none → ∀ p, (t'.deref p).ref = (t.deref p).ref) ∧
    (∀ ip, r = some ip → (t'.deref ip).ref = (t.deref ip).ref + 1 ∧
      ∀ p, p ≠ ip → (t'.deref p).ref = (t.deref p).ref) ∧
    ∀ p, 0 < (t.deref p).ref → (t'.deref p).ident = (t.deref p).ident := by
  have hm := namex_moves h
  have hcount : ∀ p, (t'.deref p).ref = (t.deref p).ref + if r = some p then 1 else 0 := by
    intro p
    rw [← held_apply]
    exact hm.count p
  refine ⟨fun hr p => ?_, fun ip hr => ⟨?_, fun p hp => ?_⟩, hm.ident⟩
  · rw [hcount p, hr, if_neg (by simp), add_zero]
  · rw [hcount ip, if_pos hr]
  · rw [hcount p, hr, if_neg (by simpa using Ne.symm hp), add_zero]

end

/-- `name_to_i` from the root of `treeDisk`, with nothing else in memory. -/
def treeWalk (path : List (BitVec 8)) :
    Res ((Option Ptr × List (BitVec 8) × Superblock × Inodes) × (Nat → Sector)) :=
  (inodeNamex blankSb 3 rootOnly .root path false (List.replicate nameLongMax 0)).run Files.treeDisk

/-- A walk to `/A/B` keeps a reference to `B`, and one to `/A/C`, which does not exist, keeps none. -/
theorem namex_balance_tree :
    (∃ name' sb' t' d', treeWalk [47, 65, 47, 66] = .ok ((some (.slot 1), name', sb', t'), d') ∧
      (t'.entry 1).ref = 1 ∧ ∀ p, p ≠ .slot 1 → (t'.deref p).ref = (rootOnly.deref p).ref) ∧
    ∃ name' sb' t' d', treeWalk [47, 65, 47, 67] = .ok ((none, name', sb', t'), d') ∧
      ∀ p, (t'.deref p).ref = (rootOnly.deref p).ref := by
  constructor
  · have hx : ((treeWalk [47, 65, 47, 66]).toOption.any fun r =>
        decide (r.1.1 = some (.slot 1))) = true := by decide +kernel
    obtain ⟨⟨⟨r, name', sb', t'⟩, d'⟩, hrun, hr⟩ := Res.exists_ok_of_any hx
    cases of_decide_eq_true hr
    exact ⟨name', sb', t', d', hrun, (namex_balance hrun).2.1 _ rfl⟩
  · have hx : ((treeWalk [47, 65, 47, 67]).toOption.any fun r => decide (r.1.1 = none)) = true := by
      decide +kernel
    obtain ⟨⟨⟨r, name', sb', t'⟩, d'⟩, hrun, hr⟩ := Res.exists_ok_of_any hx
    cases of_decide_eq_true hr
    exact ⟨name', sb', t', d', hrun, (namex_balance hrun).1 rfl⟩

/-! ## `fat32_inode_create` -/

section
variable {sb sb' : Superblock} {fuel : Nat} {d d' : Nat → Sector} {t t' : Inodes} {dp : Ptr}
  {type : IType} {fileName fileExt : List (BitVec 8)} {i : Fin nentry}

/-- The lookup holds the directory and the inode that it finds. -/
theorem createLookup_moves {cwd : Ptr} {path name : List (BitVec 8)} {nm : CStr}
    {found : Option (Fin nentry)}
    (h : (createLookup sb fuel t cwd path name).run d = .ok ((some (dp, nm, found), sb', t'), d')) :
    refs.Moves t t' (held (some dp) + held (found.map .slot)) := by
  obtain ⟨⟨r, name₁, sb₁, t₁⟩, d₁, hwalk, h⟩ := Prog.run_bind_eq_ok.1 h
  cases r with
  | none => cases h
  | some dp₁ =>
    obtain ⟨t₂, d₂, hlock, h⟩ := Prog.run_bind_eq_ok.1 h
    obtain ⟨⟨ip, t₃⟩, d₃, hlook, hlast⟩ := Prog.run_bind_eq_ok.1 h
    cases hlast
    have hdp := (namex_moves hwalk).same (held_nonneg _) (lock_moves hlock)
    have hall := hdp.trans (held_nonneg _) (dirlookup_moves hlook)
    rwa [Option.map_map]

/-- `fat32_inode_alloc` sets the count of the inode that it got. -/
theorem alloc_ref {name : CStr}
    (h : (fat32InodeAlloc sb fuel t dp name type fileName fileExt).run d = .ok ((i, sb', t'), d'))
    (q : Ptr) : (t'.deref q).ref = if q = .slot i then 1 else (t.deref q).ref := by
  obtain ⟨⟨fcbCnt, fcb, sb₁⟩, d₁, -, h⟩ := Prog.run_bind_eq_ok.1 h
  obtain ⟨fcbChar, d₂, -, h⟩ := Prog.run_bind_eq_ok.1 h
  obtain ⟨offset, d₃, -, h⟩ := Prog.run_bind_eq_ok.1 h
  obtain ⟨⟨tot, sb₂, dir⟩, d₄, hwrite, h⟩ := Prog.run_bind_eq_ok.1 h
  dsimp only at h
  split at h
  · obtain ⟨fatNum, d₅, -, h⟩ := Prog.run_bind_eq_ok.1 h
    obtain ⟨⟨j, t₁⟩, d₆, hlift, hlast⟩ := Prog.run_bind_eq_ok.1 h
    obtain ⟨hget, -⟩ := Prog.run_lift_eq_ok.1 hlift
    cases hlast
    rw [Inodes.deref_store]
    split
    case isTrue => rfl
    case isFalse hq =>
      have hwritten : WrittenTo t _ dp := ⟨dir, inodeWrite_same hwrite, rfl⟩
      have hm := hwritten.moves.trans le_rfl (get_moves hget)
      have hc : (t₁.deref q).ref = (t.deref q).ref + _ := hm.count q
      rw [hc, Pi.add_apply, held_apply, if_neg (by simpa using Ne.symm hq)]
      simp
  · cases h

theorem writeDot_written {name : CStr} {off : Nat} {bytes : List (BitVec 8)}
    (h : (writeDot sb fuel t i name off fileName fileExt).run d = .ok ((bytes, sb', t'), d')) :
    WrittenTo t t' (.slot i) := by
  obtain ⟨⟨cnt, fcb, sb₁⟩, d₁, -, h⟩ := Prog.run_bind_eq_ok.1 h
  obtain ⟨chars, d₂, -, h⟩ := Prog.run_bind_eq_ok.1 h
  obtain ⟨⟨tot, sb₂, ip⟩, d₃, hwrite, h⟩ := Prog.run_bind_eq_ok.1 h
  dsimp only at h
  split at h
  · cases h
    exact ⟨ip, inodeWrite_same hwrite, rfl⟩
  · cases h

theorem writeDots_moves {dots : List (List (BitVec 8))}
    (h : (writeDots sb fuel t i fileName fileExt).run d = .ok ((dots, sb', t'), d')) :
    refs.Moves t t' 0 := by
  obtain ⟨⟨dot, sb₁, t₁⟩, d₁, hdot, h⟩ := Prog.run_bind_eq_ok.1 h
  obtain ⟨⟨dotdot, sb₂, t₂⟩, d₂, hdotdot, hlast⟩ := Prog.run_bind_eq_ok.1 h
  cases hlast
  exact (writeDot_written hdot).moves.same le_rfl (writeDot_written hdotdot).moves

theorem createNew_ref {name : CStr} {dots : List (List (BitVec 8))}
    (h : (createNew sb fuel t dp name type fileName fileExt).run d = .ok ((i, dots, sb', t'), d'))
    (q : Ptr) : (t'.deref q).ref =
      (if q = .slot i then 1 else (t.deref q).ref) - if q = dp then 1 else 0 := by
  obtain ⟨⟨j, sb₁, t₁⟩, d₁, halloc, h⟩ := Prog.run_bind_eq_ok.1 h
  obtain ⟨t₂, d₂, hlock, h⟩ := Prog.run_bind_eq_ok.1 h
  obtain ⟨u, d₃, -, h⟩ := Prog.run_bind_eq_ok.1 h
  obtain ⟨⟨dots₁, sb₃, t₃⟩, d₄, hdots, h⟩ := Prog.run_bind_eq_ok.1 h
  obtain ⟨⟨sb₄, t₄⟩, d₅, hput, hlast⟩ := Prog.run_bind_eq_ok.1 h
  cases hlast
  have hmid : refs.Moves t₁ t₃ 0 := by
    have hset := (lock_moves hlock).same le_rfl (store_moves_same (t := t₂) (p := .slot i)
      (e := { t₂.entry i with iNlink := 1, iType := type }) rfl rfl)
    split at hdots
    · obtain ⟨⟨dots₂, sb₅, t₅⟩, d₆, hwrite, hdots⟩ := Prog.run_bind_eq_ok.1 hdots
      obtain ⟨u, d₇, -, hlast⟩ := Prog.run_bind_eq_ok.1 hdots
      cases hlast
      exact hset.same le_rfl (writeDots_moves hwrite)
    · cases hdots
      exact hset
  have hc : (t'.deref q).ref = (t₁.deref q).ref + _ :=
    (hmid.trans le_rfl (unlockPut_moves hput)).count q
  rw [hc, alloc_ref halloc q, zero_add, Pi.neg_apply, held_apply, ← sub_eq_add_neg]
  simp only [Option.some.injEq, eq_comm]

/-- The caller has got a reference to entry `i` and none was taken from the directory; a put leaves a
count that is not negative. -/
structure HandsOver (t t' : Inodes) (dp : Ptr) (i : Fin nentry) : Prop where
  ref : (t'.entry i).ref = (t.entry i).ref + 1
  pos : 1 ≤ (t'.entry i).ref
  parent : (t'.deref dp).ref = (t.deref dp).ref
  put : ∀ sb fuel d sb₁ t₁ d₁, (fat32InodePut sb fuel t' (.slot i)).run d = .ok ((sb₁, t₁), d₁) →
    0 ≤ (t₁.entry i).ref

/-- A put after a count of at least 1. -/
theorem put_nonneg (hpos : 1 ≤ (t.entry i).ref)
    (h : (fat32InodePut sb fuel t (.slot i)).run d = .ok ((sb', t'), d')) : 0 ≤ (t'.entry i).ref := by
  have hc : (t'.deref (.slot i)).ref = (t.deref (.slot i)).ref + _ := (put_moves h).count (.slot i)
  rw [Pi.neg_apply, held_apply, if_pos rfl] at hc
  simp only [Inodes.deref_slot] at hc
  omega

/-- The name exists: the reference that the lookup took is dropped again. -/
theorem createExisting_moves {sb₁ : Superblock} {t₀ t₁ t₂ : Inodes} {d₁ d₂ : Nat → Sector}
    (h₀ : refs.Moves t₀ t (held (some dp) + held (some (.slot i))))
    (hput : (fat32InodeUnlockPut sb fuel t dp).run d = .ok ((sb₁, t₁), d₁))
    (hlock : (fat32InodeLock sb₁ fuel t₁ (.slot i)).run d₁ = .ok (t₂, d₂))
    (hlast : (fat32InodeUnlockPut sb₁ fuel t₂ (.slot i)).run d₂ = .ok ((sb', t'), d')) :
    refs.Moves t₀ t' 0 := by
  have h₁ := h₀.drop (held_nonneg _) (unlockPut_moves hput)
  have h₂ := h₁.same (held_nonneg _) (lock_moves hlock)
  rw [← add_zero (held (some (Ptr.slot i)))] at h₂
  exact h₂.drop le_rfl (unlockPut_moves hlast)

/-- Every call that returns an inode: the name did not exist and the new inode is in an entry that
was free, other than that of the directory, exactly when the caller gets a reference. -/
theorem create_held_iff {cwd : Ptr} {path name : List (BitVec 8)} {dots : List (List (BitVec 8))}
    (h : (fat32InodeCreate sb fuel t cwd path type name fileName fileExt).run d =
      .ok ((some i, dots, sb', t'), d')) :
    ∃ dp nm found sb₁ t₁ d₁,
      (createLookup sb fuel t cwd path name).run d = .ok ((some (dp, nm, found), sb₁, t₁), d₁) ∧
      (HandsOver t t' dp i ↔ found = none ∧ (t.entry i).ref = 0 ∧ dp ≠ .slot i) := by
  obtain ⟨⟨r, sb₁, t₁⟩, d₁, hlook, h⟩ := Prog.run_bind_eq_ok.1 h
  cases r with
  | none => cases h
  | some x =>
    obtain ⟨dp, nm, found⟩ := x
    refine ⟨dp, nm, found, sb₁, t₁, d₁, hlook, ?_⟩
    have hm := createLookup_moves hlook
    cases found with
    | some j =>
      obtain ⟨⟨sb₂, t₂⟩, d₂, hput, h⟩ := Prog.run_bind_eq_ok.1 h
      obtain ⟨t₃, d₃, hlock, h⟩ := Prog.run_bind_eq_ok.1 h
      obtain ⟨⟨sb₄, t₄⟩, d₄, hdrop, hlast⟩ := Prog.run_bind_eq_ok.1 h
      cases hlast
      have hsame : (t'.entry i).ref = (t.entry i).ref + 0 :=
        (createExisting_moves hm hput hlock hdrop).count (.slot i)
      constructor
      · intro hh
        have := hh.ref
        omega
      · rintro ⟨hf, -⟩
        cases hf
    | none =>
      obtain ⟨⟨j, dots₁, sb₂, t₂⟩, d₂, hnew, hlast⟩ := Prog.run_bind_eq_ok.1 h
      cases hlast
      have hnew := createNew_ref hnew
      have hi : (t'.entry i).ref = 1 - if Ptr.slot i = dp then 1 else 0 := by
        simpa using hnew (.slot i)
      have hdp : (t₁.deref dp).ref = (t.deref dp).ref + 1 := by
        have hc : (t₁.deref dp).ref = (t.deref dp).ref + _ := hm.count dp
        rw [hc, Pi.add_apply, held_apply, if_pos rfl]
        simp [held]
      constructor
      · intro hh
        have hne : dp ≠ .slot i := by
          intro he
          have hpos := hh.pos
          rw [hi, if_pos he.symm] at hpos
          omega
        have href := hh.ref
        rw [hi, if_neg hne.symm] at href
        exact ⟨rfl, by omega, hne⟩
      · rintro ⟨-, h0, hne⟩
        rw [if_neg hne.symm] at hi
        have hpos : 1 ≤ (t'.entry i).ref := by omega
        refine ⟨by omega, hpos, ?_, fun _ _ _ _ _ _ hput => put_nonneg hpos hput⟩
        rw [hnew dp, if_neg hne, if_pos rfl, hdp]
        omega

end

/-- A root with two deleted entries, the second of a directory with first cluster `c`. -/
def deletedDisk (c : BitVec 8) (sec : Nat) : Sector :=
  if sec = 8 then [2, 3].foldl (fun d c => setDword d (4 * c) eoc) fun _ => 0
  else if sec = 9 then sectorOf (Files.letterEntry 0xE5 0x20 0 ++ Files.letterEntry 0xE5 0x10 c)
  else fun _ => 0

/-- `fat32_inode_create` from a root with nothing else in memory. -/
def createAt (disk : Nat → Sector) (path : List (BitVec 8)) (type : IType) :
    Res ((Option (Fin nentry) × List (List (BitVec 8)) × Superblock × Inodes) × (Nat → Sector)) :=
  (fat32InodeCreate blankSb 3 rootOnly .root path type (List.replicate nameLongMax 0)
    (List.replicate 16 0) (List.replicate 4 0)).run disk

/-- The lookup of `fat32_inode_create` there. -/
def lookupAt (disk : Nat → Sector) (path : List (BitVec 8)) :
    Res ((Option (Ptr × CStr × Option (Fin nentry)) × Superblock × Inodes) × (Nat → Sector)) :=
  (createLookup blankSb 3 rootOnly .root path (List.replicate nameLongMax 0)).run disk

/-- A new file `/N`. -/
theorem create_held_new : ∃ dots sb' t' d',
    createAt (deletedDisk 3) [47, 78] .file = .ok ((some 0, dots, sb', t'), d') ∧
      HandsOver rootOnly t' .root 0 := by
  have hx : ((createAt (deletedDisk 3) [47, 78] .file).toOption.any fun r =>
      decide (r.1.1 = some 0)) = true := by decide +kernel
  obtain ⟨⟨⟨r, dots, sb', t'⟩, d'⟩, hrun, hr⟩ := Res.exists_ok_of_any hx
  cases of_decide_eq_true hr
  obtain ⟨dp, nm, found, sb₁, t₁, d₁, hlook, hiff⟩ := create_held_iff hrun
  have hy : ((lookupAt (deletedDisk 3) [47, 78]).toOption.any fun r =>
      decide (r.1.1.map (fun x => (x.1, x.2.2)) = some (.root, none))) = true := by decide +kernel
  obtain ⟨a, ha, hr⟩ := Res.exists_ok_of_any hy
  cases hlook.symm.trans ha
  obtain ⟨rfl, rfl⟩ : dp = .root ∧ found = none := by simpa using of_decide_eq_true hr
  exact ⟨dots, sb', t', d', hrun, hiff.2 ⟨rfl, rfl, by simp⟩⟩

/-- `fat32_inode_create("/X")` for the file `X`, which exists: the inode that it returns has no
reference, and a put makes the count negative. -/
theorem create_existing_dropped : ∃ dots sb' t' d',
    createAt Files.treeDisk [47, 88] .file = .ok ((some 0, dots, sb', t'), d') ∧
      (t'.entry 0).ref = 0 ∧ ¬ HandsOver rootOnly t' .root 0 ∧
      ∃ sb₁ t₁ d₁, (fat32InodePut sb' 3 t' (.slot 0)).run d' = .ok ((sb₁, t₁), d₁) ∧
        (t₁.entry 0).ref = -1 := by
  have hx : ((createAt Files.treeDisk [47, 88] .file).toOption.any fun r =>
      decide (r.1.1 = some 0 ∧ (r.1.2.2.2.entry 0).ref = 0) &&
        ((fat32InodePut r.1.2.2.1 3 r.1.2.2.2 (.slot 0)).run r.2).toOption.any fun r =>
          decide ((r.1.2.entry 0).ref = -1)) = true := by decide +kernel
  obtain ⟨⟨⟨r, dots, sb', t'⟩, d'⟩, hrun, hr⟩ := Res.exists_ok_of_any hx
  obtain ⟨hr, hput⟩ := Bool.and_eq_true_iff.1 hr
  obtain ⟨h0, href⟩ := of_decide_eq_true hr
  obtain ⟨⟨⟨sb₁, t₁⟩, d₁⟩, hput, hneg⟩ := Res.exists_ok_of_any hput
  cases h0
  refine ⟨dots, sb', t', d', hrun, href, fun hh => ?_, sb₁, t₁, d₁, hput, of_decide_eq_true hneg⟩
  have hpos := hh.pos
  dsimp only at href
  omega

end Fs
