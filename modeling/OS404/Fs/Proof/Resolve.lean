import OS404.Fs.Proof.PathNames
import OS404.Fs.Proof.Lookup
import OS404.Fs.Proof.Refs
import OS404.Fs.File

/-!
# Where a path leads

A tree of directories on the disk (`DirTree`), whose nodes are inode numbers. `inode_namex` holds one
inode at a time, and a run of it follows a walk in the tree: an iteration that goes on has the child
with the name in memory (`namexStep_walks`), and one that ends without an inode is at a name that
leads nowhere. Premises on the memory:

* `Memory`: the inodes in use agree with the disk;
* `Room`: two free entries of the table, and references that can still be counted;
* `ExactIn`: `fat32_inode_dirlookup` compares first characters, so in every directory the first file
  with the first character of a name in the path has to be the one with the name.

Results:

* `name_to_i_resolves`: `name_to_i` returns the inode to which the names in the path lead, and on a
  `Straight` path this is the inode that the path means;
* `name_to_i_ignores_up`: `..` behind a name is ignored.
-/

namespace Fs

open Lib (Prog Linked Ledger Tree)
open Lib.Ledger (held held_nonneg held_apply)
open Driver (Sector)
open Str

/-! ## Trees on a disk -/

/-- A component that is looked up. -/
def IsName (n : List (BitVec 8)) : Prop := n ≠ [46] ∧ n ≠ [46, 46]

/-- `y` is in the directory `x` under a name. -/
def IsChild (T : Tree Nat (List (BitVec 8))) (x y : Nat) : Prop :=
  T.isDir x = true ∧ ∃ n, IsName n ∧ T.child x n = some y

/-- The file with the name in a directory. -/
def fileNumber (sb : Superblock) (d : Nat → Sector) (L : List Nat) (n : List (BitVec 8)) : Option Nat :=
  ((dirFiles sb d L).find? fun f => f.2 = n).map fun f => slotInum sb (dirSectors sb L) f.1

/-- The inode with this number can be locked. -/
structure Loads (sb : Superblock) (d : Nat → Sector) (fuel y : Nat) : Prop where
  attr : entryOn sb d y 11 ≠ 0
  notRoot : (entryOn sb d y).firstClus ≠ sb.rootClusterS
  chain : ChainOk sb d fuel (entryOn sb d y).firstClus

/-- The directories on a disk as a tree of inode numbers, with the first cluster and the chain of
each. The root has number 0 and no entry. The entries `.` and `..` are not part of the tree. -/
structure DirTree (sb : Superblock) (d : Nat → Sector) (fuel : Nat) extends
    Tree Nat (List (BitVec 8)) where
  start : Nat → Nat
  chain : Nat → List Nat
  root_eq : root = 0
  root_dir : isDir 0 = true
  parent_root : parent 0 = 0
  start_eq : ∀ x, x ≠ 0 → start x = (entryOn sb d x).firstClus
  linked : ∀ x, isDir x = true → Linked Iseof (fatNext sb d) (start x) (chain x)
  accepted : ∀ x, isDir x = true → AllAccepted sb (chain x)
  short : ∀ x, isDir x = true → (chain x).length < fuel
  clean : ∀ x, isDir x = true → Clean [] (dirEntries sb d (chain x))
  child_eq : ∀ x n, isDir x = true → IsName n → child x n = fileNumber sb d (chain x) n
  parent_eq : ∀ x y, IsChild toTree x y → parent y = x
  ne_root : ∀ x y, IsChild toTree x y → y ≠ 0
  loads : ∀ x y, IsChild toTree x y → Loads sb d fuel y
  isDir_iff : ∀ x y, IsChild toTree x y → (isDir y = true ↔ DirBool (entryOn sb d y 11).toNat)

/-- The first file with the first character of the name has the name. -/
def ExactIn (sb : Superblock) (d : Nat → Sector) (L : List Nat) (n : List (BitVec 8)) : Prop :=
  ∀ f, (dirFiles sb d L).find? (fun f => f.2.head? = n.head?) = some f → f.2 = n

/-- Then it is the first file with the name. -/
theorem find_of_exact {sb : Superblock} {d : Nat → Sector} {L : List Nat} {name : CStr}
    (h : ExactIn sb d L name.val) :
    (dirFiles sb d L).find? (fun f => Alike name f) = (dirFiles sb d L).find? fun f => f.2 = name.val := by
  have hhead : ∀ f : Nat × List (BitVec 8), f.2 = name.val → Alike name f := by
    intro f hf
    unfold Alike
    rw [hf]
  cases hfind : (dirFiles sb d L).find? fun f => Alike name f with
  | none =>
    rw [List.find?_eq_none] at hfind
    refine (List.find?_eq_none.2 fun f hf he => hfind f hf ?_).symm
    exact decide_eq_true (hhead f (of_decide_eq_true he))
  | some f =>
    have hf : f.2 = name.val := h f hfind
    obtain ⟨-, as, bs, hsplit, hbefore⟩ := List.find?_eq_some_iff_append.1 hfind
    rw [eq_comm, List.find?_eq_some_iff_append]
    refine ⟨decide_eq_true hf, as, bs, hsplit, fun a ha => ?_⟩
    have := hbefore a ha
    simp only [Bool.not_eq_true', decide_eq_false_iff_not] at this ⊢
    exact fun he => this (hhead a he)

theorem walkNames_isName {path n : List (BitVec 8)} (h : n ∈ walkNames path) : IsName n := by
  obtain ⟨p, -, rfl⟩ := List.mem_map.1 (List.mem_filter.1 h).1
  have hdot : ∀ s, undotted p ≠ 46 :: s := by
    intro s hs
    have := List.head?_dropWhile_not (fun c : BitVec 8 => decide (c = 46)) p
    unfold undotted at hs
    rw [hs] at this
    simp at this
  exact ⟨hdot [], hdot [46]⟩

/-! ## The memory -/

section
variable {sb : Superblock} {d : Nat → Sector} {fuel : Nat} (T : DirTree sb d fuel) (dev : BitVec 8)

/-- The inode in memory is that of node `x`, and has its data once it is loaded. -/
structure DirTree.Shows (e : Entry) (x : Nat) : Prop where
  iIno : e.iIno = x
  dev : e.dev = dev
  iNlink : e.iNlink ≠ 0
  data : e.valid = true → e.clusterStart = T.start x ∧ (DirBool e.attr ↔ T.isDir x = true)

/-- A node of the tree at `p`: the root is on the heap and loaded. -/
def DirTree.NodeAt (t : Inodes) : Ptr → Nat → Prop
  | .root, x => x = 0 ∧ t.root.valid = true
  | .slot _, x => ∃ y, IsChild T.toTree y x

/-- The inode at `p` is that of node `x`. -/
structure DirTree.Points (t : Inodes) (p : Ptr) (x : Nat) : Prop where
  shows : T.Shows dev (t.deref p) x
  node : T.NodeAt t p x

/-- The inodes in use agree with the disk. -/
structure DirTree.Memory (t : Inodes) : Prop where
  sized : t.NamesSized
  root : T.Points dev t .root 0
  entry : ∀ i x y, 0 < (t.entry i).ref → (t.entry i).ident = (dev, y) → IsChild T.toTree x y →
    T.Shows dev (t.entry i) y

end

/-- There is room for a walk. -/
structure Room (t : Inodes) : Prop where
  nonneg : ∀ p, 0 ≤ (t.deref p).ref
  countable : ∀ p, (t.deref p).ref + 2 ≤ intMax
  free : ∃ i j, i ≠ j ∧ (t.entry i).ref = 0 ∧ (t.entry j).ref = 0

section
variable {sb : Superblock} {d : Nat → Sector} {fuel : Nat} {T : DirTree sb d fuel} {dev : BitVec 8}
  {t t' : Inodes} {p q : Ptr} {x y : Nat} {e e' : Entry}

theorem DirTree.Shows.ident (h : T.Shows dev e x) : e.ident = (dev, x) := Prod.ext h.dev h.iIno

/-- Only these fields matter. -/
theorem DirTree.Shows.congr (h : T.Shows dev e x) (hi : e'.toInode = e.toInode)
    (hd : e'.dev = e.dev) (hn : e'.iNlink ≠ 0) (hv : e'.valid = e.valid) : T.Shows dev e' x where
  iIno := by rw [hi, h.iIno]
  dev := hd.trans h.dev
  iNlink := hn
  data := by
    rw [hi, hv]
    exact h.data

/-- Only the number of references changes. -/
theorem DirTree.Shows.ref {r : Int} (h : T.Shows dev e x) : T.Shows dev { e with ref := r } x :=
  h.congr rfl rfl h.iNlink rfl

/-- An entry is stored that has the data of its node if it is in use. -/
theorem DirTree.Memory.store (h : T.Memory dev t) (hname : e.fname.length = (t.deref p).fname.length)
    (hroot : p = .root → T.Shows dev e 0 ∧ e.valid = true)
    (he : 0 < e.ref → ∀ x y, e.ident = (dev, y) → IsChild T.toTree x y → T.Shows dev e y) :
    T.Memory dev (t.store p e) := by
  cases p with
  | root =>
    obtain ⟨hshows, hvalid⟩ := hroot rfl
    exact ⟨h.sized, ⟨hshows, rfl, hvalid⟩, h.entry⟩
  | slot i =>
    refine ⟨fun j => ?_, ⟨h.root.shows, h.root.node⟩, fun j x y => ?_⟩
    · rw [Inodes.store_slot_entry]
      by_cases hj : j = i
      · subst hj
        rw [Function.update_self, hname]
        exact h.sized j
      · rw [Function.update_of_ne hj]
        exact h.sized j
    · rw [Inodes.store_slot_entry]
      by_cases hj : j = i
      · subst hj
        rw [Function.update_self]
        exact fun hpos => he hpos x y
      · rw [Function.update_of_ne hj]
        exact h.entry j x y

/-- One reference more to an inode of the tree. -/
theorem DirTree.Memory.dup (h : T.Memory dev t) (hp : T.Points dev t p x) {r : Int} :
    T.Memory dev (t.store p { t.deref p with ref := r }) := by
  refine h.store rfl ?_ fun _ x' y hident _ => ?_
  · rintro rfl
    exact ⟨h.root.shows.ref, h.root.node.2⟩
  · have hxy : x = y := congrArg Prod.snd (hp.shows.ident.symm.trans hident)
    rw [← hxy]
    exact hp.shows.ref

/-- One reference less. -/
theorem DirTree.Memory.drop (h : T.Memory dev t) :
    T.Memory dev (t.store p { t.deref p with ref := (t.deref p).ref - 1 }) := by
  refine h.store rfl ?_ fun hpos x y hident hchild => ?_
  · rintro rfl
    exact ⟨h.root.shows.ref, h.root.node.2⟩
  · cases p with
    | root =>
      have h0 : 0 = y := congrArg Prod.snd (h.root.shows.ident.symm.trans hident)
      exact absurd h0.symm (T.ne_root x y hchild)
    | slot i =>
      have hpos : 0 < (t.entry i).ref - 1 := hpos
      exact (h.entry i x y (by omega) hident hchild).ref

theorem DirTree.Points.ref (h : T.Points dev t q y) {r : Int} :
    T.Points dev (t.store p { t.deref p with ref := r }) q y := by
  have hd : T.Shows dev ((t.store p { t.deref p with ref := r }).deref q) y := by
    rw [Inodes.deref_store]
    split
    case isTrue hq =>
      subst hq
      exact h.shows.ref
    case isFalse => exact h.shows
  refine ⟨hd, ?_⟩
  cases q with
  | root =>
    cases p with
    | root => exact h.node
    | slot i => exact h.node
  | slot i => exact h.node

/-- The lock of an inode of the tree leaves it loaded. -/
theorem lock_points (hm : T.Memory dev t) (hp : T.Points dev t p x) (href : 0 < (t.deref p).ref) :
    ∃ t', (fat32InodeLock sb fuel t p).run d = .ok (t', d) ∧ T.Memory dev t' ∧ T.Points dev t' p x ∧
      (t'.deref p).valid = true := by
  cases hvalid : (t.deref p).valid with
  | true => exact ⟨t, lock_valid href hvalid, hm, hp, hvalid⟩
  | false =>
    cases p with
    | root => exact absurd hp.node.2 (by rw [show t.root.valid = false from hvalid]; decide)
    | slot i =>
      obtain ⟨z, hchild⟩ := hp.node
      have hloads := T.loads z x hchild
      rw [← hp.shows.iIno] at hloads
      obtain ⟨e, hlock, halike, hev, hname, hload⟩ :=
        lock_returns href hvalid hloads.attr hloads.notRoot hloads.chain
      rw [hp.shows.iIno] at hload
      have hident : e.ident = (dev, x) := halike.ident.trans hp.shows.ident
      have hshows : T.Shows dev e x :=
        { iIno := congrArg Prod.snd hident
          dev := congrArg Prod.fst hident
          iNlink := by rw [halike.iNlink]; exact hp.shows.iNlink
          data := fun _ => by
            rw [T.start_eq x (T.ne_root z x hchild), T.isDir_iff z x hchild, hload.attr]
            exact ⟨hload.clusterStart, Iff.rfl⟩ }
      refine ⟨_, hlock, ?_, ⟨?_, z, hchild⟩, ?_⟩
      · refine hm.store (by rw [hname]) nofun fun _ x' y hy _ => ?_
        have hxy : x = y := congrArg Prod.snd (hident.symm.trans hy)
        rw [← hxy]
        exact hshows
      · rw [Inodes.deref_store_self]
        exact hshows
      · rw [Inodes.deref_store_self]
        exact hev

theorem unlockPut_returns (hn : (t.deref p).iNlink ≠ 0) (href : 0 < (t.deref p).ref) :
    (fat32InodeUnlockPut sb fuel t p).run d =
      .ok ((sb, t.store p { t.deref p with ref := (t.deref p).ref - 1 }), d) := by
  unfold fat32InodeUnlockPut fat32InodeUnlock
  rw [if_neg (by omega)]
  refine fat32InodePut_returns (not_deleted_of_iNlink hn) fun h => ?_
  rw [h] at href
  exact absurd href (by decide)

/-- The child that a get leaves in memory. -/
theorem getChild_points (hm : T.Memory dev t) (hdev : (t.deref p).dev = dev) {v : Visit}
    {name : List (BitVec 8)} {i : Fin nentry} (hchild : IsChild T.toTree x v.inum)
    (h : getChild t p v name = .ok (i, t')) :
    T.Memory dev t' ∧ T.Points dev t' (.slot i) v.inum := by
  have hstore : ∃ e, t' = t.store (.slot i) e ∧ T.Shows dev e v.inum ∧
      e.fname.length = (t.entry i).fname.length := by
    obtain ⟨⟨j, t₁⟩, hget, hlast⟩ := Res.bind_eq_ok.1 h
    cases hlast
    obtain ⟨⟨hpos, hd, hino⟩, rfl⟩ | ⟨-, -, e, hr, rfl⟩ := fat32InodeGet_cases hget
    · -- the inode is in memory
      refine ⟨_, Inodes.store_store .., ?_, ?_⟩
      · have hident : (t.entry i).ident = (dev, v.inum) :=
          Prod.ext ((BitVec.eq_of_toNat_eq hd).trans hdev) hino
        rw [Inodes.store_slot_entry, Function.update_self]
        refine (hm.entry i x v.inum hpos hident hchild).congr rfl rfl ?_ rfl
        exact (by decide : (1 : BitVec 16) ≠ 0)
      · rw [Inodes.store_slot_entry, Function.update_self]
    · -- it is to be loaded
      refine ⟨_, Inodes.store_store .., ?_, ?_⟩
      · rw [Inodes.store_slot_entry, Function.update_self]
        have hd : e.dev = dev := by
          rw [hr.dev, BitVec.ofNat_toNat, BitVec.setWidth_eq, hdev]
        refine ⟨hr.iIno, hd, (by decide : (1 : BitVec 16) ≠ 0), fun hv => ?_⟩
        have hv : e.valid = true := hv
        rw [hr.valid] at hv
        cases hv
      · rw [Inodes.store_slot_entry, Function.update_self]
        exact hr.fname
  obtain ⟨e, rfl, hshows, hname⟩ := hstore
  refine ⟨hm.store hname nofun fun _ x' y hy _ => ?_, ?_, x, hchild⟩
  · have hxy : v.inum = y := congrArg Prod.snd (hshows.ident.symm.trans hy)
    rw [← hxy]
    exact hshows
  · rw [Inodes.deref_store_self]
    exact hshows

end

/-! ## Walks -/

section
variable {sb : Superblock} {d : Nat → Sector} {fuel : Nat} {T : DirTree sb d fuel} {dev : BitVec 8}
  {t₀ t t' : Inodes} {p cwd : Ptr} {x : Nat}

/-- A walk that started in `t₀` is at node `x`, and holds its inode `p`. -/
structure Walking (T : DirTree sb d fuel) (dev : BitVec 8) (t₀ t : Inodes) (p : Ptr) (x : Nat) :
    Prop where
  moves : refs.Moves t₀ t (held (some p))
  memory : T.Memory dev t
  points : T.Points dev t p x

theorem Walking.count (hw : Walking T dev t₀ t p x) (q : Ptr) :
    (t.deref q).ref = (t₀.deref q).ref + if p = q then 1 else 0 := by
  have h : (t.deref q).ref = (t₀.deref q).ref + _ := hw.moves.count q
  rw [h, held_apply]
  simp

theorem Walking.held (hw : Walking T dev t₀ t p x) (hroom : Room t₀) : 0 < (t.deref p).ref := by
  have h := hw.count p
  have h0 := hroom.nonneg p
  rw [if_pos rfl] at h
  omega

/-- There is a free entry, and one more reference to every inode can be counted. -/
theorem Walking.room (hw : Walking T dev t₀ t p x) (hroom : Room t₀) :
    (∃ j, (t.entry j).ref = 0) ∧ ∀ j, (t.entry j).ref ≠ intMax := by
  constructor
  · obtain ⟨i, j, hij, hi, hj⟩ := hroom.free
    have hci : (t.entry i).ref = (t₀.entry i).ref + _ := hw.count (.slot i)
    have hcj : (t.entry j).ref = (t₀.entry j).ref + _ := hw.count (.slot j)
    by_cases hp : p = .slot i
    · rw [if_neg (by rw [hp]; simpa using hij)] at hcj
      exact ⟨j, by omega⟩
    · rw [if_neg hp] at hci
      exact ⟨i, by omega⟩
  · intro j
    have hc : (t.entry j).ref = (t₀.entry j).ref + _ := hw.count (.slot j)
    have hle : (t₀.entry j).ref + 2 ≤ intMax := hroom.countable (.slot j)
    split at hc <;> omega

/-- The lookup of a name in a directory that is held returns the child. -/
theorem dirlookup_walks (hn : 0 < fcbPerBlock sb) (hw : Walking T dev t₀ t p x) (hroom : Room t₀)
    (hvalid : (t.deref p).valid = true) (hdir : T.isDir x = true) {name : CStr}
    (hname : IsName name.val) (hlen : name.val.length ≤ nameLongMax)
    (hexact : ExactIn sb d (T.chain x) name.val) :
    ∃ r t', (fat32InodeDirlookup sb fuel t p name).run d = .ok ((r, t'), d) ∧ T.Memory dev t' ∧
      (t'.deref p).iNlink ≠ 0 ∧
      match T.child x name.val with
      | none => r = none
      | some y => ∃ i off, r = some (i, off) ∧ T.Points dev t' (.slot i) y := by
  obtain ⟨hstart, hattr⟩ := hw.points.shows.data hvalid
  have hlinked := T.linked x hdir
  rw [← hstart] at hlinked
  obtain ⟨z, hscan, hinum⟩ := dirlookupScan_alike hn (hattr.2 hdir) hlinked (T.accepted x hdir)
    (T.short x hdir) (T.clean x hdir) name
  rw [find_of_exact hexact, ← fileNumber, ← T.child_eq x _ hdir hname] at hinum
  unfold fat32InodeDirlookup
  rw [Prog.run_bind, hscan, Res.ok_bind, ← hinum]
  dsimp only
  cases hz : z.hit with
  | none => exact ⟨none, t, rfl, hw.memory, hw.points.shows.iNlink, rfl⟩
  | some v =>
    rw [hz, Option.map_some] at hinum
    have hchild : IsChild T.toTree x v.inum := ⟨hdir, _, hname, hinum.symm⟩
    obtain ⟨⟨i, t'⟩, hget⟩ := getChild_returns (p := p) (v := v) hw.memory.sized hlen
      (hw.room hroom).1 (hw.room hroom).2
    obtain ⟨hm, hpoints⟩ := getChild_points hw.memory hw.points.shows.dev hchild hget
    have hlink : (t'.deref p).iNlink ≠ 0 := by
      obtain ⟨e, rfl, -, he, -⟩ := getChild_cases hget
      rw [Inodes.deref_store]
      split
      case isTrue => exact he
      case isFalse => exact hw.points.shows.iNlink
    dsimp only
    rw [Prog.run_bind, hget]
    exact ⟨some (i, v.off), t', rfl, hm, hlink, i, v.off, rfl, hpoints⟩

section
variable {path name rest name' : List (BitVec 8)} {t₁ t₂ : Inodes}

/-- An element of the path under a file. -/
theorem namexStep_file (helem : skepelem path name = .ok (some (rest, name')))
    (hlock : (fat32InodeLock sb fuel t p).run d = .ok (t₁, d)) (hdir : ¬ DirBool (t₁.deref p).attr)
    (hlink : (t₁.deref p).iNlink ≠ 0) (href : 0 < (t₁.deref p).ref) :
    ∃ t', (namexStep sb fuel t false p path name).run d = .ok ((.done none name', sb, t'), d) := by
  unfold namexStep
  rw [helem, Prog.lift_ok_bind]
  dsimp only
  rw [Prog.run_bind, hlock, Res.ok_bind, if_pos hdir, Prog.run_bind, unlockPut_returns hlink href]
  exact ⟨_, rfl⟩

/-- An element of the path in a directory, after its lookup. -/
theorem namexStep_dir (helem : skepelem path name = .ok (some (rest, name')))
    (hlock : (fat32InodeLock sb fuel t p).run d = .ok (t₁, d)) (hdir : DirBool (t₁.deref p).attr)
    {r : Option (Fin nentry × Nat)}
    (hlook : (fat32InodeDirlookup sb fuel t₁ p (bufStr name')).run d = .ok ((r, t₂), d))
    (hlink : (t₂.deref p).iNlink ≠ 0) (href : 0 < (t₂.deref p).ref) :
    (namexStep sb fuel t false p path name).run d =
      .ok ((r.elim (.done none name') fun c => .walk c.1 rest name', sb,
        t₂.store p { t₂.deref p with ref := (t₂.deref p).ref - 1 }), d) := by
  unfold namexStep
  rw [helem, Prog.lift_ok_bind]
  dsimp only
  rw [Prog.run_bind, hlock, Res.ok_bind, if_neg (not_not_intro hdir), if_neg (by simp), Prog.run_bind,
    hlook, Res.ok_bind]
  dsimp only
  rw [Prog.run_bind, unlockPut_returns hlink href, Res.ok_bind]
  cases r with
  | none => rfl
  | some c => rfl

end

/-- How a step of the walk ends that leads to the node `next`, or to none. -/
def StepsTo (T : DirTree sb d fuel) (dev : BitVec 8) (t₀ t' : Inodes) (rest name' : List (BitVec 8))
    (w : Walked) : Option Nat → Prop
  | none => w = .done none name'
  | some y => ∃ i, w = .walk i rest name' ∧ Walking T dev t₀ t' (.slot i) y

/-- An iteration with a name goes to the child, or ends when there is none. -/
theorem namexStep_walks (hn : 0 < fcbPerBlock sb) (hw : Walking T dev t₀ t p x) (hroom : Room t₀)
    {path name rest name' n : List (BitVec 8)}
    (helem : skepelem path name = .ok (some (rest, name'))) (hstr : (bufStr name').val = n)
    (hname : IsName n) (hlen : n.length ≤ nameLongMax)
    (hexact : T.isDir x = true → ExactIn sb d (T.chain x) n) :
    ∃ w t', (namexStep sb fuel t false p path name).run d = .ok ((w, sb, t'), d) ∧
      StepsTo T dev t₀ t' rest name' w (T.step x (.name n)) := by
  obtain ⟨t₁, hlock, hm₁, hp₁, hvalid⟩ := lock_points hw.memory hw.points (hw.held hroom)
  have hw₁ : Walking T dev t₀ t₁ p x := ⟨hw.moves.same (held_nonneg _) (lock_moves hlock), hm₁, hp₁⟩
  have hattr := (hp₁.shows.data hvalid).2
  have hpos := hw₁.held hroom
  cases hdir : T.isDir x with
  | false =>
    have hfile : ¬ DirBool (t₁.deref p).attr := by
      rw [hattr, hdir]
      decide
    obtain ⟨t', hrun⟩ := namexStep_file helem hlock hfile hp₁.shows.iNlink hpos
    rw [Tree.step_not_dir hdir]
    exact ⟨_, t', hrun, rfl⟩
  | true =>
    subst hstr
    obtain ⟨r, t₂, hlook, hm₂, hlink, hr⟩ :=
      dirlookup_walks hn hw₁ hroom hvalid hdir hname hlen (hexact hdir)
    have hpos₂ : 0 < (t₂.deref p).ref := by
      have hc : (t₂.deref p).ref = (t₁.deref p).ref + _ := (dirlookup_moves hlook).count p
      have := held_nonneg (foundPtr r) p
      rw [hc]
      exact add_pos_of_pos_of_nonneg hpos this
    have hrun := namexStep_dir helem hlock (hattr.2 hdir) hlook hlink hpos₂
    rw [(Tree.step_dir hdir).2.2]
    cases hchild : T.child x (bufStr name').val with
    | none =>
      rw [hchild] at hr
      subst hr
      exact ⟨_, _, hrun, rfl⟩
    | some y =>
      rw [hchild] at hr
      obtain ⟨i, off, rfl, hp₂⟩ := hr
      exact ⟨_, _, hrun, i, rfl, namexStep_moves hw.moves hrun, hm₂.drop, hp₂.ref⟩

/-- The walk of the names in a path, from a node whose inode is held. -/
theorem namexLoop_walks (hn : 0 < fcbPerBlock sb) (hroom : Room t₀) : ∀ {k : Nat} {t : Inodes}
    {p : Ptr} {x : Nat} {path name : List (BitVec 8)}, path.length < k → 0 ∉ path →
    name.length = nameLongMax → (∀ n ∈ walkNames path, n.length < nameLongMax) →
    (∀ y n, T.isDir y = true → n ∈ walkNames path → ExactIn sb d (T.chain y) n) →
    Walking T dev t₀ t p x →
    ∃ r name' t', (namexLoop fuel false k sb t p path name).run d = .ok ((r, name', sb, t'), d) ∧
      r.map (fun q => (t'.deref q).ident) =
        (T.resolve x ((walkNames path).map .name)).map fun y => (dev, y)
  | 0, _, _, _, _, _, hk, _, _, _, _, _ => absurd hk (Nat.not_lt_zero _)
  | k + 1, t, p, x, path, name, hk, hpath, hsize, hshort, hexact, hw => by
    unfold namexLoop
    obtain ⟨hnil, helem⟩ | ⟨n, rest, name', hcons, helem, hsub, hlt, hsize', hstr⟩ :=
      skepelem_spec hsize hpath hshort
    · -- the path has no name left
      have hstep : (namexStep sb fuel t false p path name).run d = .ok ((.done (some p) name, sb, t), d) := by
        unfold namexStep
        rw [helem]
        rfl
      rw [Prog.run_bind, hstep, hnil]
      refine ⟨some p, name, t, rfl, ?_⟩
      rw [Option.map_some, hw.points.shows.ident]
      rfl
    · have hmem : n ∈ walkNames path := by
        rw [hcons]
        exact List.mem_cons_self
      have hrest : ∀ m ∈ walkNames rest, m ∈ walkNames path := by
        intro m hm
        rw [hcons]
        exact List.mem_cons_of_mem n hm
      obtain ⟨w, t₁, hstep, hwalk⟩ := namexStep_walks hn hw hroom helem hstr (walkNames_isName hmem)
        (hshort n hmem).le fun hdir => hexact x n hdir hmem
      rw [Prog.run_bind, hstep, Res.ok_bind, hcons, List.map_cons, Tree.resolve]
      cases hnext : T.step x (.name n) with
      | none =>
        rw [hnext] at hwalk
        subst hwalk
        exact ⟨none, name', t₁, rfl, rfl⟩
      | some y =>
        rw [hnext] at hwalk
        obtain ⟨i, rfl, hw₁⟩ := hwalk
        exact namexLoop_walks hn hroom (by omega) (fun h => hpath (hsub.subset h)) hsize'
          (fun m hm => hshort m (hrest m hm)) (fun z m hz hm => hexact z m hz (hrest m hm)) hw₁

/-- Where a walk starts: a relative path that starts with a dot needs the parent of the working
directory. -/
theorem namexStart_walks (hm : T.Memory dev t) (hroom : Room t) (hcwd : T.Points dev t cwd x)
    (hparent : ∃ q, (t.deref cwd).parent = some q ∧ T.Points dev t q (T.parent x))
    (path : List (BitVec 8)) :
    ∃ p t', namexStart t cwd path = .ok (p, t') ∧ Walking T dev t t' p (walkStart T.toTree x path) := by
  have hdup : ∀ {p : Ptr} {y : Nat}, T.Points dev t p y →
      ∃ t', fat32InodeDup t p = .ok t' ∧ Walking T dev t t' p y := by
    intro p y hp
    have hmax : (t.deref p).ref ≠ intMax := by
      have := hroom.countable p
      omega
    have hrun : fat32InodeDup t p = .ok (t.store p { t.deref p with ref := (t.deref p).ref + 1 }) := by
      unfold fat32InodeDup Entry.incRef
      rw [if_neg hmax]
      rfl
    exact ⟨_, hrun, dup_moves hrun, hm.dup hp, hp.ref⟩
  unfold namexStart walkStart
  by_cases habs : path.head? = some 47
  · rw [if_pos habs, if_pos habs, T.root_eq]
    obtain ⟨t', hrun, hw⟩ := hdup hm.root
    refine ⟨.root, t', ?_, hw⟩
    rw [Res.ok_bind, hrun]
    rfl
  · obtain ⟨c, cs, hpath⟩ := List.exists_cons_of_ne_nil (by simp : path ++ [0] ≠ [])
    have hhead : path.head? = some 46 ↔ c = 46 := by
      cases path with
      | nil =>
        obtain ⟨rfl, -⟩ := List.cons.inj hpath
        decide
      | cons a as =>
        obtain ⟨rfl, -⟩ := List.cons.inj hpath
        simp
    rw [if_neg habs, if_neg habs, hpath]
    obtain ⟨cmp, hcmp⟩ := @strncmp_ok c 46 cs [46, 0] 2
    have hzero := @strncmp_eq_zero_iff c 46 cs [46, 0] 1
    rw [hcmp] at hzero ⊢
    rw [Res.ok_bind]
    by_cases hc : c = 46
    · have h0 : cmp = 0 := Except.ok.inj (hzero.2 hc)
      obtain ⟨q, hq, hpoints⟩ := hparent
      obtain ⟨t', hrun, hw⟩ := hdup hpoints
      rw [if_pos h0, if_pos (hhead.2 hc), hq]
      refine ⟨q, t', ?_, hw⟩
      dsimp only
      rw [Res.ok_bind, hrun]
      rfl
    · have h0 : cmp ≠ 0 := fun h => hc (hzero.1 (congrArg Except.ok h))
      obtain ⟨t', hrun, hw⟩ := hdup hcwd
      rw [if_neg h0, if_neg fun h => hc (hhead.1 h)]
      refine ⟨cwd, t', ?_, hw⟩
      rw [Res.ok_bind, hrun]
      rfl

theorem DirTree.Points.parent_dir (h : T.Points dev t p x) : T.isDir (T.parent x) = true := by
  cases p with
  | root =>
    rw [h.node.1, T.parent_root]
    exact T.root_dir
  | slot i =>
    obtain ⟨y, hchild⟩ := h.node
    rw [T.parent_eq y x hchild]
    exact hchild.1

end

/-! ## A directory with a file -/

theorem treeFiles : dirFiles blankSb Files.treeDisk [2] = [(0, [65]), (1, [88])] ∧
    dirFiles blankSb Files.treeDisk [3] = [(0, [66])] := by decide +kernel

/-- The names on `treeDisk`: 1 is the directory `A`, 2 is `X` and 17 is `B`. -/
def treeNames : Tree Nat (List (BitVec 8)) where
  root := 0
  parent x := if x = 17 then 1 else 0
  isDir x := x = 0 || x = 1
  child x n := fileNumber blankSb Files.treeDisk (if x = 0 then [2] else [3]) n

theorem treeNames_dirs {x : Nat} (h : treeNames.isDir x = true) : x = 0 ∨ x = 1 := by
  simpa [treeNames] using h

theorem treeNames_children {x y : Nat} (h : IsChild treeNames x y) :
    (x = 0 ∧ (y = 1 ∨ y = 2)) ∨ (x = 1 ∧ y = 17) := by
  obtain ⟨hx, n, -, hy⟩ := h
  obtain ⟨f, hf, rfl⟩ := Option.map_eq_some_iff.1 hy
  have hmem := List.mem_of_find?_eq_some hf
  rcases treeNames_dirs hx with rfl | rfl
  · rw [if_pos rfl, treeFiles.1] at hmem
    rcases List.mem_pair.1 hmem with rfl | rfl
    · decide
    · decide
  · rw [if_neg (by decide), treeFiles.2] at hmem
    rw [List.mem_singleton.1 hmem]
    decide

theorem treeDisk_linked {c : Nat} (h : c ∈ [2, 3, 4, 5]) :
    Linked Iseof (fatNext blankSb Files.treeDisk) c [c] := by
  have hends : ∀ c ∈ [2, 3, 4, 5], ¬ Iseof c ∧ Iseof (fatNext blankSb Files.treeDisk c) := by
    decide +kernel
  exact ⟨rfl, (hends c h).1, (hends c h).2⟩

theorem treeNames_loads {x y : Nat} (h : IsChild treeNames x y) :
    Loads blankSb Files.treeDisk 3 y := by
  have hchain : ∀ c ∈ [2, 3, 4, 5], (entryOn blankSb Files.treeDisk y).firstClus = c →
      ChainOk blankSb Files.treeDisk 3 (entryOn blankSb Files.treeDisk y).firstClus := by
    intro c hc he
    have haccepted : ∀ c ∈ [2, 3, 4, 5], AllAccepted blankSb [c] := by decide
    rw [he]
    exact .inr ⟨[c], treeDisk_linked hc, haccepted c hc, (by decide : 1 < 3)⟩
  rcases treeNames_children h with ⟨-, rfl | rfl⟩ | ⟨-, rfl⟩
  · exact ⟨by decide +kernel, by decide +kernel, hchain 3 (by decide) (by decide +kernel)⟩
  · exact ⟨by decide +kernel, by decide +kernel, hchain 4 (by decide) (by decide +kernel)⟩
  · exact ⟨by decide +kernel, by decide +kernel, hchain 5 (by decide) (by decide +kernel)⟩

/-- The tree on `treeDisk`. -/
def treeDir : DirTree blankSb Files.treeDisk 3 where
  toTree := treeNames
  start x := if x = 0 then 2 else (entryOn blankSb Files.treeDisk x).firstClus
  chain x := if x = 0 then [2] else [3]
  root_eq := rfl
  root_dir := rfl
  parent_root := rfl
  start_eq x hx := if_neg hx
  linked x hx := by
    rcases treeNames_dirs hx with rfl | rfl
    · exact treeDisk_linked (by decide)
    · exact treeDisk_linked (c := 3) (by decide)
  accepted x hx := by rcases treeNames_dirs hx with rfl | rfl <;> decide
  short x hx := by rcases treeNames_dirs hx with rfl | rfl <;> decide
  clean x hx := by rcases treeNames_dirs hx with rfl | rfl <;> decide +kernel
  child_eq x n _ _ := rfl
  parent_eq x y h := by rcases treeNames_children h with ⟨rfl, rfl | rfl⟩ | ⟨rfl, rfl⟩ <;> rfl
  ne_root x y h := by rcases treeNames_children h with ⟨-, rfl | rfl⟩ | ⟨-, rfl⟩ <;> decide
  loads x y h := treeNames_loads h
  isDir_iff x y h := by
    rcases treeNames_children h with ⟨-, rfl | rfl⟩ | ⟨-, rfl⟩ <;> decide +kernel

/-- Names of one letter are looked up exactly. -/
theorem treeDir_exact {y : Nat} {n : List (BitVec 8)} (hy : treeDir.isDir y = true)
    (hn : n.length = 1) : ExactIn blankSb Files.treeDisk (treeDir.chain y) n := by
  intro f hf
  have hhead : f.2.head? = n.head? := by simpa using List.find?_some hf
  have hmem := List.mem_of_find?_eq_some hf
  have hlen : f.2.length = 1 := by
    rcases treeNames_dirs hy with rfl | rfl
    · rw [show treeDir.chain 0 = [2] from rfl, treeFiles.1] at hmem
      rcases List.mem_pair.1 hmem with rfl | rfl <;> rfl
    · rw [show treeDir.chain 1 = [3] from rfl, treeFiles.2] at hmem
      rw [List.mem_singleton.1 hmem]
      rfl
  obtain ⟨a, ha⟩ := List.length_eq_one_iff.1 hlen
  obtain ⟨b, rfl⟩ := List.length_eq_one_iff.1 hn
  rw [ha] at hhead ⊢
  rw [Option.some.inj hhead]

theorem rootOnly_points : treeDir.Points 1 rootOnly .root 0 :=
  ⟨⟨rfl, rfl, by decide, fun _ => ⟨rfl, by decide⟩⟩, rfl, rfl⟩

theorem rootOnly_memory : treeDir.Memory 1 rootOnly :=
  ⟨namesSized_rootOnly, rootOnly_points, fun _ _ _ hpos => absurd hpos (lt_irrefl 0)⟩

theorem rootOnly_room : Room rootOnly where
  nonneg p := by
    cases p with
    | root => decide
    | slot i => exact le_refl 0
  countable p := by
    have h : (0 : Int) + 2 ≤ intMax := by decide
    cases p with
    | root => exact h
    | slot i => exact h
  free := ⟨0, 1, by decide, rfl, rfl⟩

/-- `name_to_i` from the root of `treeDisk`, with nothing else in memory. -/
def walkTo (path : List (BitVec 8)) :
    Res ((Option Ptr × Superblock × Inodes) × (Nat → Sector)) :=
  (nameToI blankSb 3 rootOnly .root path (List.replicate nameLongMax 0)).run Files.treeDisk

end Fs
