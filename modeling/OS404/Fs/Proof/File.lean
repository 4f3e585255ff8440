import OS404.Fs.File
import OS404.Fs.Proof.Dirent
import OS404.Fs.Proof.Read

/-!
# Open files

* `findInode_cwd_iff`: a call of `find_inode` that returns leaves the working directory of the task
  unless the walk from the directory of an open file fails. Then the directory of that file stays the
  working directory (`findInode_cwd_moved`).
* `fileread_run`: what `fat32_fileread` returns, given the lock and the read that it makes.
* `fileread_slices_iff`: successive reads of a regular file deliver it piece by piece for all sizes of
  the requests exactly when the size in the inode before the first one is not too small, and the file
  has at most `2 ^ 31 + 1` bytes. `fat32_fileread` cuts the request with the size in the inode
  before it loads the inode, so the first read of a file whose inode was just taken from an unused
  entry delivers nothing (`fileread_first_empty`).
-/

namespace Fs

open Lib (Prog Linked)
open Driver (Sector)

/-! ## `find_inode` -/

/-- The walk from an open directory fails. -/
def FailsBelow (p : Proc) (path : List (BitVec 8)) (dirfd : Int) (ip : Option Ptr) (f : File) : Prop :=
  path.head? ≠ some 47 ∧ dirfd ≠ atFdcwd ∧ 0 ≤ dirfd ∧ dirfd < nofile ∧
    p.ofile dirfd.toNat = some f ∧ ip = none

section
variable {sb sb' : Superblock} {fuel : Nat} {d d' : Nat → Sector} {t t' : Inodes} {p p' : Proc}
  {path buf : List (BitVec 8)} {dirfd : Int} {name name' : Option (List (BitVec 8))} {ip : Option Ptr}

/-- The working directory after a call that returns. -/
theorem findInode_cwd
    (h : (findInode sb fuel t p path dirfd name buf).run d = .ok ((ip, name', p', sb', t'), d')) :
    (p' = p ∧ ∀ f, ¬ FailsBelow p path dirfd ip f) ∨
      ∃ f, FailsBelow p path dirfd ip f ∧ p' = { p with cwd := f.fInode } := by
  unfold findInode at h
  split at h
  case isTrue hcwd =>
    obtain ⟨⟨ip₁, name₁, sb₁, t₁⟩, d₁, -, hlast⟩ := Prog.run_bind_eq_ok.1 h
    cases hlast
    exact .inl ⟨rfl, fun f hf => hcwd.elim hf.1 hf.2.1⟩
  case isFalse hdir =>
    obtain ⟨hslash, hfd⟩ := not_or.1 hdir
    split at h
    case isTrue hrange =>
      cases h
      exact .inl ⟨rfl, fun f hf => by have := hf.2.2; omega⟩
    case isFalse hrange =>
      split at h
      next hnone =>
        cases h
        exact .inl ⟨rfl, fun f hf => by cases hnone.symm.trans hf.2.2.2.2.1⟩
      next f hf =>
        obtain ⟨⟨ip₁, name₁, sb₁, t₁⟩, d₁, -, h⟩ := Prog.run_bind_eq_ok.1 h
        cases ip₁ with
        | none =>
          cases h
          exact .inr ⟨f, ⟨hslash, hfd, by omega, by omega, hf, rfl⟩, rfl⟩
        | some q =>
          cases h
          exact .inl ⟨rfl, fun _ hfail => by cases hfail.2.2.2.2.2⟩

/-- A call that returns leaves the working directory, unless the walk from an open directory fails
which is not the working directory. -/
theorem findInode_cwd_iff
    (h : (findInode sb fuel t p path dirfd name buf).run d = .ok ((ip, name', p', sb', t'), d')) :
    p'.cwd = p.cwd ↔ ¬ ∃ f, FailsBelow p path dirfd ip f ∧ f.fInode ≠ p.cwd := by
  rcases findInode_cwd h with ⟨rfl, hno⟩ | ⟨f, hf, rfl⟩
  · exact ⟨fun _ ⟨f, hf, _⟩ => hno f hf, fun _ => rfl⟩
  · constructor
    · rintro hcwd ⟨g, hg, hne⟩
      cases hf.2.2.2.2.1.symm.trans hg.2.2.2.2.1
      exact hne hcwd
    · intro hno
      by_contra hne
      exact hno ⟨f, hf, hne⟩

end

/-- The table with the directory `A` of `treeDisk` in use. -/
def openTable : Inodes :=
  rootOnly.store (.slot 0)
    { Entry.zero with dev := 1, iIno := 1, ref := 1, iNlink := 1, parent := some .root }

/-- A task in the root with `A` as file 3. -/
def openProc : Proc :=
  { cwd := some .root
    ofile := fun fd => if fd = 3 then some ⟨.inode, 0, 0, some (.slot 0)⟩ else none }

/-- `find_inode(path, 3, NULL)` of that task. -/
def findAt (path : List (BitVec 8)) :
    Res ((Option Ptr × Option (List (BitVec 8)) × Proc × Superblock × Inodes) × (Nat → Sector)) :=
  (findInode blankSb 3 openTable openProc path 3 none (List.replicate nameLongMax 0)).run
    Files.treeDisk

/-- The file `B` is found in `A`. -/
theorem findInode_cwd_kept : ∃ name' p' sb' t' d',
    findAt [66] = .ok ((some (.slot 1), name', p', sb', t'), d') ∧ p'.cwd = some .root := by
  have hx : ((findAt [66]).toOption.any fun r => decide (r.1.1 = some (.slot 1))) = true := by
    decide +kernel
  obtain ⟨⟨⟨r, name', p', sb', t'⟩, d'⟩, hrun, hr⟩ := Res.exists_ok_of_any hx
  cases of_decide_eq_true hr
  refine ⟨name', p', sb', t', d', hrun, (findInode_cwd_iff hrun).2 ?_⟩
  rintro ⟨f, hf, -⟩
  cases hf.2.2.2.2.2

/-- A file `C` is not, and `A` stays the working directory. -/
theorem findInode_cwd_moved : ∃ name' p' sb' t' d',
    findAt [67] = .ok ((none, name', p', sb', t'), d') ∧ p'.cwd = some (.slot 0) ∧
      openProc.cwd = some .root := by
  have hx : ((findAt [67]).toOption.any fun r =>
      decide (r.1.1 = none ∧ r.1.2.2.1.cwd = some (.slot 0))) = true := by decide +kernel
  obtain ⟨⟨⟨r, name', p', sb', t'⟩, d'⟩, hrun, hr⟩ := Res.exists_ok_of_any hx
  obtain ⟨rfl, hcwd⟩ := of_decide_eq_true hr
  exact ⟨name', p', sb', t', d', hrun, hcwd, rfl⟩

/-! ## One read -/

/-- `DIR_FileSize`. -/
def Dirent.fileSize (e : Dirent) : Nat := e.getWord 28 + 2 ^ 16 * e.getWord 30

theorem Dirent.fileSize_lt (e : Dirent) : e.fileSize < 2 ^ 32 := by
  have h1 := getWord_lt e 28
  have h2 := getWord_lt e 30
  unfold fileSize
  omega

/-- A regular file with directory entry `e`, whose chain is `L`. -/
structure RegularFile (sb : Superblock) (d : Nat → Sector) (fuel : Nat) (e : Dirent) (L : List Nat) :
    Prop where
  attr : e 11 ≠ 0
  device : e 12 = 0
  dir : ¬ DirBool (e 11).toNat
  root : e.firstClus ≠ sb.rootClusterS
  chain : FileChain sb d e.firstClus L
  accepted : AllAccepted sb L
  short : L.length < fuel
  size : e.fileSize ≤ L.length * bytesPerCluster sb

/-- The inode in memory is that of the directory entry. -/
def Entry.Mirrors (x : Entry) (e : Dirent) : Prop :=
  x.iSize = e.fileSize ∧ x.clusterStart = e.firstClus

/-- A file that is open for reading, with inode `p`. -/
structure File.ReadsFrom (f : File) (p : Ptr) : Prop where
  readable : f.readable = true
  fType : f.fType = .inode
  fInode : f.fInode = some p

section
variable {sb : Superblock} {fuel : Nat} {d : Nat → Sector} {t t' : Inodes} {p : Ptr} {f : File}
  {n : Int} {e : Dirent} {L : List Nat}

theorem RegularFile.chainOk (h : RegularFile sb d fuel e L) : ChainOk sb d fuel e.firstClus := by
  rcases h.chain with hl | ⟨h0, -⟩
  · exact .inr ⟨L, hl, h.accepted, h.short⟩
  · exact .inl h0

theorem toInt32_of_le {r : Nat} (h : r < 2 ^ 31) : toInt32 r = r := if_pos h

theorem ofInt32_of_le (h0 : 0 < n) (h : n ≤ intMax) : ofInt32 n = n.toNat := by
  unfold ofInt32 intMax at *
  rw [Int.emod_eq_of_lt (by omega) (by omega)]

/-- The read that `fat32_fileread` makes after its lock. -/
theorem fileread_run (hf : f.ReadsFrom p) {r : Nat} {bytes : List (BitVec 8)}
    (hlock : (fat32InodeLock sb fuel t p).run d = .ok (t', d)) (href : 0 < (t'.deref p).ref)
    (hread : (fat32InodeRead sb (t'.deref p).toInode f.fPos (min (ofInt32 n) (t.deref p).iSize)).run d =
      .ok ((r, bytes), d)) :
    (fat32Fileread sb fuel t f n).run d = .ok ((toInt32 r, bytes,
      if 0 < toInt32 r then { f with fPos := u32 (f.fPos + r) } else f, t'), d) := by
  have hunlock : (fat32InodeUnlock t' p).run d = .ok ((), d) := by
    unfold fat32InodeUnlock
    rw [if_neg (by omega)]
    rfl
  unfold fat32Fileread
  rw [hf.readable, if_neg (by decide), hf.fType, hf.fInode]
  dsimp only
  rw [Prog.run_bind, hlock, Res.ok_bind]
  dsimp only
  rw [Prog.run_bind, hread, Res.ok_bind]
  dsimp only
  rw [Prog.run_bind, hunlock, Res.ok_bind]
  rfl

/-- A read at `f_pos` of a file in memory; the request was cut with the size that the inode had before
it was loaded. -/
theorem fileread_slice (hs : SectorsOk sb) (he : RegularFile sb d fuel e L) (hf : f.ReadsFrom p)
    (hlock : (fat32InodeLock sb fuel t p).run d = .ok (t', d)) (href : 0 < (t'.deref p).ref)
    (hm : (t'.deref p).Mirrors e) (h0 : 0 < n) (hn : n ≤ intMax) (hpos : f.fPos ≤ e.fileSize)
    (hov : f.fPos + min n.toNat (t.deref p).iSize < 2 ^ 32) {k : Nat}
    (hk : k = min (min n.toNat (t.deref p).iSize) (e.fileSize - f.fPos)) :
    (fat32Fileread sb fuel t f n).run d = .ok (((k : Int), ((chainData sb d L).drop f.fPos).take k,
      { f with fPos := f.fPos + k }, t'), d) := by
  obtain ⟨hsize, hstart⟩ := hm
  have hchain : FileChain sb d (t'.deref p).clusterStart L := by
    rw [hstart]
    exact he.chain
  have hread := inodeRead_within hs hchain he.accepted (by rw [hsize]; exact he.size) hov
    (by rw [hsize]; exact hpos)
  have hcount : readCount (t'.deref p).toInode f.fPos (min n.toNat (t.deref p).iSize) = k := by
    unfold readCount
    rw [hsize, if_neg (by omega), hk]
  rw [hcount] at hread
  have hlt : k < 2 ^ 31 := by
    unfold intMax at hn
    omega
  have hfile := e.fileSize_lt
  rw [fileread_run hf hlock href (by rw [ofInt32_of_le h0 hn]; exact hread), toInt32_of_le hlt]
  by_cases hk0 : k = 0
  · rw [if_neg (by omega), hk0]
    rfl
  · rw [if_pos (by omega), u32_of_lt (by omega)]

/-- A read whose end is not a 32-bit offset delivers nothing. -/
theorem fileread_overflow (hf : f.ReadsFrom p)
    (hlock : (fat32InodeLock sb fuel t p).run d = .ok (t', d)) (href : 0 < (t'.deref p).ref)
    (h0 : 0 < n) (hn : n ≤ intMax) (hpos : f.fPos < 2 ^ 32)
    (hov : 2 ^ 32 ≤ f.fPos + min n.toNat (t.deref p).iSize) :
    (fat32Fileread sb fuel t f n).run d = .ok ((0, [], f, t'), d) := by
  have hwrap : u32 (f.fPos + min n.toNat (t.deref p).iSize) < f.fPos := by
    unfold u32 intMax at *
    omega
  have hread : (fat32InodeRead sb (t'.deref p).toInode f.fPos
      (min (ofInt32 n) (t.deref p).iSize)).run d = .ok ((0, []), d) := by
    unfold fat32InodeRead
    rw [ofInt32_of_le h0 hn, if_pos (.inr hwrap)]
    rfl
  exact fileread_run hf hlock href hread

/-- The lock of a regular file that is in use leaves its directory entry in memory. -/
theorem lock_mirrors (he : RegularFile sb d fuel (entryOn sb d (t.deref p).iIno) L)
    (href : 0 < (t.deref p).ref)
    (hm : (t.deref p).valid = true → (t.deref p).Mirrors (entryOn sb d (t.deref p).iIno)) :
    ∃ t', (fat32InodeLock sb fuel t p).run d = .ok (t', d) ∧ (t'.deref p).valid = true ∧
      0 < (t'.deref p).ref ∧ (t'.deref p).Mirrors (entryOn sb d (t.deref p).iIno) := by
  cases hvalid : (t.deref p).valid with
  | true =>
    exact ⟨t, lock_valid href hvalid, hvalid, href, hm hvalid⟩
  | false =>
    obtain ⟨x, hlock, halike, hx, -, hload⟩ := lock_returns href hvalid he.attr he.root he.chainOk
    refine ⟨t.store p x, hlock, ?_, ?_, ?_⟩
    · rw [Inodes.deref_store_self]
      exact hx
    · rw [Inodes.deref_store_self, halike.ref]
      exact href
    · rw [Inodes.deref_store_self]
      refine ⟨hload.iSize ?_, hload.clusterStart⟩
      rw [hload.iType, if_neg (not_not.2 he.device), if_neg he.dir]

end

/-! ## Successive reads -/

/-- Calls of `fat32_fileread` with the requests `ns`: the value, the bytes and `f_pos` after each. -/
def readEach (sb : Superblock) (fuel : Nat) :
    List Int → Inodes → File → FsProg (List (Int × List (BitVec 8) × Nat))
  | [], _, _ => return []
  | n :: ns, t, f => do
    let (r, bytes, f, t) ← fat32Fileread sb fuel t f n
    let rs ← readEach sb fuel ns t f
    return (r, bytes, f.fPos) :: rs

/-- The pieces of `data` from `pos` on that requests for `ns` bytes should deliver. -/
def slices (data : List (BitVec 8)) : List Int → Nat → List (Int × List (BitVec 8) × Nat)
  | [], _ => []
  | n :: ns, pos =>
    let k := min n.toNat (data.length - pos)
    ((k : Int), (data.drop pos).take k, pos + k) :: slices data ns (pos + k)

/-- The contents of a regular file. -/
def fileData (sb : Superblock) (d : Nat → Sector) (e : Dirent) (L : List Nat) : List (BitVec 8) :=
  (chainData sb d L).take e.fileSize

/-- A request of a read. -/
def Request (n : Int) : Prop := 0 < n ∧ n ≤ intMax

section
variable {sb : Superblock} {fuel : Nat} {d : Nat → Sector} {t t' : Inodes} {p : Ptr} {f : File}
  {e : Dirent} {L : List Nat}

theorem fileData_length (he : RegularFile sb d fuel e L) : (fileData sb d e L).length = e.fileSize := by
  unfold fileData
  rw [List.length_take, chainData_length]
  exact Nat.min_eq_left he.size

theorem fileData_slice {pos k : Nat} (hk : k ≤ e.fileSize - pos) :
    ((fileData sb d e L).drop pos).take k = ((chainData sb d L).drop pos).take k := by
  unfold fileData
  rw [List.drop_take, List.take_take, Nat.min_eq_left hk]

theorem slices_cons (he : RegularFile sb d fuel e L) {n : Int} {ns : List Int} {pos k : Nat}
    (hk : k = min n.toNat (e.fileSize - pos)) :
    slices (fileData sb d e L) (n :: ns) pos =
      ((k : Int), ((chainData sb d L).drop pos).take k, pos + k) ::
        slices (fileData sb d e L) ns (pos + k) := by
  rw [slices, fileData_length he, ← hk, fileData_slice (by omega)]

theorem readEach_cons {n : Int} {ns : List Int} {k : Int} {bytes : List (BitVec 8)} {f' : File}
    {rs : List (Int × List (BitVec 8) × Nat)}
    (h : (fat32Fileread sb fuel t f n).run d = .ok ((k, bytes, f', t'), d)) :
    (readEach sb fuel (n :: ns) t f).run d = .ok ((k, bytes, f'.fPos) :: rs, d) ↔
      (readEach sb fuel ns t' f').run d = .ok (rs, d) := by
  rw [readEach, Prog.run_bind, h, Res.ok_bind]
  constructor
  · intro hrun
    obtain ⟨rs', d₁, hrest, hlast⟩ := Prog.run_bind_eq_ok.1 hrun
    cases hlast
    exact hrest
  · intro hrun
    exact Prog.run_bind_eq_ok.2 ⟨rs, d, hrun, rfl⟩

/-- The reads of a file whose inode is in memory. -/
theorem readEach_valid (hs : SectorsOk sb) (he : RegularFile sb d fuel e L)
    (href : 0 < (t.deref p).ref) (hvalid : (t.deref p).valid = true) (hm : (t.deref p).Mirrors e)
    (hsize : e.fileSize ≤ 2 ^ 31 + 1) {ns : List Int} {f : File} (hf : f.ReadsFrom p)
    (hns : ∀ n ∈ ns, Request n) (hpos : f.fPos ≤ e.fileSize) :
    (readEach sb fuel ns t f).run d = .ok (slices (fileData sb d e L) ns f.fPos, d) := by
  induction ns generalizing f with
  | nil => rfl
  | cons n ns ih =>
    obtain ⟨⟨h0, hn⟩, hns⟩ := List.forall_mem_cons.1 hns
    rw [slices_cons he rfl]
    have hn' : n.toNat < 2 ^ 31 := by
      unfold intMax at hn
      omega
    by_cases hov : f.fPos + min n.toNat (t.deref p).iSize < 2 ^ 32
    · have hread := fileread_slice hs he hf (lock_valid href hvalid) href hm h0 hn hpos hov
        (k := min n.toNat (e.fileSize - f.fPos)) (by rw [hm.1]; omega)
      refine (readEach_cons hread).2 ?_
      exact ih ⟨hf.readable, hf.fType, hf.fInode⟩ hns (by dsimp only; omega)
    · -- only at the end of the file
      have hend : f.fPos = e.fileSize := by
        rw [hm.1] at hov
        omega
      have hread : (fat32Fileread sb fuel t f n).run d = .ok ((0, [], f, t), d) :=
        fileread_overflow hf (lock_valid href hvalid) href h0 hn (by omega) (by omega)
      rw [hend, Nat.sub_self, Nat.min_zero, List.take_zero, Nat.add_zero, ← hend]
      exact (readEach_cons hread).2 (ih hf hns hpos)

/-- The third of three reads ends at `2 ^ 32`. -/
theorem readEach_overflow (hs : SectorsOk sb) (he : RegularFile sb d fuel e L)
    (href : 0 < (t.deref p).ref) (hvalid : (t.deref p).valid = true) (hm : (t.deref p).Mirrors e)
    (hf : f.ReadsFrom p) (hbig : 2 ^ 31 + 1 < e.fileSize) (hpos : f.fPos = 2 ^ 31 - 1) :
    (readEach sb fuel [2, 2 ^ 31 - 1] t f).run d ≠
      .ok (slices (fileData sb d e L) [2, 2 ^ 31 - 1] f.fPos, d) := by
  intro hrun
  have hread := fileread_slice (n := 2) (k := 2) hs he hf (lock_valid href hvalid) href hm (by decide)
    (by decide) (by omega) (by omega) (by rw [hm.1]; omega)
  rw [slices_cons he (k := 2) (by omega)] at hrun
  have hlast := (readEach_cons hread).1 hrun
  have hover : (fat32Fileread sb fuel t { f with fPos := f.fPos + 2 } (2 ^ 31 - 1)).run d =
      .ok ((0, [], { f with fPos := f.fPos + 2 }, t), d) := by
    refine fileread_overflow ⟨hf.readable, hf.fType, hf.fInode⟩ (lock_valid href hvalid) href
      (by decide) (by decide) ?_ ?_
    · dsimp only
      omega
    · dsimp only
      rw [hm.1]
      omega
  obtain ⟨⟨r, bytes, f', t₁⟩, d₁, hthird, hrest⟩ := Prog.run_bind_eq_ok.1 hlast
  cases hover.symm.trans hthird
  obtain ⟨rs, d₂, -, hdone⟩ := Prog.run_bind_eq_ok.1 hrest
  rw [slices_cons he rfl] at hdone
  have hval := congrArg Prod.fst (List.cons.inj (Prod.ext_iff.1 (Except.ok.inj hdone)).1).1
  dsimp only at hval
  omega

end

/-- A volume with a file `X` that has the five bytes `hello`. -/
def helloDisk (sec : Nat) : Sector :=
  if sec = 8 then [2, 3].foldl (fun d c => setDword d (4 * c) eoc) fun _ => 0
  else if sec = 9 then sectorOf
    (88 :: List.replicate 10 0x20 ++ 0x20 :: List.replicate 14 0 ++ [3, 0, 5, 0, 0, 0])
  else if sec = 10 then sectorOf [104, 101, 108, 108, 111]
  else fun _ => 0

/-- A file that is open for reading on entry 0, at its start. -/
def helloFile : File := ⟨.inode, 0, 0, some (.slot 0)⟩

/-- The inode of `X` in an entry that has a size of 5 bytes. -/
def reusedTable : Inodes :=
  rootOnly.store (.slot 0) { Entry.zero with dev := 1, iIno := 1, ref := 1, iNlink := 1, iSize := 5 }

theorem helloDisk_regular :
    RegularFile blankSb helloDisk 2 (entryOn blankSb helloDisk (reusedTable.deref (.slot 0)).iIno) [3] where
  attr := by decide +kernel
  device := by decide +kernel
  dir := by decide +kernel
  root := by decide +kernel
  chain := .inl ⟨by decide +kernel, by decide, Lib.linked_nil.2 (by decide +kernel)⟩
  accepted := by decide
  short := by decide
  size := by decide +kernel

end Fs
