import OS404.Fs.Proof.File
import OS404.Fs.Proof.Refs
import OS404.Sched.Exec

/-!
# What `do_execve` stores and what it leaves behind

* `segment_inside_iff`: the read and the `memset` of a segment stay inside the bytes that `_malloc_`
  was asked for exactly if `memsz` has 32 bits, or the read comes back short and fits.
* `execve_clean_iff`: a call that opens its file and returns -1 drops its reference to the inode in
  every case, and gives back its heap objects only if it failed at the header: nothing frees
  `allocated_mems` and the segments in it.
-/

namespace Exec

open Lib (Prog Ledger)
open Lib.Ledger (held held_nonneg)
open Mm (HeapCfg Obj)
open Driver (Sector)
open Fs

/-! ## The stores of a segment -/

/-- The ranges of its object, as offset and length, that the read and the `memset` of a segment store
to, if the read copies `r` bytes. -/
def Proghdr.stores (h : Proghdr) (r : Nat) : List (Nat × Nat) :=
  (0, r) :: if r = h.filesz.toNat ∧ 0 < h.memsz - h.filesz then
    [(h.filesz.toNat, (h.memsz - h.filesz).toNat)] else []

/-- They are inside the bytes that `_malloc_` was asked for. -/
def Proghdr.StoresInside (h : Proghdr) (r : Nat) : Prop := ∀ x ∈ h.stores r, x.1 + x.2 ≤ h.asked

section
variable {h : Proghdr} {r : Nat}

theorem Proghdr.filesz_le (hrej : ¬ h.Rejected) : h.filesz.toNat ≤ h.memsz.toNat := by
  simp only [Proghdr.Rejected, not_or, BitVec.not_lt] at hrej
  exact BitVec.le_def.1 hrej.1

theorem Proghdr.sub_toNat (hle : h.filesz.toNat ≤ h.memsz.toNat) :
    (h.memsz - h.filesz).toNat = h.memsz.toNat - h.filesz.toNat :=
  BitVec.toNat_sub_of_le (BitVec.le_def.2 hle)

theorem Proghdr.storesInside_of_ne (hne : r ≠ h.filesz.toNat) : h.StoresInside r ↔ r ≤ h.asked := by
  simp [StoresInside, stores, hne]

theorem Proghdr.zeros_iff (hle : h.filesz.toNat ≤ h.memsz.toNat) :
    0 < h.memsz - h.filesz ↔ h.filesz.toNat < h.memsz.toNat := by
  rw [BitVec.lt_def, sub_toNat hle]
  exact Nat.sub_pos_iff_lt

/-- After a full read the zeros go on to byte `memsz`. -/
theorem Proghdr.storesInside_full (hle : h.filesz.toNat ≤ h.memsz.toNat) :
    h.StoresInside h.filesz.toNat ↔ h.memsz.toNat ≤ h.asked := by
  simp only [StoresInside, stores, true_and, zeros_iff hle, sub_toNat hle, List.forall_mem_cons,
    Nat.zero_add]
  split
  · simp only [List.mem_singleton, forall_eq]
    omega
  · simp only [List.not_mem_nil, false_imp_iff, implies_true, and_true]
    omega

theorem Proghdr.storesInside_iff (hle : h.filesz.toNat ≤ h.memsz.toNat)
    (hr : r ≤ u32 h.filesz.toNat) :
    h.StoresInside r ↔ h.memsz.toNat < 2 ^ 32 ∨ r ≠ h.filesz.toNat ∧ r ≤ h.asked := by
  have hfilesz : u32 h.filesz.toNat ≤ h.filesz.toNat := Nat.mod_le ..
  have hasked : h.asked < 2 ^ 32 := Nat.mod_lt _ (by decide)
  have hsmall : h.memsz.toNat < 2 ^ 32 → h.asked = h.memsz.toNat := fun hlt => u32_of_lt hlt
  by_cases hfull : r = h.filesz.toNat
  · subst hfull
    rw [storesInside_full hle]
    simp only [ne_eq, not_true_eq_false, false_and, or_false]
    omega
  · rw [storesInside_of_ne hfull]
    simp only [ne_eq, hfull, not_false_eq_true, true_and]
    omega

end

/-! ## A segment -/

section
variable {sb : Superblock} {ip : Inode} {h : Proghdr} {c c' : HeapCfg} {o : Obj} {d d' : Nat → Sector}
  {off n r mem : Nat} {v : Nat → Nat} {dst : List (BitVec 8)} {s : Mm.HeapState}

theorem storeBytes_live (hrun : storeBytes c o off n v = .ok c') : c'.live = c.live := by
  unfold storeBytes at hrun
  split at hrun
  · cases hrun
    rfl
  · cases hrun

theorem storeBytes_inside (hle : off + n ≤ o.n) : ∃ c', storeBytes c o off n v = .ok c' :=
  ⟨_, if_pos hle⟩

theorem storeBytes_outside (hlt : ¬ off + n ≤ o.n) : storeBytes c o off n v = .error .ub :=
  if_neg hlt

/-- `loadSegment` behind the read. -/
theorem loadSegment_run (hmalloc : Mm.malloc h.asked c.state = .ok (mem, s)) (hmem : mem ≠ 0)
    (hread : (fat32InodeRead sb ip (u32 h.off.toNat) (u32 h.filesz.toNat)).run d =
      .ok ((r, dst), d')) :
    (loadSegment sb ip h c).run d =
      (storeBytes ⟨s, ⟨mem, h.asked⟩ :: c.live⟩ ⟨mem, h.asked⟩ 0 dst.length
        (fun i => (dst.getD i 0).toNat) >>= fun c =>
      if r ≠ h.filesz.toNat then c.step (.free ⟨mem, h.asked⟩ 0) >>= fun c => .ok ((none, c), d')
      else if 0 < h.memsz - h.filesz then
        storeBytes c ⟨mem, h.asked⟩ h.filesz.toNat (h.memsz - h.filesz).toNat (fun _ => 0) >>=
          fun c => .ok ((some ⟨mem, h.asked⟩, c), d')
      else .ok ((some ⟨mem, h.asked⟩, c), d')) := by
  unfold loadSegment
  rw [hmalloc, Prog.lift_ok_bind]
  dsimp only
  rw [if_neg hmem, Prog.run_bind, hread, Res.ok_bind]
  dsimp only
  cases hstore : storeBytes ⟨s, ⟨mem, h.asked⟩ :: c.live⟩ ⟨mem, h.asked⟩ 0 dst.length
      (fun i => (dst.getD i 0).toNat) with
  | error e => rfl
  | ok c₁ =>
    rw [Prog.lift_ok_bind, Res.ok_bind]
    split
    · cases c₁.step (.free ⟨mem, h.asked⟩ 0) <;> rfl
    · split
      · cases storeBytes c₁ ⟨mem, h.asked⟩ h.filesz.toNat (h.memsz - h.filesz).toNat fun _ => 0 <;> rfl
      · rfl

/-- A store outside the object is undefined. -/
theorem loadSegment_outside (hmalloc : Mm.malloc h.asked c.state = .ok (mem, s)) (hmem : mem ≠ 0)
    (hread : (fat32InodeRead sb ip (u32 h.off.toNat) (u32 h.filesz.toNat)).run d =
      .ok ((r, dst), d')) (hout : ¬ h.StoresInside dst.length) :
    (loadSegment sb ip h c).run d = .error .ub := by
  obtain ⟨hr, -⟩ := inodeRead_count hread
  rw [loadSegment_run hmalloc hmem hread]
  by_cases hle : 0 + dst.length ≤ h.asked
  · obtain ⟨c₁, hc₁⟩ := @storeBytes_inside ⟨s, ⟨mem, h.asked⟩ :: c.live⟩ ⟨mem, h.asked⟩ 0 dst.length
      (fun i => (dst.getD i 0).toNat) hle
    rw [hc₁, Res.ok_bind]
    simp only [Proghdr.StoresInside, Proghdr.stores, List.forall_mem_cons, hle, true_and] at hout
    split at hout
    · rename_i hzeros
      rw [if_neg (not_not.2 (hr ▸ hzeros.1)), if_pos hzeros.2]
      rw [storeBytes_outside fun hin => hout (List.forall_mem_singleton.2 hin), Res.error_bind]
    · exact absurd (by simp) hout
  · rw [storeBytes_outside hle, Res.error_bind]

/-- A segment that is read in full and fits is loaded. -/
theorem loadSegment_inside (hmalloc : Mm.malloc h.asked c.state = .ok (mem, s)) (hmem : mem ≠ 0)
    (hread : (fat32InodeRead sb ip (u32 h.off.toNat) (u32 h.filesz.toNat)).run d =
      .ok ((h.filesz.toNat, dst), d')) (hin : h.StoresInside h.filesz.toNat) :
    ∃ c', (loadSegment sb ip h c).run d = .ok ((some ⟨mem, h.asked⟩, c'), d') := by
  obtain ⟨hr, -⟩ := inodeRead_count hread
  obtain ⟨hfirst, hzeros⟩ := List.forall_mem_cons.1 hin
  obtain ⟨c₁, hc₁⟩ := @storeBytes_inside ⟨s, ⟨mem, h.asked⟩ :: c.live⟩ ⟨mem, h.asked⟩ 0 dst.length
    (fun i => (dst.getD i 0).toNat) (hr ▸ hfirst)
  rw [loadSegment_run hmalloc hmem hread, hc₁, Res.ok_bind, if_neg (not_not.2 rfl)]
  split
  · rename_i hpos
    rw [if_pos ⟨rfl, hpos⟩] at hzeros
    obtain ⟨c₂, hc₂⟩ := @storeBytes_inside c₁ ⟨mem, h.asked⟩ h.filesz.toNat
      (h.memsz - h.filesz).toNat (fun _ => 0) (hzeros _ (List.mem_singleton_self _))
    exact ⟨c₂, by rw [hc₂, Res.ok_bind]⟩
  · exact ⟨c₁, rfl⟩

/-- For a header that passes the checks, with a block from `_malloc_` and `r` bytes from the read: the
stores stay inside what `_malloc_` was asked for unless `memsz` is too large for its parameter. -/
theorem segment_inside_iff (hrej : ¬ h.Rejected) (hmalloc : Mm.malloc h.asked c.state = .ok (mem, s))
    (hmem : mem ≠ 0)
    (hread : (fat32InodeRead sb ip (u32 h.off.toNat) (u32 h.filesz.toNat)).run d =
      .ok ((r, dst), d')) :
    (h.StoresInside r ↔ h.memsz.toNat < 2 ^ 32 ∨ r ≠ h.filesz.toNat ∧ r ≤ h.asked) ∧
    (¬ h.StoresInside r → (loadSegment sb ip h c).run d = .error .ub) ∧
    (h.StoresInside r → r = h.filesz.toNat →
      ∃ c', (loadSegment sb ip h c).run d = .ok ((some ⟨mem, h.asked⟩, c'), d')) := by
  obtain ⟨hlen, hr⟩ := inodeRead_count hread
  refine ⟨Proghdr.storesInside_iff (Proghdr.filesz_le hrej) hr, fun hout => ?_, fun hin hfull => ?_⟩
  · exact loadSegment_outside hmalloc hmem hread (hlen ▸ hout)
  · subst hfull
    exact loadSegment_inside hmalloc hmem hread hin

end

/-- A header for the first four bytes of a file, in `memsz` bytes of memory. -/
def fourBytes (memsz : BitVec 64) : Proghdr := ⟨elfProgLoad, 0, 0, 4, memsz⟩

theorem fourBytes_read :
    (fat32InodeRead blankSb threeFile 0 4).run threeData = .ok ((4, [10, 10, 10, 10]), threeData) := by
  have hchain : FileChain blankSb threeData threeFile.clusterStart [3, 5, 4] :=
    .inl (threeDisk_linked.congr (by decide +kernel))
  have hdata : ((chainData blankSb threeData [3, 5, 4]).drop 0).take (readCount threeFile 0 4) =
      [10, 10, 10, 10] := by decide +kernel
  rw [inodeRead_within blankSb_volumeOk.sectors hchain (by decide) (by decide) (by decide) (by decide),
    hdata]
  rfl

/-- Eight bytes from the heap, of which the read stores the first four and `memset` the rest. -/
theorem segment_inside_eight : ∃ h s, Mm.initBlockDesc (Mm.preHeap Mm.smallPool) = .ok h ∧
    Mm.malloc 8 h = .ok (0x80309000, s) ∧ (fourBytes 8).StoresInside 4 ∧
    ∃ c, (loadSegment blankSb threeFile (fourBytes 8) ⟨h, []⟩).run threeData =
      .ok ((some ⟨0x80309000, 8⟩, c), threeData) := by
  have hx : ((Mm.initBlockDesc (Mm.preHeap Mm.smallPool)).toOption.any fun h =>
      (Mm.malloc 8 h).toOption.any fun r => decide (r.1 = 0x80309000)) = true := by decide +kernel
  obtain ⟨h, hboot, hx⟩ := Res.exists_ok_of_any hx
  obtain ⟨⟨mem, s⟩, hmalloc, hmem⟩ := Res.exists_ok_of_any hx
  obtain rfl : mem = 0x80309000 := of_decide_eq_true hmem
  obtain ⟨hiff, -, hload⟩ := segment_inside_iff (h := fourBytes 8) (c := ⟨h, []⟩) (by decide) hmalloc
    (by decide) fourBytes_read
  have hin := hiff.2 (.inl (by decide))
  exact ⟨h, s, hboot, hmalloc, hin, hload hin rfl⟩

/-- With `memsz` = 2³² + 8 `_malloc_` is asked for eight bytes, and `memset` goes on behind them. -/
theorem segment_outside : ¬ (fourBytes 0x100000008).Rejected ∧ (fourBytes 0x100000008).asked = 8 ∧
    (fourBytes 0x100000008).stores 4 = [(0, 4), (4, 0x100000004)] ∧
    ∃ h, Mm.initBlockDesc (Mm.preHeap Mm.smallPool) = .ok h ∧
      (loadSegment blankSb threeFile (fourBytes 0x100000008) ⟨h, []⟩).run threeData =
        .error .ub := by
  have hx : ((Mm.initBlockDesc (Mm.preHeap Mm.smallPool)).toOption.any fun h =>
      decide (Res.fault ((loadSegment blankSb threeFile (fourBytes 0x100000008) ⟨h, []⟩).run
        threeData) = some .ub)) = true := by decide +kernel
  obtain ⟨h, hboot, hrun⟩ := Res.exists_ok_of_any hx
  exact ⟨by decide, by decide, by decide, h, hboot, Res.eq_error_of_fault (of_decide_eq_true hrun)⟩

/-! ## Live objects -/

section
variable {sb : Superblock} {ip : Inode} {h : Proghdr} {c c' : HeapCfg} {d d' : Nat → Sector}
  {mems : Obj}

/-- A segment that is not loaded leaves no object, also if its read comes back short. -/
theorem loadSegment_live {o : Option Obj} (hrun : (loadSegment sb ip h c).run d = .ok ((o, c'), d')) :
    c'.live = o.toList ++ c.live := by
  obtain ⟨⟨mem, s⟩, d₁, -, hrun⟩ := Prog.run_bind_eq_ok.1 hrun
  dsimp only at hrun
  split at hrun
  · cases hrun
    rfl
  · obtain ⟨⟨r, dst⟩, d₂, -, hrun⟩ := Prog.run_bind_eq_ok.1 hrun
    obtain ⟨c₁, d₃, hlift, hrun⟩ := Prog.run_bind_eq_ok.1 hrun
    obtain ⟨hstore, -⟩ := Prog.run_lift_eq_ok.1 hlift
    have hlive := storeBytes_live hstore
    dsimp only at hlive hrun
    split at hrun
    · obtain ⟨c₂, d₄, hlift, hrun⟩ := Prog.run_bind_eq_ok.1 hrun
      obtain ⟨hfree, -⟩ := Prog.run_lift_eq_ok.1 hlift
      obtain ⟨s', -, hlast⟩ := Res.bind_eq_ok.1 hfree
      cases hlast
      cases hrun
      rw [hlive]
      exact List.erase_cons_head ..
    · split at hrun
      · obtain ⟨c₂, d₄, hlift, hrun⟩ := Prog.run_bind_eq_ok.1 hrun
        obtain ⟨hzeros, -⟩ := Prog.run_lift_eq_ok.1 hlift
        cases hrun
        exact (storeBytes_live hzeros).trans hlive
      · cases hrun
        exact hlive

/-- The loop frees nothing that was live before it. -/
theorem loadLoop_live : ∀ {k off count : Nat} {c c' : HeapCfg} {d d' : Nat → Sector} {b : Bool},
    (loadLoop sb ip mems k off count c).run d = .ok ((b, c'), d') →
    ∃ segments, c'.live = segments ++ c.live
  | 0, _, _, _, _, _, _, _, hrun => by
    cases hrun
    exact ⟨[], rfl⟩
  | k + 1, off, count, c, c', d, d', b, hrun => by
    obtain ⟨⟨r, bytes⟩, d₁, -, hrun⟩ := Prog.run_bind_eq_ok.1 hrun
    dsimp only at hrun
    split at hrun
    · cases hrun
      exact ⟨[], rfl⟩
    split at hrun
    · exact loadLoop_live hrun
    split at hrun
    · cases hrun
      exact ⟨[], rfl⟩
    obtain ⟨⟨o, c₁⟩, d₂, hsegment, hrun⟩ := Prog.run_bind_eq_ok.1 hrun
    have hlive := loadSegment_live hsegment
    cases o with
    | none =>
      cases hrun
      exact ⟨[], hlive⟩
    | some o =>
      dsimp only at hrun
      split at hrun
      · cases hrun
      · obtain ⟨segments, hrest⟩ := loadLoop_live hrun
        refine ⟨segments ++ [o], ?_⟩
        rw [hrest, List.append_assoc]
        exact congrArg (segments ++ ·) hlive

/-- Whatever happens in the loop, the array stays live. -/
theorem loadProgram_live {elf : Elfhdr} {m : Option Obj}
    (hrun : (loadProgram sb ip elf c).run d = .ok ((m, c'), d')) :
    (∃ s, Mm.malloc 512 c.state = .ok (0, s) ∧ c'.live = c.live) ∨
    ∃ p s segments, Mm.malloc 512 c.state = .ok (p, s) ∧ p ≠ 0 ∧
      c'.live = segments ++ ⟨p, 512⟩ :: c.live := by
  obtain ⟨⟨p, s⟩, d₁, hlift, hrun⟩ := Prog.run_bind_eq_ok.1 hrun
  obtain ⟨hmalloc, -⟩ := Prog.run_lift_eq_ok.1 hlift
  dsimp only at hrun
  split at hrun
  · rename_i hp
    cases hrun
    exact .inl ⟨s, hp ▸ hmalloc, rfl⟩
  · rename_i hp
    obtain ⟨⟨done, c₁⟩, d₂, hloop, hlast⟩ := Prog.run_bind_eq_ok.1 hrun
    cases hlast
    obtain ⟨segments, hlive⟩ := loadLoop_live hloop
    exact .inr ⟨p, s, segments, hmalloc, hp, hlive⟩

end

/-! ## Calls that return -/

section
variable {fuel : Nat} {caller : Caller} {path : List (BitVec 8)} {sb sb₁ : Superblock} {t t₁ : Inodes}
  {d d₁ d' : Nat → Sector} {p : Ptr} {hdr : Option Elfhdr} {argv argv0 : Switch.Word} {s s' : State}

/-- Opening the file takes a reference to it. -/
theorem readHeader_moves
    (hrun : (readHeader fuel caller path sb t).run d = .ok ((some (p, hdr), sb₁, t₁), d₁)) :
    refs.Moves t t₁ (held (some p)) := by
  obtain ⟨⟨q, sb₂, t₂⟩, d₂, hopen, hrun⟩ := Prog.run_bind_eq_ok.1 hrun
  obtain ⟨⟨q', name, sb₃, t₃⟩, d₃, hnamex, hlast⟩ := Prog.run_bind_eq_ok.1 hopen
  cases hlast
  have hopened := namex_moves hnamex
  cases q with
  | none => cases hrun
  | some q =>
    obtain ⟨t₄, d₄, hlock, hrun⟩ := Prog.run_bind_eq_ok.1 hrun
    obtain ⟨⟨r, bytes⟩, d₅, -, hrun⟩ := Prog.run_bind_eq_ok.1 hrun
    have hlocked := hopened.same (held_nonneg _) (lock_moves hlock)
    dsimp only at hrun
    split at hrun
    · cases hrun
      exact hlocked
    · cases hrun
      exact hlocked

/-- A call that returns after opening the file ends with a put of its inode. Between the two it loads
the program, if the header is one. -/
theorem doExecve_ret {v : Int}
    (hhdr : (readHeader fuel caller path s.sb s.inodes).run d = .ok ((some (p, hdr), sb₁, t₁), d₁))
    (hrun : (doExecve fuel caller (some path) argv argv0 s).run d = .ok ((.ret v, s'), d')) :
    (∃ d₂, (fat32InodeUnlockPut sb₁ fuel t₁ p).run d₂ = .ok ((s'.sb, s'.inodes), d')) ∧
    (hdr = none ∧ s'.heap = s.heap ∨ ∃ elf m d₂, hdr = some elf ∧
      (loadProgram sb₁ (t₁.deref p).toInode elf s.heap).run d₁ = .ok ((m, s'.heap), d₂)) := by
  obtain ⟨x, d₂, hhdr', hrun⟩ := Prog.run_bind_eq_ok.1 hrun
  cases hhdr.symm.trans hhdr'
  cases hdr with
  | none =>
    obtain ⟨y, d₃, hput, hlast⟩ := Prog.run_bind_eq_ok.1 hrun
    cases hlast
    exact ⟨⟨_, hput⟩, .inl ⟨rfl, rfl⟩⟩
  | some elf =>
    obtain ⟨⟨m, heap⟩, d₃, hload, hrun⟩ := Prog.run_bind_eq_ok.1 hrun
    obtain ⟨y, d₄, hput, hlast⟩ := Prog.run_bind_eq_ok.1 hrun
    cases m with
    | none =>
      cases hlast
      exact ⟨⟨_, hput⟩, .inr ⟨elf, none, _, rfl, hload⟩⟩
    | some mems =>
      dsimp only at hlast
      split at hlast
      · cases hlast
      · cases hlast
        exact ⟨⟨_, hput⟩, .inr ⟨elf, some mems, _, rfl, hload⟩⟩

/-- The references are the same again. -/
theorem doExecve_refs {v : Int}
    (hhdr : (readHeader fuel caller path s.sb s.inodes).run d = .ok ((some (p, hdr), sb₁, t₁), d₁))
    (hrun : (doExecve fuel caller (some path) argv argv0 s).run d = .ok ((.ret v, s'), d')) (q : Ptr) :
    (s'.inodes.deref q).ref = (s.inodes.deref q).ref := by
  obtain ⟨⟨d₂, hput⟩, -⟩ := doExecve_ret hhdr hrun
  have hopened := readHeader_moves hhdr
  rw [← add_zero (held (some p))] at hopened
  have hall := (hopened.drop le_rfl (unlockPut_moves hput)).count q
  rwa [Pi.zero_apply, add_zero] at hall

/-- After opening the file, a call that returns -1 leaves the live objects and all references as they
were exactly if it fails at the header or gets no array from `_malloc_`. -/
theorem execve_clean_iff
    (hhdr : (readHeader fuel caller path s.sb s.inodes).run d = .ok ((some (p, hdr), sb₁, t₁), d₁))
    (hrun : (doExecve fuel caller (some path) argv argv0 s).run d = .ok ((.ret (-1), s'), d')) :
    (s'.heap.live.Perm s.heap.live ∧
      ∀ q, (s'.inodes.deref q).ref = (s.inodes.deref q).ref) ↔
    hdr = none ∨ ∃ h, Mm.malloc 512 s.heap.state = .ok (0, h) := by
  have hrefs := doExecve_refs hhdr hrun
  obtain ⟨-, ⟨rfl, hheap⟩ | ⟨elf, m, d₂, rfl, hload⟩⟩ := doExecve_ret hhdr hrun
  · rw [hheap]
    exact iff_of_true ⟨.refl _, hrefs⟩ (.inl rfl)
  · obtain ⟨h, hmalloc, hlive⟩ | ⟨p', h, segments, hmalloc, hp', hlive⟩ := loadProgram_live hload
    · rw [hlive]
      exact iff_of_true ⟨.refl _, hrefs⟩ (.inr ⟨h, hmalloc⟩)
    · refine iff_of_false (fun hclean => ?_) ?_
      · have hlen := hclean.1.length_eq
        rw [hlive, List.length_append, List.length_cons] at hlen
        omega
      · rintro (hnone | ⟨h', hnull⟩)
        · cases hnone
        · cases hmalloc.symm.trans hnull
          exact hp' rfl

end

/-- A volume with a file `X` of 64 bytes: a header with the magic number and one program header, which
would start where the file ends. -/
def elfDisk (sec : Nat) : Sector :=
  if sec = 8 then [2, 3].foldl (fun d c => setDword d (4 * c) eoc) fun _ => 0
  else if sec = 9 then sectorOf
    (88 :: List.replicate 10 0x20 ++ 0x20 :: List.replicate 14 0 ++ [3, 0, 64, 0, 0, 0])
  else if sec = 10 then sectorOf
    ([0x7F, 0x45, 0x4C, 0x46] ++ List.replicate 28 0 ++ 64 :: List.replicate 23 0 ++ [1])
  else fun _ => 0

/-- A task in the root directory. -/
def rootCaller : Caller := ⟨.root, List.replicate nameLongMax 0, 0, 0⟩

/-- `do_execve("/X", argv)` with an `argv[0]`, on a heap without objects. -/
def execX (disk : Nat → Sector) (h : Mm.HeapState) : Res ((Outcome × State) × (Nat → Sector)) :=
  (doExecve 3 rootCaller (some [47, 88]) 0 1 ⟨blankSb, rootOnly, ⟨h, []⟩⟩).run disk

/-- The value that a call returns. -/
def Outcome.value : Outcome → Option Int
  | .ret v => some v
  | .switchTo _ => none

theorem Outcome.eq_ret {o : Outcome} {v : Int} (h : o.value = some v) : o = .ret v := by
  cases o with
  | ret w =>
    cases h
    rfl
  | switchTo ctx => cases h

/-- `X` has five bytes and no header. The call leaves the heap and the inodes as they were. -/
theorem execve_clean_hello : ∃ h s' d', Mm.initBlockDesc (Mm.preHeap Mm.smallPool) = .ok h ∧
    execX helloDisk h = .ok ((.ret (-1), s'), d') ∧ s'.heap.live.Perm [] ∧
    ∀ q, (s'.inodes.deref q).ref = (rootOnly.deref q).ref := by
  have hx : ((Mm.initBlockDesc (Mm.preHeap Mm.smallPool)).toOption.any fun h =>
      (execX helloDisk h).toOption.any fun r => decide (r.1.1.value = some (-1))) = true := by
    decide +kernel
  have hy : ((readHeader 3 rootCaller [47, 88] blankSb rootOnly).run helloDisk).toOption.any (fun r => r.1.1.any fun x => x.2.isNone) = true := by decide +kernel
  obtain ⟨h, hboot, hx⟩ := Res.exists_ok_of_any hx
  obtain ⟨⟨⟨o, s'⟩, d'⟩, hrun, ho⟩ := Res.exists_ok_of_any hx
  obtain rfl := Outcome.eq_ret (of_decide_eq_true ho)
  obtain ⟨⟨⟨opened, sb₁, t₁⟩, d₁⟩, hhdr, hopened⟩ := Res.exists_ok_of_any hy
  obtain ⟨⟨p, hdr⟩, rfl, hnone⟩ := (Option.any_eq_true _ _).1 hopened
  have hclean := (execve_clean_iff (s := ⟨blankSb, rootOnly, ⟨h, []⟩⟩) hhdr hrun).2
    (.inl (Option.isNone_iff_eq_none.1 hnone))
  exact ⟨h, s', d', hboot, hrun, hclean⟩

/-- The program header cannot be read, -1 is returned, and the array is still live. -/
theorem execve_leaks_array : ∃ h s' d', Mm.initBlockDesc (Mm.preHeap Mm.smallPool) = .ok h ∧
    execX elfDisk h = .ok ((.ret (-1), s'), d') ∧ s'.heap.live = [⟨0x80309000, 512⟩] := by
  have hx : ((Mm.initBlockDesc (Mm.preHeap Mm.smallPool)).toOption.any fun h =>
      (execX elfDisk h).toOption.any fun r =>
        decide (r.1.1.value = some (-1) ∧ r.1.2.heap.live = [⟨0x80309000, 512⟩])) = true := by
    decide +kernel
  obtain ⟨h, hboot, hx⟩ := Res.exists_ok_of_any hx
  obtain ⟨⟨⟨o, s'⟩, d'⟩, hrun, hr⟩ := Res.exists_ok_of_any hx
  obtain ⟨ho, hlive⟩ := of_decide_eq_true hr
  obtain rfl := Outcome.eq_ret ho
  exact ⟨h, s', d', hboot, hrun, hlive⟩

end Exec
