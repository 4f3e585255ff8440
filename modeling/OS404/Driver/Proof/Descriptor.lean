import OS404.Driver.Virtio
import Mathlib.Data.List.Nodup

/-!
# Descriptors and chains of the virtio driver

What `alloc_descs`, the submission and `free_chain` do to the driver's state. `allocDescs_cases`:
either three free descriptors are taken, or `free` is as before and only free descriptors were
cleared. `rwStart_cases` says the same of `virtio_disk_rw` before its wait; `rwEnd_ok`: after it,
exactly the descriptors of a chain are given back.
-/

namespace Driver

namespace VirtDisk

variable {d d' : VirtDisk} {i : Nat} {L : List Nat} {r r' : Request}

/-! ## Descriptors -/

/-- `d` without the free descriptors `L`. -/
def lend (d : VirtDisk) (L : List Nat) : VirtDisk :=
  { d with free := fun i => d.free i && decide (i ∉ L) }

theorem lend_nil (d : VirtDisk) : d.lend [] = d := by simp [lend]

theorem lend_free : (d.lend L).free i = true ↔ d.free i = true ∧ i ∉ L := by simp [lend]

/-- `d` with descriptor `i` cleared and free. -/
def release (d : VirtDisk) (i : Nat) : VirtDisk :=
  { d with desc := Function.update d.desc i noDesc, free := Function.update d.free i true }

theorem release_desc {j : Nat} (h : j ≠ i) : (d.release i).desc j = d.desc j :=
  Function.update_of_ne h ..

theorem release_free {j : Nat} (h : j ≠ i) : (d.release i).free j = d.free j :=
  Function.update_of_ne h ..

theorem freeDesc_ok (hi : i < queueSize) (hf : d.free i = false) :
    d.freeDesc i = .ok (d.release i) := by
  unfold freeDesc
  rw [if_neg (by omega), if_neg (by omega), if_neg (by rw [hf]; decide)]
  rfl

theorem lend_snoc (d : VirtDisk) (L : List Nat) (i : Nat) :
    { d.lend L with free := Function.update (d.lend L).free i false } = d.lend (L ++ [i]) := by
  simp only [lend, VirtDisk.mk.injEq, true_and, and_true]
  funext j
  by_cases hj : j = i
  · subst hj
    simp
  · simp [hj]

/-- `L` is free in `d` and has no descriptor twice. -/
structure Lendable (d : VirtDisk) (L : List Nat) : Prop where
  nodup : L.Nodup
  lt : ∀ i ∈ L, i < queueSize
  free : ∀ i ∈ L, d.free i = true

theorem allocDesc_lend (hL : Lendable d L) :
    (d.lend L).allocDesc = none ∨
      ∃ i, (d.lend L).allocDesc = some (i, d.lend (L ++ [i])) ∧ Lendable d (L ++ [i]) := by
  unfold allocDesc
  cases hf : (List.range queueSize).find? (d.lend L).free with
  | none => exact .inl rfl
  | some i =>
    obtain ⟨hfree, hnew⟩ := lend_free.1 (List.find?_some hf)
    have hi := List.mem_range.1 (List.mem_of_find?_eq_some hf)
    refine .inr ⟨i, ?_, ?_, ?_, ?_⟩
    · rw [← lend_snoc]
    · exact List.nodup_append.2 ⟨hL.nodup, List.nodup_singleton i, by
        intro a ha b hb
        rw [List.mem_singleton.1 hb]
        exact fun hab => hnew (hab ▸ ha)⟩
    · simpa [or_imp, forall_and] using ⟨hL.lt, hi⟩
    · simpa [or_imp, forall_and] using ⟨hL.free, hfree⟩

/-- Giving back all of `L` leaves `free` as it was. -/
theorem freeDescs_lend (hL : Lendable d L) :
    ∃ desc, L.foldlM freeDesc (d.lend L) = .ok { d with desc } ∧
      ∀ i, d.free i = false → desc i = d.desc i := by
  induction L generalizing d with
  | nil => exact ⟨d.desc, by rw [lend_nil]; rfl, fun _ _ => rfl⟩
  | cons i L ih =>
    have hnot := (List.nodup_cons.1 hL.nodup).1
    have hfree := hL.free i (by simp)
    have hback : (d.lend (i :: L)).release i =
        lend { d with desc := Function.update d.desc i noDesc } L := by
      simp only [lend, release, VirtDisk.mk.injEq, true_and, and_true]
      funext j
      by_cases hj : j = i
      · subst hj
        simp [hfree, hnot]
      · simp [hj]
    have hL' : Lendable { d with desc := Function.update d.desc i noDesc } L :=
      ⟨(List.nodup_cons.1 hL.nodup).2, fun j hj => hL.lt j (by simp [hj]),
        fun j hj => hL.free j (by simp [hj])⟩
    obtain ⟨desc, hrun, hdesc⟩ := ih hL'
    refine ⟨desc, ?_, fun j hj => ?_⟩
    · rw [List.foldlM_cons, freeDesc_ok (hL.lt i (by simp)) (by simp [lend]), Res.ok_bind]
      rw [hback]
      exact hrun
    · rw [hdesc j hj]
      exact Function.update_of_ne (by rintro rfl; rw [hfree] at hj; cases hj) ..

theorem allocDescsLoop_cases (n : Nat) (hL : Lendable d L) :
    (∃ M, allocDescsLoop n L (d.lend L) = .ok (some (L ++ M), d.lend (L ++ M)) ∧
      M.length = n ∧ Lendable d (L ++ M)) ∨
    ∃ desc, allocDescsLoop n L (d.lend L) = .ok (none, { d with desc }) ∧
      ∀ i, d.free i = false → desc i = d.desc i := by
  induction n generalizing L with
  | zero => exact .inl ⟨[], by simp [allocDescsLoop], rfl, by simpa using hL⟩
  | succ n ih =>
    unfold allocDescsLoop
    obtain hnone | ⟨i, hsome, hL'⟩ := allocDesc_lend hL
    · rw [hnone]
      obtain ⟨desc, hrun, hdesc⟩ := freeDescs_lend hL
      exact .inr ⟨desc, by simp only [hrun, Res.ok_bind, Res.pure_eq_ok], hdesc⟩
    · rw [hsome]
      obtain ⟨M, hrun, hlen, hM⟩ | hfail := ih hL'
      · rw [List.append_assoc, List.singleton_append] at hrun hM
        exact .inl ⟨i :: M, hrun, by rw [List.length_cons, hlen], hM⟩
      · exact .inr hfail

theorem allocDescs_cases (d : VirtDisk) :
    (∃ i₀ i₁ i₂, d.allocDescs = .ok (some [i₀, i₁, i₂], d.lend [i₀, i₁, i₂]) ∧
      Lendable d [i₀, i₁, i₂]) ∨
    ∃ desc, d.allocDescs = .ok (none, { d with desc }) ∧
      ∀ i, d.free i = false → desc i = d.desc i := by
  have hnil : Lendable d [] := ⟨List.nodup_nil, by simp, by simp⟩
  have h := allocDescsLoop_cases 3 hnil
  rw [lend_nil] at h
  obtain ⟨M, hrun, hlen, hM⟩ | hfail := h
  · obtain ⟨i₀, i₁, i₂, rfl⟩ := List.length_eq_three.1 hlen
    exact .inl ⟨i₀, i₁, i₂, hrun, hM⟩
  · exact .inr hfail

/-! ## Requests -/

/-- The descriptors of `r` are a chain, whose status goes to its head, and `info` has its buffer. -/
structure Chained (d : VirtDisk) (r : Request) : Prop where
  head : (d.desc r.i₀).flags &&& descFNext ≠ 0 ∧ (d.desc r.i₀).next = r.i₁
  data : (d.desc r.i₁).flags &&& descFNext ≠ 0 ∧ (d.desc r.i₁).next = r.i₂
  last : (d.desc r.i₂).flags &&& descFNext = 0 ∧ (d.desc r.i₂).addr = .status r.i₀
  buf : (d.info r.i₀).buf = some r.buf

/-- A chain needs only its own descriptors and its own entry of `info`. -/
theorem Chained.congr (h : Chained d r) (hdesc : ∀ i ∈ r.descs, d'.desc i = d.desc i)
    (hbuf : (d'.info r.i₀).buf = (d.info r.i₀).buf) : Chained d' r where
  head := by rw [hdesc r.i₀ (by simp [Request.descs])]; exact h.head
  data := by rw [hdesc r.i₁ (by simp [Request.descs])]; exact h.data
  last := by rw [hdesc r.i₂ (by simp [Request.descs])]; exact h.last
  buf := hbuf.trans h.buf

theorem Chained.statusAddr (h : Chained d r) : d.statusAddr r.i₀ = .status r.i₀ := by
  unfold VirtDisk.statusAddr
  rw [h.head.2, h.data.2, h.last.2]

/-- The driver with the descriptors of `r` lent and `r` submitted. -/
def submitted (d : VirtDisk) (r : Request) (blockNo : Nat) (rw : Bool) : VirtDisk :=
  (d.lend r.descs).submit r.buf blockNo rw r.i₀ r.i₁ r.i₂

theorem rwStart_cases (d : VirtDisk) (buf blockNo : Nat) (rw : Bool) :
    (∃ r : Request, d.rwStart buf blockNo rw = .ok (some r, d.submitted r blockNo rw) ∧
      r.buf = buf ∧ r.completed = false ∧ Lendable d r.descs) ∨
    ∃ desc, d.rwStart buf blockNo rw = .ok (none, { d with desc }) ∧
      ∀ i, d.free i = false → desc i = d.desc i := by
  unfold rwStart
  obtain ⟨i₀, i₁, i₂, halloc, hL⟩ | ⟨desc, halloc, hdesc⟩ := allocDescs_cases d
  · rw [halloc]
    exact .inl ⟨_, rfl, rfl, rfl, hL⟩
  · rw [halloc]
    exact .inr ⟨desc, rfl, hdesc⟩

variable {blockNo : Nat} {rw : Bool}

theorem submitted_desc (hi : i ∉ r.descs) : (d.submitted r blockNo rw).desc i = d.desc i := by
  simp only [Request.descs, List.mem_cons, List.not_mem_nil, or_false, not_or] at hi
  unfold submitted submit
  dsimp only
  rw [Function.update_of_ne hi.2.2, Function.update_of_ne hi.2.1, Function.update_of_ne hi.1]
  rfl

theorem submitted_info (hi : i ≠ r.i₀) : (d.submitted r blockNo rw).info i = d.info i :=
  Function.update_of_ne hi ..

theorem submitted_chained (hr : r.descs.Nodup) : Chained (d.submitted r blockNo rw) r := by
  simp only [Request.descs, List.nodup_cons, List.mem_cons, List.not_mem_nil, or_false, not_or]
    at hr
  obtain ⟨⟨h01, h02⟩, h12, -⟩ := hr
  unfold submitted submit
  refine ⟨?_, ?_, ?_, ?_⟩ <;> dsimp only
  · rw [Function.update_of_ne h02, Function.update_of_ne h01, Function.update_self]
    exact ⟨by simp [descFNext], rfl⟩
  · rw [Function.update_of_ne h12, Function.update_self]
    refine ⟨?_, rfl⟩
    cases rw <;> simp [descFNext, descFWrite]
  · rw [Function.update_self]
    exact ⟨by simp [descFNext, descFWrite], rfl⟩
  · rw [Function.update_self]

/-- The driver with `r` resumed. -/
def resumed (d : VirtDisk) (r : Request) : VirtDisk :=
  { d with
    info := Function.update d.info r.i₀ { d.info r.i₀ with buf := none }
    desc := fun i => if i ∈ r.descs then noDesc else d.desc i
    free := fun i => d.free i || decide (i ∈ r.descs) }

theorem freeChain_next {fuel j : Nat} (hi : i < queueSize) (hf : d.free i = false)
    (h : (d.desc i).flags &&& descFNext ≠ 0 ∧ (d.desc i).next = j) :
    freeChain (fuel + 1) d i = freeChain fuel (d.release i) j := by
  rw [freeChain, freeDesc_ok hi hf]
  dsimp only
  rw [if_pos h.1, h.2]

theorem freeChain_last {fuel : Nat} (hi : i < queueSize) (hf : d.free i = false)
    (h : (d.desc i).flags &&& descFNext = 0) :
    freeChain (fuel + 1) d i = .ok (d.release i) := by
  rw [freeChain, freeDesc_ok hi hf]
  dsimp only
  rw [if_neg (not_not.2 h)]

theorem freeChain_chained {fuel : Nat} (h : Chained d r) (hr : r.descs.Nodup)
    (hlt : ∀ i ∈ r.descs, i < queueSize) (hf : ∀ i ∈ r.descs, d.free i = false)
    (hd : d'.desc = d.desc ∧ d'.free = d.free) :
    freeChain (fuel + 3) d' r.i₀ = .ok (((d'.release r.i₀).release r.i₁).release r.i₂) := by
  simp only [Request.descs, List.nodup_cons, List.mem_cons, List.not_mem_nil, or_false, not_or,
    forall_eq_or_imp, forall_eq, ← ne_eq] at hr hlt hf
  obtain ⟨⟨h01, h02⟩, h12, -⟩ := hr
  obtain ⟨hdesc, hfree⟩ := hd
  calc freeChain (fuel + 3) d' r.i₀
      = freeChain (fuel + 2) (d'.release r.i₀) r.i₁ :=
        freeChain_next hlt.1 (hfree ▸ hf.1) (hdesc ▸ h.head)
    _ = freeChain (fuel + 1) ((d'.release r.i₀).release r.i₁) r.i₂ := by
        apply freeChain_next hlt.2.1
        · rw [release_free h01.symm, hfree]
          exact hf.2.1
        · rw [release_desc h01.symm, hdesc]
          exact h.data
    _ = .ok (((d'.release r.i₀).release r.i₁).release r.i₂) := by
        apply freeChain_last hlt.2.2
        · rw [release_free h12.symm, release_free h02.symm, hfree]
          exact hf.2.2
        · rw [release_desc h12.symm, release_desc h02.symm, hdesc]
          exact h.last.1

theorem rwEnd_ok (h : Chained d r) (hr : r.descs.Nodup) (hlt : ∀ i ∈ r.descs, i < queueSize)
    (hf : ∀ i ∈ r.descs, d.free i = false) : d.rwEnd r.i₀ = .ok (d.resumed r) := by
  unfold rwEnd
  refine (freeChain_chained h hr hlt hf ?_).trans ?_
  · exact ⟨rfl, rfl⟩
  simp only [release, resumed, Request.descs, Except.ok.injEq, VirtDisk.mk.injEq, true_and,
    and_true]
  refine ⟨funext fun i => ?_, funext fun i => ?_⟩
  · simp only [List.mem_cons, List.not_mem_nil, or_false, Function.update_apply]
    split_ifs <;> simp_all
  · simp only [List.mem_cons, List.not_mem_nil, or_false, Function.update_apply]
    split_ifs <;> simp_all

end VirtDisk

end Driver
