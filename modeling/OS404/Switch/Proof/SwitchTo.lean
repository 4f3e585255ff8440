import OS404.Switch.Machine

/-!
# What a task keeps across `switch_to`

`switch_to` reserves 104 bytes for fourteen registers, so the last one, `s11`, is saved over the
doubleword at the caller's `sp`.

* `switchSave_spec`, `switchLoad_spec`: the two halves of `switch_to`.
* `switch_transparent`: a task that is resumed finds `ra`, `sp` and `s0..s11` as they were, and its
  stack from `sp` on as it was exactly if the doubleword at `sp` was `s11` already.
-/

namespace Switch

open Lib

/-! ## Registers and memory -/

@[simp] theorem set_regs (m : Machine) (r : Reg) (v : Word) :
    (m.set r v).regs = Function.update m.regs r v := rfl

@[simp] theorem set_load (m : Machine) (r : Reg) (v a : Word) : (m.set r v).load a = m.load a := rfl

@[simp] theorem store_regs (m : Machine) (a v : Word) : (m.store a v).regs = m.regs := rfl

theorem store_mem_of_le {m : Machine} {a v b : Word} (h : 8 ≤ (b - a).toNat) :
    (m.store a v).mem b = m.mem b := storeNat_of_le h

theorem load_store (m : Machine) (a v : Word) : (m.store a v).load a = v := by
  have h : loadNat (m.store a v).mem a 8 = v.toNat :=
    loadNat_storeNat (by decide) (by have := v.isLt; omega)
  rw [Machine.load, h, BitVec.ofNat_toNat, BitVec.setWidth_eq]

theorem load_congr {m n : Machine} {a : Word}
    (h : ∀ i < 8, m.mem (a + BitVec.ofNat 64 i) = n.mem (a + BitVec.ofNat 64 i)) :
    m.load a = n.load a := by
  rw [Machine.load, loadNat_congr h, Machine.load]

/-- Two machines agree on the bytes of a doubleword exactly if they load the same. -/
theorem load_eq_iff {m m' : Machine} {a : Word} : m.load a = m'.load a ↔
    ∀ i < 8, m.mem (a + BitVec.ofNat 64 i) = m'.mem (a + BitVec.ofNat 64 i) := by
  refine ⟨fun h => loadNat_inj ?_, load_congr⟩
  have hlt := loadNat_lt m.mem 8 a
  have hlt' := loadNat_lt m'.mem 8 a
  have := congrArg BitVec.toNat h
  simp only [Machine.load, BitVec.toNat_ofNat] at this
  omega

/-! ## Saving and restoring a list of registers -/

/-- The registers of `context_save`, in the order of their slots. -/
def savedRegs : List Reg :=
  [.ra, .sp, .s0, .s1, .s2, .s3, .s4, .s5, .s6, .s7, .s8, .s9, .s10, .s11]

/-- Storing `rs` at the slots `k, k + 1, …` from `base`. -/
def saves (base : Reg) (k : Nat) (rs : List Reg) : List Instr :=
  (rs.zipIdx k).map fun p => .sd p.1 (8 * p.2) base

/-- Loading `rs` from the slots `k, k + 1, …`. -/
def restores (base : Reg) (k : Nat) (rs : List Reg) : List Instr :=
  (rs.zipIdx k).map fun p => .ld p.1 (8 * p.2) base

theorem contextSave_eq (base : Reg) : contextSave base = saves base 0 savedRegs := rfl

/-- Slot `i` of the area at `b`. -/
def slot (b : Word) (i : Nat) : Word := b + BitVec.ofNat 64 (8 * i)

theorem slot_succ (b : Word) (k : Nat) : slot b (k + 1) = slot b k + 8#64 := by
  rw [slot, slot, BitVec.add_assoc, Nat.mul_succ, BitVec.ofNat_add]

theorem sub_slot_succ {a b : Word} {k : Nat} (h : 8 ≤ (a - slot b k).toNat) :
    (a - slot b (k + 1)).toNat = (a - slot b k).toNat - 8 := by
  rw [slot_succ]
  generalize slot b k = c at h ⊢
  bv_omega

/-- A byte of slot `k` is not among the next slots. -/
theorem slot_byte_sub {b : Word} {k i : Nat} (hi : i < 8) :
    (slot b k + BitVec.ofNat 64 i - slot b (k + 1)).toNat = 2 ^ 64 - 8 + i := by
  rw [slot_succ]
  generalize slot b k = c
  bv_omega

theorem exec_saves (base : Reg) : ∀ (rs : List Reg) (k : Nat) (m : Machine), k + rs.length ≤ 2 ^ 60 →
    (execAll m (saves base k rs)).regs = m.regs ∧
    (∀ a, 8 * rs.length ≤ (a - slot (m.regs base) k).toNat →
      (execAll m (saves base k rs)).mem a = m.mem a) ∧
    ∀ (i : Nat) (r : Reg), rs[i]? = some r →
      (execAll m (saves base k rs)).load (slot (m.regs base) (k + i)) = m.regs r
  | [], k, m, _ => ⟨rfl, fun _ _ => rfl, fun i r h => by simp at h⟩
  | r :: rs, k, m, hk => by
    rw [List.length_cons] at hk
    have hstep : execAll m (saves base k (r :: rs)) =
        execAll (m.store (slot (m.regs base) k) (m.regs r)) (saves base (k + 1) rs) := rfl
    obtain ⟨h1, h2, h3⟩ := exec_saves base rs (k + 1)
      (m.store (slot (m.regs base) k) (m.regs r)) (by omega)
    rw [store_regs] at h2 h3
    rw [hstep]
    refine ⟨h1, fun a ha => ?_, fun i r' hi => ?_⟩
    · rw [List.length_cons] at ha
      have hne : 8 ≤ (a - slot (m.regs base) k).toNat := by omega
      have hle := sub_slot_succ hne
      rw [h2 a (by omega), store_mem_of_le hne]
    · cases i with
      | zero =>
        obtain rfl : r = r' := by simpa using hi
        refine Eq.trans (load_congr fun i hi => h2 _ ?_) (load_store ..)
        have hsub := slot_byte_sub (b := m.regs base) (k := k) hi
        rw [Nat.add_zero]
        omega
      | succ i =>
        rw [show k + (i + 1) = k + 1 + i by omega]
        exact h3 i r' (by simpa using hi)

theorem exec_restores (base : Reg) : ∀ (rs : List Reg) (k : Nat) (m : Machine), rs.Nodup →
    base ∉ rs →
    (execAll m (restores base k rs)).mem = m.mem ∧
    (∀ r ∉ rs, (execAll m (restores base k rs)).regs r = m.regs r) ∧
    ∀ (i : Nat) (r : Reg), rs[i]? = some r →
      (execAll m (restores base k rs)).regs r = m.load (slot (m.regs base) (k + i))
  | [], k, m, _, _ => ⟨rfl, fun _ _ => rfl, fun i r h => by simp at h⟩
  | r :: rs, k, m, hnd, hb => by
    obtain ⟨hr, hnd⟩ := List.nodup_cons.1 hnd
    have hbr : base ≠ r := fun he => hb (he ▸ .head _)
    have hstep : execAll m (restores base k (r :: rs)) =
        execAll (m.set r (m.load (slot (m.regs base) k))) (restores base (k + 1) rs) := rfl
    obtain ⟨h1, h2, h3⟩ := exec_restores base rs (k + 1) (m.set r (m.load (slot (m.regs base) k))) hnd
      fun hm => hb (.tail _ hm)
    simp only [set_load, set_regs, Function.update_of_ne hbr] at h3
    rw [hstep]
    refine ⟨h1, fun r' hr' => ?_, fun i r' hi => ?_⟩
    · rw [List.mem_cons, not_or] at hr'
      rw [h2 r' hr'.2, set_regs, Function.update_of_ne hr'.1]
    · cases i with
      | zero =>
        obtain rfl : r = r' := by simpa using hi
        rw [h2 r hr, set_regs, Function.update_self, Nat.add_zero]
      | succ i =>
        rw [show k + (i + 1) = k + 1 + i by omega]
        exact h3 i r' (by simpa using hi)

theorem execAll_append (m : Machine) (is js : List Instr) :
    execAll m (is ++ js) = execAll (execAll m is) js := List.foldl_append ..

/-! ## The two halves -/

/-- The save area of a call with stack pointer `sp`. -/
def saveArea (sp : Word) : Word := sp - 104

/-- The address of `last->temp`. -/
def tempOf (ctx : Word) : Word := ctx + BitVec.ofNat 64 offTemp

/-- `switch_to` up to label `1` with `last` not null: slot `i` of the save area holds register `i`
(`sp` as it is then), and only the save area and `last->temp` have changed. -/
theorem switchSave_spec {s : Machine} (h0 : s.regs .a0 ≠ 0) :
    (∀ r, r ≠ .sp → r ≠ .t6 → (switchSave s).regs r = s.regs r) ∧
    (∀ (i : Nat) (r : Reg), savedRegs[i]? = some r →
      (switchSave s).load (slot (saveArea (s.regs .sp)) i) =
        if r = .sp then saveArea (s.regs .sp) else s.regs r) ∧
    (∀ a, 112 ≤ (a - saveArea (s.regs .sp)).toNat → 8 ≤ (a - tempOf (s.regs .a0)).toNat →
      (switchSave s).mem a = s.mem a) ∧
    ((∀ i < 8, 112 ≤ (tempOf (s.regs .a0) + BitVec.ofNat 64 i - saveArea (s.regs .sp)).toNat) →
      (switchSave s).load (tempOf (s.regs .a0)) = saveArea (s.regs .sp)) := by
  let m := ((s.set .sp (saveArea (s.regs .sp))).store (tempOf (s.regs .a0))
    (saveArea (s.regs .sp))).set .t6 (saveArea (s.regs .sp))
  have hs : switchSave s = execAll m (saves .t6 0 savedRegs) := by
    have harea : s.regs .sp + BitVec.ofInt 64 (-104) = saveArea (s.regs .sp) := by
      rw [saveArea, BitVec.sub_eq_add_neg, show BitVec.ofInt 64 (-104) = -104 by decide]
    have hpre : execAll s [.addi .sp .sp (-104), .sd .sp offTemp .a0, .mv .t6 .sp] = m := by
      have ha0 : Reg.a0 ≠ Reg.sp := by decide
      simp only [execAll, List.foldl_cons, List.foldl_nil, Instr.exec, set_regs, store_regs,
        Function.update_self, Function.update_of_ne ha0, harea]
      rfl
    rw [switchSave, if_neg h0, execAll_append, contextSave_eq, hpre]
  have hslot0 : slot (saveArea (s.regs .sp)) 0 = saveArea (s.regs .sp) := by
    rw [slot, Nat.mul_zero, BitVec.add_zero]
  have ht6 : m.regs .t6 = saveArea (s.regs .sp) := by
    simp only [m, set_regs, Function.update_self]
  obtain ⟨h1, h2, h3⟩ := exec_saves .t6 savedRegs 0 m (by decide)
  rw [ht6] at h2 h3
  rw [hslot0] at h2
  rw [hs]
  refine ⟨fun r hsp ht => ?_, fun i r hi => ?_, fun a ha hat => ?_, fun ht => ?_⟩
  · rw [h1]
    simp [m, Function.update_of_ne ht, Function.update_of_ne hsp]
  · have hr := h3 i r hi
    rw [Nat.zero_add] at hr
    rw [hr]
    have hrt : r ≠ .t6 := fun he => by
      have := List.mem_of_getElem? hi
      rw [he] at this
      revert this
      decide
    split
    · subst r
      simp [m]
    · rename_i hsp
      simp [m, Function.update_of_ne hrt, Function.update_of_ne hsp]
  · rw [h2 a ha]
    exact store_mem_of_le hat
  · refine Eq.trans (load_congr (n := m) fun i hi => h2 _ (ht i hi)) ?_
    exact load_store ..

/-- `switch_to` from label `1` with a stack pointer `x` in `next->temp`: every register is loaded
from its slot, and the stack pointer is moved up again. -/
theorem switchLoad_spec {m : Machine} {x : Word} (hx : m.load (tempOf (m.regs .a1)) = x)
    (h0 : x ≠ 0) : ∃ f, switchLoad m = .ret f ∧ f.mem = m.mem ∧
      f.regs .sp = m.load (slot x 1) + 104 ∧
      ∀ (i : Nat) (r : Reg), savedRegs[i]? = some r → r ≠ .sp → f.regs r = m.load (slot x i) := by
  let m₁ := execAll m [.csrw .a1, .csrr .t6, .ld .t5 offTemp .t6]
  have ht5 : m₁.regs .t5 = x := hx
  let m₂ := execAll m₁ [.mv .sp .t5, .mv .t6 .sp]
  have ht6 : m₂.regs .t6 = x := ht5
  obtain ⟨h1, -, h3⟩ := exec_restores .t6 savedRegs 0 m₂ (by decide) (by decide)
  simp only [ht6, Nat.zero_add] at h3
  refine ⟨Instr.exec (execAll m₂ (restores .t6 0 savedRegs)) (.addi .sp .sp 104), ?_, h1, ?_,
    fun i r hi hr => ?_⟩
  · rw [switchLoad]
    exact if_neg (fun he => h0 (ht5.symm.trans he))
  · simp only [Instr.exec, set_regs, Function.update_self]
    rw [h3 1 .sp rfl]
    rfl
  · simp only [Instr.exec, set_regs, Function.update_of_ne hr]
    exact h3 i r hi

/-! ## A task and its resumption -/

/-- `s` is the call of `switch_to` by a task whose stack is `[lo, hi)`: `last` is its context,
which is not on the stack, and the stack has room for the save area and one doubleword above
`sp`. -/
structure Call (lo hi : Nat) (s : Machine) : Prop where
  last : s.regs .a0 ≠ 0
  pos : 0 < lo
  low : lo + 104 ≤ (s.regs .sp).toNat
  high : (s.regs .sp).toNat + 8 ≤ hi
  top : hi ≤ 2 ^ 64
  ctx : ∀ i < 8, (tempOf (s.regs .a0) + BitVec.ofNat 64 i).toNat < lo ∨
    hi ≤ (tempOf (s.regs .a0) + BitVec.ofNat 64 i).toNat

/-- `r` is a later call of `switch_to` whose `next` is the context of the task that called it in
`s`, and no one has touched that task's stack and `temp` in between. -/
structure Resumes (lo hi : Nat) (s r : Machine) : Prop where
  next : r.regs .a1 = s.regs .a0
  stack : ∀ a : Word, lo ≤ a.toNat → a.toNat < hi → (switchSave r).mem a = (switchSave s).mem a
  temp : (switchSave r).load (tempOf (s.regs .a0)) = (switchSave s).load (tempOf (s.regs .a0))

section
variable {lo hi : Nat} {s r : Machine}

theorem Call.toNat_saveArea (h : Call lo hi s) :
    (saveArea (s.regs .sp)).toNat = (s.regs .sp).toNat - 104 := by
  have hlow := h.low
  unfold saveArea
  bv_omega

theorem Call.temp_apart (h : Call lo hi s) : ∀ i < 8,
    112 ≤ (tempOf (s.regs .a0) + BitVec.ofNat 64 i - saveArea (s.regs .sp)).toNat := by
  intro i hi'
  have h1 := h.toNat_saveArea
  have h2 := h.ctx i hi'
  have hlow := h.low
  have hhigh := h.high
  have htop := h.top
  generalize tempOf (s.regs .a0) + BitVec.ofNat 64 i = x at *
  generalize saveArea (s.regs .sp) = y at *
  generalize s.regs .sp = z at *
  bv_omega

/-- A slot's bytes are on the stack, so the resumed task loads what it saved. -/
theorem Resumes.load_slot (hc : Call lo hi s) (hr : Resumes lo hi s r) {i : Nat} (hi' : i < 14) :
    (switchSave r).load (slot (saveArea (s.regs .sp)) i) =
      (switchSave s).load (slot (saveArea (s.regs .sp)) i) := by
  refine load_congr fun j hj => hr.stack _ ?_ ?_ <;>
  · have h1 := hc.toNat_saveArea
    have hlow := hc.low
    have hhigh := hc.high
    have htop := hc.top
    unfold slot
    generalize saveArea (s.regs .sp) = y at *
    generalize s.regs .sp = z at *
    bv_omega

/-- Above the save area the call changes nothing on the stack. -/
theorem Call.mem_above (hc : Call lo hi s) {a : Word} (h1 : (s.regs .sp).toNat + 8 ≤ a.toNat)
    (h2 : a.toNat < hi) : (switchSave s).mem a = s.mem a := by
  obtain ⟨-, -, hmem, -⟩ := switchSave_spec hc.last
  refine hmem a ?_ ?_
  · have harea := hc.toNat_saveArea
    have hlow := hc.low
    generalize saveArea (s.regs .sp) = y at *
    generalize s.regs .sp = z at *
    bv_omega
  · by_contra hlt
    have hctx := hc.ctx (a - tempOf (s.regs .a0)).toNat (by omega)
    have hlow := hc.low
    rw [BitVec.ofNat_toNat, BitVec.setWidth_eq, BitVec.add_comm, BitVec.sub_add_cancel] at hctx
    omega

/-- The stack from `sp` on survives the call exactly if its first doubleword does. -/
theorem Call.mem_iff (hc : Call lo hi s) :
    (∀ a : Word, (s.regs .sp).toNat ≤ a.toNat → a.toNat < hi → (switchSave s).mem a = s.mem a) ↔
      s.load (s.regs .sp) = s.regs .s11 := by
  have hlow := hc.low
  have hhigh := hc.high
  have htop := hc.top
  have hs11 : (switchSave s).load (s.regs .sp) = s.regs .s11 := by
    obtain ⟨-, hslots, -, -⟩ := switchSave_spec hc.last
    have hslot : slot (saveArea (s.regs .sp)) 13 = s.regs .sp := BitVec.sub_add_cancel ..
    have h13 := hslots 13 .s11 rfl
    rwa [hslot, if_neg (by decide)] at h13
  have hbyte : ∀ i < 8, (s.regs .sp + BitVec.ofNat 64 i).toNat = (s.regs .sp).toNat + i := by
    intro i hi'
    generalize s.regs .sp = z at *
    bv_omega
  rw [← hs11, eq_comm (a := s.load _), load_eq_iff]
  constructor
  · intro h i hi'
    have := hbyte i hi'
    exact h _ (by omega) (by omega)
  · intro h a h1 h2
    by_cases ha : (s.regs .sp).toNat + 8 ≤ a.toNat
    · exact hc.mem_above ha h2
    · have hab := hbyte (a.toNat - (s.regs .sp).toNat) (by omega)
      have hx := h (a.toNat - (s.regs .sp).toNat) (by omega)
      rwa [BitVec.eq_of_toNat_eq (hab.trans (by omega) : _ = a.toNat)] at hx

theorem switchSave_a1 (r : Machine) : (switchSave r).regs .a1 = r.regs .a1 := by
  by_cases h0 : r.regs .a0 = 0
  · rw [switchSave, if_pos h0]
  · exact (switchSave_spec h0).1 .a1 (by decide) (by decide)

/-- **What a task keeps across `switch_to`**: when it is resumed, `ra`, `sp` and `s0..s11` are as
they were at the call, and its stack from `sp` on is as it was exactly if the doubleword at `sp`
was equal to `s11`. -/
theorem switch_transparent (hc : Call lo hi s) (hr : Resumes lo hi s r) :
    ∃ f, switchTo r = .ret f ∧ (∀ x ∈ savedRegs, f.regs x = s.regs x) ∧
      ((∀ a : Word, (s.regs .sp).toNat ≤ a.toNat → a.toNat < hi → f.mem a = s.mem a) ↔
        s.load (s.regs .sp) = s.regs .s11) := by
  obtain ⟨-, hslots, -, htemp⟩ := switchSave_spec hc.last
  have hx : (switchSave r).load (tempOf ((switchSave r).regs .a1)) = saveArea (s.regs .sp) := by
    rw [switchSave_a1, hr.next, hr.temp, htemp hc.temp_apart]
  have h0 : saveArea (s.regs .sp) ≠ 0 := fun he => by
    have harea := hc.toNat_saveArea
    have hlow := hc.low
    have hpos := hc.pos
    rw [he, show (0 : Word).toNat = 0 from rfl] at harea
    omega
  obtain ⟨f, hf, hmem, hsp, hregs⟩ := switchLoad_spec hx h0
  refine ⟨f, hf, fun x hmx => ?_, ?_⟩
  · obtain ⟨i, hi'⟩ := List.getElem?_of_mem hmx
    have hlt : i < 14 := (List.getElem?_eq_some_iff.1 hi').1
    by_cases hxs : x = .sp
    · subst hxs
      rw [hsp, hr.load_slot hc (by omega), hslots 1 .sp rfl, if_pos rfl]
      exact BitVec.sub_add_cancel ..
    · rw [hregs i x hi' hxs, hr.load_slot hc hlt, hslots i x hi', if_neg hxs]
  · rw [← hc.mem_iff, hmem]
    have hlow := hc.low
    refine forall_congr' fun a => forall_congr' fun h1 => forall_congr' fun h2 => ?_
    rw [hr.stack a (by omega) h2]

end

/-- A task with stack `[0x800, 0x1100)`, `sp` at `0x1000`, its context at `0x8000` and nothing but
zeros in memory. -/
def sampleCall (s11 : Word) : Machine where
  regs
    | .sp => 0x1000
    | .a0 => 0x8000
    | .s11 => s11
    | _ => 0
  mem _ := 0
  sscratch := 0

/-- Its resumption by a task that is gone. -/
def sampleResume (s11 : Word) : Machine where
  regs
    | .a1 => 0x8000
    | _ => 0
  mem := (switchSave (sampleCall s11)).mem
  sscratch := 0

theorem sample_call (s11 : Word) : Call 0x800 0x1100 (sampleCall s11) where
  last := show (0x8000 : Word) ≠ 0 by decide
  pos := by decide
  low := show 0x800 + 104 ≤ (0x1000 : Word).toNat by decide
  high := show (0x1000 : Word).toNat + 8 ≤ 0x1100 by decide
  top := by decide
  ctx := show ∀ i < 8, (0x8000 + BitVec.ofNat 64 256 + BitVec.ofNat 64 i : Word).toNat < 0x800 ∨
    0x1100 ≤ (0x8000 + BitVec.ofNat 64 256 + BitVec.ofNat 64 i : Word).toNat by decide

theorem sample_resumes (s11 : Word) :
    Resumes 0x800 0x1100 (sampleCall s11) (sampleResume s11) := by
  have hr : switchSave (sampleResume s11) = sampleResume s11 := if_pos rfl
  have hl : ∀ a, (sampleResume s11).load a = (switchSave (sampleCall s11)).load a :=
    fun a => load_congr fun _ _ => rfl
  exact ⟨rfl, fun a _ _ => by rw [hr]; rfl, by rw [hr, hl]⟩

theorem switch_transparent_zero : ∃ f, switchTo (sampleResume 0) = .ret f ∧
    f.regs .sp = 0x1000 ∧
    ∀ a : Word, 0x1000 ≤ a.toNat → a.toNat < 0x1100 → f.mem a = (sampleCall 0).mem a := by
  obtain ⟨f, hf, hregs, hmem⟩ := switch_transparent (sample_call 0) (sample_resumes 0)
  exact ⟨f, hf, hregs .sp (by decide), hmem.2 (by decide)⟩

/-- With another `s11` the doubleword at `sp` is overwritten. -/
theorem switch_overwrites_caller : Call 0x800 0x1100 (sampleCall 1) ∧
    Resumes 0x800 0x1100 (sampleCall 1) (sampleResume 1) ∧
    ∃ f, switchTo (sampleResume 1) = .ret f ∧ f.mem 0x1000 ≠ (sampleCall 1).mem 0x1000 := by
  refine ⟨sample_call 1, sample_resumes 1, _, rfl, ?_⟩
  decide +kernel

end Switch
