import OS404.Trap.Tasks
import OS404.Trap.Proof.Vector

/-!
# Contexts across traps and switches

What the ways through the kernel do to the contexts of the tasks.

* `Enters.spec`: from a trap to `trap_handler`. `Leaves.spec`: from `ret_from_sys_call` back.
* `Switches.spec`: `switch_to` changes only the `temp` of the task that is switched from, and returns
  exactly if the next task was switched from before.
-/

namespace Trap

open Switch (Reg Word Machine)

/-! ## `switch_to` -/

theorem execAll_mem {is : List Switch.Instr} (his : ∀ i ∈ is, ∀ rs off base, i ≠ .sd rs off base)
    (m : Machine) : (Switch.execAll m is).mem = m.mem := by
  induction is generalizing m with
  | nil => rfl
  | cons i is ih =>
    refine (ih (fun j hj => his j (.tail _ hj)) _).trans ?_
    cases i with
    | sd rs off base => exact absurd rfl (his _ (.head _) rs off base)
    | addi | mv | ld | csrw | csrr => rfl

/-- A call of `switch_to` ends with `next` in `sscratch`, and its second half does not write. It returns
exactly if `next->temp` is not 0. -/
theorem switchTo_spec {m m' : Machine}
    (h : Switch.switchTo m = .ret m' ∨ Switch.switchTo m = .retFromSysCall m') :
    m'.mem = (Switch.switchSave m).mem ∧ m'.sscratch = m.regs .a1 ∧
      (Switch.switchTo m = .ret m' ↔
        (Switch.switchSave m).load (Switch.tempOf (m.regs .a1)) ≠ 0) := by
  rw [← Switch.switchSave_a1 m]
  unfold Switch.switchTo at h ⊢
  generalize Switch.switchSave m = n at h ⊢
  let n₁ := Switch.execAll n [.csrw .a1, .csrr .t6, .ld .t5 Switch.offTemp .t6]
  have ht5 : n₁.regs .t5 = n.load (Switch.tempOf (n.regs .a1)) := rfl
  have hscr : n₁.sscratch = n.regs .a1 := rfl
  let js : List Switch.Instr :=
    [.mv .sp .t5, .mv .t6 .sp] ++ Switch.contextRestore .t6 ++ [.addi .sp .sp 104]
  have hload : Switch.switchLoad n =
      if n₁.regs .t5 = 0 then .retFromSysCall n₁ else .ret (Switch.execAll n₁ js) := rfl
  rw [hload, ht5] at h ⊢
  by_cases h0 : n.load (Switch.tempOf (n.regs .a1)) = 0
  · rw [if_pos h0] at h ⊢
    obtain h | h := h
    · cases h
    · have hm : n₁ = m' := Switch.Exit.retFromSysCall.inj h
      rw [← hm]
      exact ⟨rfl, hscr, iff_of_false (by simp) (by simpa using h0)⟩
  · rw [if_neg h0] at h ⊢
    obtain h | h := h
    · have hm : Switch.execAll n₁ js = m' := Switch.Exit.ret.inj h
      rw [← hm]
      refine ⟨execAll_mem ?_ n₁, (execAll_sscratch ?_ n₁).trans hscr, iff_of_true rfl h0⟩
      · simp [js, Switch.contextRestore]
      · simp [js, Switch.contextRestore]
    · cases h

/-! ## Contexts -/

section
variable {ι : Type} {L : Layout ι} {s : System ι} {i j : ι} {m m' : Machine} {h h' : Hart}
  {cause last : Word}

theorem SameContext.contextAt {a : Word} (hm : SameContext a m m') : contextAt m' a = contextAt m a :=
  contextAt_congr hm

/-- What is written to one context is not in another. -/
theorem Layout.same (L : Layout ι) (hij : j ≠ i)
    (hm : ∀ b : Word, sizeofReg ≤ (b - L.ctx i).toNat → m'.mem b = m.mem b) :
    SameContext (L.ctx j) m m' := fun b hb => hm b (L.apart j i hij b hb)

theorem SameContext.refl (a : Word) (hm : m'.mem = m.mem) : SameContext a m m' :=
  fun _ _ => by rw [hm]

/-- Moves between registers leave the contexts and what a trap uses. -/
theorem Called.of_set {r : Reg} {v : Word} (hr : r ≠ .sp) (hcall : Called L s (h.set r v) h') :
    Called L s h h' := by
  obtain ⟨hmem, hscr, hsepc, hscause⟩ := set_rest h r v
  refine ⟨fun j hj b hb => ?_, ?_, hcall.sscratch.trans hscr, hcall.sepc.trans hsepc,
    hcall.scause.trans hscause⟩
  · rw [hcall.keep j hj b hb, hmem]
  · rw [hcall.sp, set_regs, Function.update_of_ne hr.symm]

theorem Called.trans {h'' : Hart} (h₁ : Called L s h h') (h₂ : Called L s h' h'') :
    Called L s h h'' where
  keep j hj b hb := (h₂.keep j hj b hb).trans (h₁.keep j hj b hb)
  sp := h₂.sp.trans h₁.sp
  sscratch := h₂.sscratch.trans h₁.sscratch
  sepc := h₂.sepc.trans h₁.sepc
  scause := h₂.scause.trans h₁.scause

/-- The calls of `set_mode` and `Dect_stack` leave what `trap_vector` has saved. -/
theorem Enters.called (hin : Enters L s cause h') :
    ∃ h₂, Called L s (execAll (s.hart.trap cause) saveBlock) h₂ ∧
      h' = ((h₂.set .a0 h₂.scause).set .a1 h₂.sepc).set .a2 h₂.sscratch := by
  obtain ⟨h₁, h₂, hcall₁, -, hcall₂, rfl⟩ := hin
  have hli : ∀ h : Hart, execAll h [.li .a0 1] = h.set .a0 1 := fun _ => rfl
  have hmv : execAll h₁ [.core (.mv .a0 .sp)] = h₁.set .a0 (h₁.regs .sp) := rfl
  rw [execAll_append, hli] at hcall₁
  rw [hmv] at hcall₂
  exact ⟨h₂, (hcall₁.of_set (by decide)).trans (hcall₂.of_set (by decide)), rfl⟩

/-- From the trap to `trap_handler`: the registers are in the context of the running task. -/
theorem Enters.spec (hin : Enters L s cause h') (hs : s.hart.sscratch = L.ctx s.current)
    (hc : s.status s.current ≠ .absent) :
    (contextAt h'.toMachine (L.ctx s.current) =
      { regs := s.hart.regs, epc := s.hart.pc
        temp := (contextAt s.hart.toMachine (L.ctx s.current)).temp }) ∧
    (∀ j, j ≠ s.current → s.status j ≠ .absent →
      contextAt h'.toMachine (L.ctx j) = contextAt s.hart.toMachine (L.ctx j)) ∧
    h'.sscratch = L.ctx s.current ∧ h'.regs .a0 = cause ∧ h'.regs .a1 = s.hart.pc ∧
    h'.regs .a2 = L.ctx s.current := by
  obtain ⟨h₂, hcall, rfl⟩ := hin.called
  have hs₀ : (s.hart.trap cause).sscratch = L.ctx s.current := hs
  obtain ⟨hctx, hmem, hscr, hsepc, hscause⟩ := saveBlock_spec (s.hart.trap cause)
  rw [hs₀] at hctx hmem hscr
  generalize execAll (s.hart.trap cause) saveBlock = k at hcall hctx hmem hscr hsepc hscause
  refine ⟨(hcall.keep _ hc).contextAt.trans hctx, fun j hj hj' => ?_, hcall.sscratch.trans hscr, ?_, ?_,
    ?_⟩
  · exact (hcall.keep j hj').contextAt.trans (L.same hj hmem).contextAt
  · rw [set_regs, set_regs, set_regs]
    exact hcall.scause.trans hscause
  · rw [set_regs, set_regs]
    exact hcall.sepc.trans hsepc
  · rw [set_regs]
    exact hcall.sscratch.trans hscr

/-- From `ret_from_sys_call` to the user's code: the registers are loaded from the context in
`sscratch`. -/
theorem Leaves.spec (hout : Leaves L s h h') (hs : h.sscratch = L.ctx i) (hi : s.status i ≠ .absent) :
    h'.regs = (contextAt h.toMachine (L.ctx i)).regs ∧
    h'.pc = (contextAt h.toMachine (L.ctx i)).epc ∧ h'.sscratch = L.ctx i ∧
    ∀ j, s.status j ≠ .absent →
      contextAt h'.toMachine (L.ctx j) = contextAt h.toMachine (L.ctx j) := by
  obtain ⟨h₁, hcall, rfl⟩ := hout
  have hli : execAll h [.li .a0 0] = h.set .a0 0 := rfl
  rw [hli] at hcall
  have hcall := hcall.of_set (by decide)
  obtain ⟨hregs, hsepc, hmem, hscr⟩ := restoreBlock_spec h₁
  have hs₁ : h₁.sscratch = L.ctx i := hcall.sscratch.trans hs
  have hkeep : ∀ j, s.status j ≠ .absent →
      contextAt h₁.toMachine (L.ctx j) = contextAt h.toMachine (L.ctx j) :=
    fun j hj => (hcall.keep j hj).contextAt
  rw [hs₁, hkeep i hi] at hregs hsepc
  generalize execAll h₁ restoreBlock = k at hregs hsepc hmem hscr
  exact ⟨hregs, hsepc, hscr.trans hs₁,
    fun j hj => (SameContext.refl _ hmem).contextAt.trans (hkeep j hj)⟩

theorem tempOf_eq (a : Word) : Switch.tempOf a = fieldAt a 32 := rfl

/-- Saving the running task's kernel registers changes only the `temp` of its context. -/
theorem switchSave_contexts {n : Machine} {next : Word} (hsp : StackApart L (s.hart.regs .sp))
    (hn : n = Switch.switchSave (atSwitch s.hart (L.ctx s.current) next)) :
    (∀ i, i ≠ s.current → SameContext (L.ctx i) s.hart.toMachine n) ∧
    (contextAt n (L.ctx s.current)).regs = (contextAt s.hart.toMachine (L.ctx s.current)).regs ∧
    (contextAt n (L.ctx s.current)).epc = (contextAt s.hart.toMachine (L.ctx s.current)).epc ∧
    (contextAt n (L.ctx s.current)).temp ≠ 0 := by
  have ha0 : (atSwitch s.hart (L.ctx s.current) next).regs .a0 = L.ctx s.current := by simp [atSwitch]
  have hmsp : (atSwitch s.hart (L.ctx s.current) next).regs .sp = s.hart.regs .sp := by simp [atSwitch]
  have hpre : (atSwitch s.hart (L.ctx s.current) next).mem = s.hart.mem := rfl
  have hlast : (atSwitch s.hart (L.ctx s.current) next).regs .a0 ≠ 0 := by
    rw [ha0]
    exact L.nonnull _
  obtain ⟨-, -, hmem, htemp⟩ := Switch.switchSave_spec hlast
  rw [ha0, hmsp] at hmem htemp
  rw [hpre] at hmem
  rw [← hn, tempOf_eq] at hmem htemp
  -- A byte of a context is not in the save area.
  have hout : ∀ i, ∀ b : Word, (b - L.ctx i).toNat < sizeofReg →
      112 ≤ (b - Switch.saveArea (s.hart.regs .sp)).toNat := by
    unfold Switch.saveArea
    exact hsp.2
  have hfield : ∀ i < 32, n.load (fieldAt (L.ctx s.current) i) =
      s.hart.load (fieldAt (L.ctx s.current) i) := fun i hi =>
    Switch.load_congr fun k hk =>
      hmem _ (hout s.current _ (field_byte_lt (by omega) hk))
        (fieldAt_byte_sub (by decide) (by omega) (by omega) hk)
  refine ⟨?_, ?_, ?_, ?_⟩
  · intro i hi b hb
    exact hmem b (hout i b hb) (sub_field_of_le (by decide) (L.apart i _ hi b hb))
  · funext r
    rw [contextAt_regs, contextAt_regs, hfield _ (by have := idxOf_lt r; omega)]
  · exact hfield 31 (by decide)
  · have htemp := htemp fun k hk => hout s.current _ (field_byte_lt (by decide) hk)
    intro h0
    have h0 := htemp.symm.trans h0
    unfold Switch.saveArea at h0
    exact hsp.1 (by simpa using BitVec.sub_eq_iff_eq_add.1 h0)

/-- What `switch_to` leaves of the contexts. It returns exactly if `next` was switched from before. -/
theorem Switches.spec (hj : Switches L s last j)
    (hsw : Switch.switchTo (atSwitch s.hart last (L.ctx j)) = .ret m' ∨
      Switch.switchTo (atSwitch s.hart last (L.ctx j)) = .retFromSysCall m') :
    m'.sscratch = L.ctx j ∧
    (∀ i, (contextAt m' (L.ctx i)).regs = (contextAt s.hart.toMachine (L.ctx i)).regs ∧
      (contextAt m' (L.ctx i)).epc = (contextAt s.hart.toMachine (L.ctx i)).epc) ∧
    (∀ i, i ≠ s.current → (contextAt m' (L.ctx i)).temp = (contextAt s.hart.toMachine (L.ctx i)).temp) ∧
    (j ≠ s.current → (contextAt m' (L.ctx s.current)).temp ≠ 0) ∧
    (Switch.switchTo (atSwitch s.hart last (L.ctx j)) = .ret m' ↔
      (contextAt s.hart.toMachine (L.ctx j)).temp ≠ 0) := by
  obtain ⟨hmem, hscr, hret⟩ := switchTo_spec hsw
  have ha1 : (atSwitch s.hart last (L.ctx j)).regs .a1 = L.ctx j := by simp [atSwitch]
  rw [ha1] at hscr hret
  have hsame : ∀ i, contextAt m' (L.ctx i) =
      contextAt (Switch.switchSave (atSwitch s.hart last (L.ctx j))) (L.ctx i) := fun i =>
    (SameContext.refl _ hmem).contextAt
  cases hj with
  | schedule hst hj hj' hsp =>
    obtain ⟨hother, hregs, hepc, htemp⟩ := switchSave_contexts hsp rfl
    refine ⟨hscr, fun i => ?_, fun i hi => ?_, fun _ => ?_, ?_⟩
    · rw [hsame]
      by_cases hi : i = s.current
      · rw [hi]
        exact ⟨hregs, hepc⟩
      · rw [(hother i hi).contextAt]
        exact ⟨rfl, rfl⟩
    · rw [hsame, (hother i hi).contextAt]
    · rwa [hsame]
    · rw [hret, ← (hother j hj).contextAt]
      rfl
  | execve hst =>
    have hsave : Switch.switchSave (atSwitch s.hart 0 (L.ctx s.current)) =
        atSwitch s.hart 0 (L.ctx s.current) := if_pos (by simp [atSwitch])
    have hctx : ∀ i, contextAt m' (L.ctx i) = contextAt s.hart.toMachine (L.ctx i) := fun i => by
      rw [hsame, hsave]
      exact (SameContext.refl _ rfl).contextAt
    refine ⟨hscr, fun i => ?_, fun i _ => ?_, fun hne => absurd rfl hne, ?_⟩
    · rw [hctx]
      exact ⟨rfl, rfl⟩
    · rw [hctx]
    · rw [hret, hsave]
      rfl

end

end Trap
