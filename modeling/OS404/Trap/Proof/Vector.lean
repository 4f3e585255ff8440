import OS404.Trap.Vector
import OS404.Switch.Proof.SwitchTo

/-!
# What the trap code does to a context

* `saveBlock_spec`: `trap_vector` puts all registers and the program counter into the context in
  `sscratch`, and touches nothing else.
* `restoreBlock_spec`: `ret_from_sys_call` loads all of them from the context in `sscratch`.
* `contextAt_putContext`, `contextAt_congr`: contexts as they are written by the C code.
-/

namespace Trap

open Switch (Reg Word Machine slot saves restores exec_saves exec_restores)
open Sched (Context)

/-! ## Code blocks -/

theorem set_regs (h : Hart) (r : Reg) (v : Word) :
    (h.set r v).regs = Function.update h.regs r v := rfl

/-- Setting a register leaves the rest. -/
theorem set_rest (h : Hart) (r : Reg) (v : Word) :
    (h.set r v).mem = h.mem ∧ (h.set r v).sscratch = h.sscratch ∧ (h.set r v).sepc = h.sepc ∧
      (h.set r v).scause = h.scause := ⟨rfl, rfl, rfl, rfl⟩

theorem execAll_append (h : Hart) (is js : List Instr) :
    execAll h (is ++ js) = execAll (execAll h is) js := List.foldl_append ..

theorem execAll_core (is : List Switch.Instr) (h : Hart) :
    execAll h (is.map .core) = { h with toMachine := Switch.execAll h.toMachine is } := by
  induction is generalizing h with
  | nil => rfl
  | cons i is ih => exact ih _

/-- Only `csrw` writes to `sscratch`. -/
theorem execAll_sscratch {is : List Switch.Instr} (his : ∀ i ∈ is, ∀ rs, i ≠ .csrw rs) (m : Machine) :
    (Switch.execAll m is).sscratch = m.sscratch := by
  induction is generalizing m with
  | nil => rfl
  | cons i is ih =>
    refine (ih (fun j hj => his j (.tail _ hj)) _).trans ?_
    cases i with
    | csrw rs => exact absurd rfl (his _ (.head _) rs)
    | addi | mv | sd | ld | csrr => rfl

/-- The registers that `reg_save` stores. -/
def userRegs : List Reg := regOrder.take 30

theorem userRegs_getElem (r : Reg) (h : r ≠ .t6) : userRegs[regOrder.idxOf r]? = some r := by
  cases r <;> first | rfl | exact absurd rfl h

theorem idxOf_lt (r : Reg) : regOrder.idxOf r < 31 := by cases r <;> decide

theorem idxOf_inj {r r' : Reg} (h : regOrder.idxOf r = regOrder.idxOf r') : r = r' := by
  have hr : ∀ r : Reg, regOrder[regOrder.idxOf r]? = some r := fun r => by cases r <;> rfl
  exact Option.some.inj ((hr r).symm.trans (h ▸ hr r'))

/-! ## Fields -/

theorem fieldAt_byte_sub {a : Word} {i j k : Nat} (hi : i < 33) (hj : j < 33) (hne : i ≠ j)
    (hk : k < 8) : 8 ≤ (fieldAt a j + BitVec.ofNat 64 k - fieldAt a i).toNat := by
  unfold fieldAt
  bv_omega

theorem load_store_field_ne {m : Machine} {a v : Word} {i j : Nat} (hi : i < 33) (hj : j < 33)
    (hne : i ≠ j) : (m.store (fieldAt a i) v).load (fieldAt a j) = m.load (fieldAt a j) :=
  Switch.load_congr fun _ hk => Switch.store_mem_of_le (fieldAt_byte_sub hi hj hne hk)

theorem field_byte_lt {a : Word} {i k : Nat} (hi : i < 33) (hk : k < 8) :
    (fieldAt a i + BitVec.ofNat 64 k - a).toNat < sizeofReg := by
  unfold fieldAt sizeofReg
  bv_omega

theorem sub_field_of_le {a b : Word} {i : Nat} (hi : i < 33) (h : sizeofReg ≤ (b - a).toNat) :
    8 ≤ (b - fieldAt a i).toNat := by
  unfold fieldAt
  unfold sizeofReg at h
  bv_omega

theorem contextAt_regs (m : Machine) (a : Word) (r : Reg) :
    (contextAt m a).regs r = m.load (fieldAt a (regOrder.idxOf r)) := rfl

/-- A context is what its bytes say. -/
theorem contextAt_congr {m m' : Machine} {a : Word}
    (h : ∀ b : Word, (b - a).toNat < sizeofReg → m'.mem b = m.mem b) :
    contextAt m' a = contextAt m a := by
  have hload : ∀ i < 33, m'.load (fieldAt a i) = m.load (fieldAt a i) := fun i hi =>
    Switch.load_congr fun k hk => h _ (field_byte_lt hi hk)
  have hregs : ∀ r : Reg, regOrder.idxOf r < 33 := fun r => by have := idxOf_lt r; omega
  simp only [contextAt, hload _ (hregs _), hload 31 (by decide), hload 32 (by decide)]

theorem storeFields_mem {a b : Word} : ∀ (ws : List Word) (k : Nat) (m : Machine),
    k + ws.length ≤ 33 → sizeofReg ≤ (b - a).toNat → (storeFields a k ws m).mem b = m.mem b
  | [], _, _, _, _ => rfl
  | w :: ws, k, m, hk, hb => by
    rw [List.length_cons] at hk
    rw [storeFields, storeFields_mem ws (k + 1) _ (by omega) hb]
    exact Switch.store_mem_of_le (sub_field_of_le (by omega) hb)

theorem storeFields_load_lt {a : Word} {i : Nat} : ∀ (ws : List Word) (k : Nat) (m : Machine),
    k + ws.length ≤ 33 → i < k → (storeFields a k ws m).load (fieldAt a i) = m.load (fieldAt a i)
  | [], _, _, _, _ => rfl
  | w :: ws, k, m, hk, hi => by
    rw [List.length_cons] at hk
    rw [storeFields, storeFields_load_lt ws (k + 1) _ (by omega) (by omega)]
    exact load_store_field_ne (by omega) (by omega) (by omega)

theorem storeFields_load {a w : Word} : ∀ (ws : List Word) (k i : Nat) (m : Machine),
    k + ws.length ≤ 33 → ws[i]? = some w → (storeFields a k ws m).load (fieldAt a (k + i)) = w
  | [], _, _, _, _, h => by simp at h
  | w' :: ws, k, i, m, hk, h => by
    rw [List.length_cons] at hk
    rw [storeFields]
    cases i with
    | zero =>
      obtain rfl : w' = w := by simpa using h
      rw [Nat.add_zero, storeFields_load_lt ws (k + 1) _ (by omega) (by omega)]
      exact Switch.load_store ..
    | succ i =>
      rw [show k + (i + 1) = k + 1 + i by omega]
      exact storeFields_load ws (k + 1) i _ (by omega) (by simpa using h)

/-- A context that was written is read back. -/
theorem contextAt_putContext (m : Machine) (a : Word) (c : Context) :
    contextAt (putContext m a c) a = c := by
  have hload : ∀ i w, (regOrder.map c.regs ++ [c.epc, c.temp])[i]? = some w →
      (putContext m a c).load (fieldAt a i) = w := fun i w h => by
    have := storeFields_load (a := a) _ 0 i m (by simp [regOrder]) h
    rwa [Nat.zero_add] at this
  have hregs : (fun r => (putContext m a c).load (fieldAt a (regOrder.idxOf r))) = c.regs := by
    funext r
    exact hload _ _ (by cases r <;> rfl)
  simp only [contextAt, hregs, hload 31 c.epc rfl, hload 32 c.temp rfl]

theorem putContext_mem {m : Machine} {a b : Word} {c : Context} (h : sizeofReg ≤ (b - a).toNat) :
    (putContext m a c).mem b = m.mem b := storeFields_mem _ 0 m (by simp [regOrder]) h

theorem putContext_sscratch (m : Machine) (a : Word) (c : Context) :
    (putContext m a c).sscratch = m.sscratch := by
  unfold putContext
  generalize regOrder.map c.regs ++ [c.epc, c.temp] = ws
  generalize 0 = k
  induction ws generalizing k m with
  | nil => rfl
  | cons w ws ih => exact ih _ _

/-- One register of a context is assigned. -/
theorem contextAt_store_reg (m : Machine) (a v : Word) (r : Reg) :
    contextAt (m.store (fieldAt a (regOrder.idxOf r)) v) a =
      { contextAt m a with regs := Function.update (contextAt m a).regs r v } := by
  have hr := idxOf_lt r
  have hregs : (contextAt (m.store (fieldAt a (regOrder.idxOf r)) v) a).regs =
      Function.update (contextAt m a).regs r v := by
    funext r'
    have hr' := idxOf_lt r'
    by_cases hne : r' = r
    · subst hne
      rw [Function.update_self]
      exact Switch.load_store ..
    · rw [Function.update_of_ne hne]
      exact load_store_field_ne (by omega) (by omega) fun he => hne (idxOf_inj he.symm)
  have hrest : ∀ i, 31 ≤ i → i < 33 →
      (m.store (fieldAt a (regOrder.idxOf r)) v).load (fieldAt a i) = m.load (fieldAt a i) :=
    fun i h31 h33 => load_store_field_ne (by omega) h33 (by omega)
  have hepc := hrest 31 (by decide) (by decide)
  have htemp := hrest 32 (by decide) (by decide)
  simp only [contextAt] at hregs ⊢
  rw [hregs, hepc, htemp]

/-- The program counter of a context is assigned. -/
theorem contextAt_store_epc (m : Machine) (a v : Word) :
    contextAt (m.store (fieldAt a 31) v) a = { contextAt m a with epc := v } := by
  have hregs : (contextAt (m.store (fieldAt a 31) v) a).regs = (contextAt m a).regs := by
    funext r
    have hr := idxOf_lt r
    exact load_store_field_ne (by decide) (by omega) (by omega)
  have hepc : (m.store (fieldAt a 31) v).load (fieldAt a 31) = v := Switch.load_store ..
  have htemp : (m.store (fieldAt a 31) v).load (fieldAt a 32) = m.load (fieldAt a 32) :=
    load_store_field_ne (by decide) (by decide) (by decide)
  simp only [contextAt] at hregs ⊢
  rw [hregs, hepc, htemp]

theorem store_field_mem {m : Machine} {a b v : Word} {i : Nat} (hi : i < 33)
    (hb : sizeofReg ≤ (b - a).toNat) : (m.store (fieldAt a i) v).mem b = m.mem b :=
  Switch.store_mem_of_le (sub_field_of_le hi hb)

/-! ## The way in and the way out -/

/-- `trap_vector` behind `reg_save`. -/
def saveTail : List Instr :=
  [.core (.mv .t5 .t6), .core (.csrr .t6), .core (.sd .t6 240 .t5), .csrrSepc .t6,
   .core (.sd .t6 248 .t5), .core (.csrw .t5)]

/-- `t6` and the program counter follow the other registers, and `sscratch` is the context again. -/
theorem exec_saveTail (h : Hart) :
    (execAll h saveTail).mem = ((h.toMachine.store (fieldAt (h.regs .t6) 30) h.sscratch).store
      (fieldAt (h.regs .t6) 31) h.sepc).mem ∧
    (execAll h saveTail).sscratch = h.regs .t6 ∧ (execAll h saveTail).sepc = h.sepc ∧
    (execAll h saveTail).scause = h.scause := by
  simp [execAll, saveTail, Instr.exec, Switch.Instr.exec, Hart.set, Machine.set, Machine.store,
    fieldAt]

/-- The machine behind `csrrw` and `reg_save`. -/
def saved (h : Hart) : Machine :=
  Switch.execAll { regs := Function.update h.regs .t6 h.sscratch, mem := h.mem, sscratch := h.regs .t6 }
    (saves .t6 0 userRegs)

theorem execAll_saveBlock (h : Hart) :
    execAll h saveBlock = execAll { h with toMachine := saved h } saveTail := by
  have hsplit : saveBlock = [.csrrw .t6 .t6] ++ (saves .t6 0 userRegs).map .core ++ saveTail := rfl
  rw [hsplit, execAll_append, execAll_append, execAll_core]
  rfl

theorem saved_spec (h : Hart) :
    (saved h).regs .t6 = h.sscratch ∧ (saved h).sscratch = h.regs .t6 ∧
    (∀ b, 240 ≤ (b - h.sscratch).toNat → (saved h).mem b = h.mem b) ∧
    ∀ r, r ≠ .t6 → (saved h).load (fieldAt h.sscratch (regOrder.idxOf r)) = h.regs r := by
  let m : Machine :=
    { regs := Function.update h.regs .t6 h.sscratch, mem := h.mem, sscratch := h.regs .t6 }
  have ht6 : m.regs .t6 = h.sscratch := by simp [m]
  obtain ⟨hregs, hmem, hslots⟩ := exec_saves .t6 userRegs 0 m (by decide)
  have hslot0 : slot h.sscratch 0 = h.sscratch := BitVec.add_zero _
  rw [ht6] at hmem hslots
  rw [hslot0] at hmem
  refine ⟨?_, execAll_sscratch ?_ m, hmem, fun r hr => ?_⟩
  · rw [saved, hregs, ht6]
  · intro i hi rs he
    obtain ⟨p, -, rfl⟩ := List.mem_map.1 hi
    cases he
  · have := hslots _ r (userRegs_getElem r hr)
    rw [Nat.zero_add] at this
    exact this.trans (Function.update_of_ne hr ..)

/-- `trap_vector` saves everything in the context of the running task. -/
theorem saveBlock_spec (h : Hart) :
    contextAt (execAll h saveBlock).toMachine h.sscratch =
      { regs := h.regs, epc := h.sepc, temp := (contextAt h.toMachine h.sscratch).temp } ∧
    (∀ b, sizeofReg ≤ (b - h.sscratch).toNat → (execAll h saveBlock).mem b = h.mem b) ∧
    (execAll h saveBlock).sscratch = h.sscratch ∧ (execAll h saveBlock).sepc = h.sepc ∧
    (execAll h saveBlock).scause = h.scause := by
  obtain ⟨ht6, hscr, hmem, hregs⟩ := saved_spec h
  obtain ⟨hmem', hscr', hsepc, hscause⟩ := exec_saveTail { h with toMachine := saved h }
  rw [← execAll_saveBlock] at hmem' hscr' hsepc hscause
  dsimp only at hmem' hscr' hsepc hscause
  rw [ht6, hscr] at hmem'
  have hload : ∀ i, (execAll h saveBlock).load (fieldAt h.sscratch i) =
      (((saved h).store (fieldAt h.sscratch 30) (h.regs .t6)).store
        (fieldAt h.sscratch 31) h.sepc).load (fieldAt h.sscratch i) := fun i =>
    Switch.load_congr fun k _ => congrFun hmem' _
  refine ⟨?_, fun b hb => ?_, hscr'.trans ht6, hsepc, hscause⟩
  · have hr : ∀ r, (execAll h saveBlock).load (fieldAt h.sscratch (regOrder.idxOf r)) = h.regs r := by
      intro r
      have hlt := idxOf_lt r
      rw [hload, load_store_field_ne (by decide) (by omega) (by omega)]
      by_cases hr : r = .t6
      · subst hr
        exact Switch.load_store ..
      · have hne : 30 ≠ regOrder.idxOf r := fun he => hr (idxOf_inj (he.symm.trans rfl))
        rw [load_store_field_ne (by decide) (by omega) hne, hregs r hr]
    have hepc : (execAll h saveBlock).load (fieldAt h.sscratch 31) = h.sepc := by
      rw [hload, Switch.load_store]
    have htemp : (execAll h saveBlock).load (fieldAt h.sscratch 32) =
        h.load (fieldAt h.sscratch 32) := by
      rw [hload, load_store_field_ne (by decide) (by decide) (by decide),
        load_store_field_ne (by decide) (by decide) (by decide)]
      refine Switch.load_congr fun k hk => hmem _ ?_
      unfold fieldAt
      bv_omega
    simp only [contextAt, hr, hepc, htemp]
  · rw [hmem']
    refine (Switch.store_mem_of_le (sub_field_of_le (by decide) hb)).trans ?_
    refine (Switch.store_mem_of_le (sub_field_of_le (by decide) hb)).trans (hmem b ?_)
    unfold sizeofReg at hb
    omega

/-- `ret_from_exception` stores the program counter that `trap_handler` returned. -/
theorem exceptionBlock_spec (h : Hart) (ret : Word) :
    (execAll (h.set .a0 ret) exceptionBlock).mem =
      (h.toMachine.store (fieldAt h.sscratch 31) ret).mem ∧
    (execAll (h.set .a0 ret) exceptionBlock).sscratch = h.sscratch := by
  simp [execAll, exceptionBlock, Instr.exec, Switch.Instr.exec, Hart.set, Machine.set, Machine.store,
    fieldAt]

/-- The hart behind `csrw sepc` and in front of the last load of `reg_restore`. -/
def restored (h : Hart) : Hart :=
  { h with
    toMachine := Switch.execAll
      ((h.toMachine.set .t6 h.sscratch).set .t5 (h.load (fieldAt h.sscratch 31)))
      (restores .t6 0 userRegs)
    sepc := h.load (fieldAt h.sscratch 31) }

theorem execAll_restoreBlock (h : Hart) :
    execAll h restoreBlock = (restored h).set .t6 ((restored h).load ((restored h).regs .t6 + 240)) := by
  have hsplit : restoreBlock = [.core (.csrr .t6), .core (.ld .t5 248 .t6), .csrwSepc .t5] ++
      (restores .t6 0 userRegs).map .core ++ [.core (.ld .t6 240 .t6)] := rfl
  have hhead : execAll h [.core (.csrr .t6), .core (.ld .t5 248 .t6), .csrwSepc .t5] =
      { h with
        toMachine := (h.toMachine.set .t6 h.sscratch).set .t5 (h.load (fieldAt h.sscratch 31))
        sepc := h.load (fieldAt h.sscratch 31) } := by
    simp [execAll, Instr.exec, Switch.Instr.exec, fieldAt]
  have hlast : ∀ h : Hart, execAll h [.core (.ld .t6 240 .t6)] =
      h.set .t6 (h.load (h.regs .t6 + 240)) := fun _ => rfl
  rw [hsplit, execAll_append, execAll_append, hhead, execAll_core, hlast]
  rfl

theorem restored_spec (h : Hart) :
    (restored h).regs .t6 = h.sscratch ∧ (restored h).mem = h.mem ∧
    (restored h).sscratch = h.sscratch ∧
    ∀ r, r ≠ .t6 → (restored h).regs r = h.load (fieldAt h.sscratch (regOrder.idxOf r)) := by
  let m : Machine := (h.toMachine.set .t6 h.sscratch).set .t5 (h.load (fieldAt h.sscratch 31))
  have ht6 : m.regs .t6 = h.sscratch := by simp [m]
  obtain ⟨hmem, hother, hslots⟩ := exec_restores .t6 userRegs 0 m (by decide) (by decide)
  rw [ht6] at hslots
  refine ⟨(hother .t6 (by decide)).trans ht6, hmem, execAll_sscratch ?_ m, fun r hr => ?_⟩
  · intro i hi rs he
    obtain ⟨p, -, rfl⟩ := List.mem_map.1 hi
    cases he
  · have := hslots _ r (userRegs_getElem r hr)
    rw [Nat.zero_add] at this
    exact this

/-- `ret_from_sys_call` loads everything from the context in `sscratch`. -/
theorem restoreBlock_spec (h : Hart) :
    (execAll h restoreBlock).regs = (contextAt h.toMachine h.sscratch).regs ∧
    (execAll h restoreBlock).sepc = (contextAt h.toMachine h.sscratch).epc ∧
    (execAll h restoreBlock).mem = h.mem ∧ (execAll h restoreBlock).sscratch = h.sscratch := by
  obtain ⟨ht6, hmem, hscr, hregs⟩ := restored_spec h
  obtain ⟨hmem', hscr', hsepc, -⟩ :=
    set_rest (restored h) .t6 ((restored h).load ((restored h).regs .t6 + 240))
  rw [execAll_restoreBlock]
  refine ⟨funext fun r => ?_, hsepc, hmem'.trans hmem, hscr'.trans hscr⟩
  have hfield : fieldAt h.sscratch (regOrder.idxOf .t6) = h.sscratch + 240 := by
    rw [show regOrder.idxOf .t6 = 30 by decide, fieldAt]
    rfl
  rw [set_regs, contextAt_regs]
  by_cases hr : r = .t6
  · rw [hr, Function.update_self, ht6, hfield]
    exact Switch.load_congr fun k _ => congrFun hmem _
  · rw [Function.update_of_ne hr, hregs r hr]

end Trap
