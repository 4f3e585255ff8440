import OS404.Trap.Proof.Switching
import OS404.Lib.Run

/-!
# The hart stands for the tasks

`Sim s a`: the hart in state `s` stands for the tasks `a`. The registers of the task whose code runs are
those of the hart; those of a task in the kernel are in its context, with what `trap_handler` will
return as its program counter; a task that has not run yet is wholly in its context, with `temp` 0.
Traps, switches, system calls and whatever the kernel does in between keep this (`sim_step`, `run_sim`).
-/

namespace Trap

open Switch (Reg Word Machine)
open Sched (Context Ptr childContext)

/-! ## The simulation -/

section
variable {ι : Type} [DecidableEq ι] {L : Layout ι} {s s' : System ι} {a : Virtual ι} {i j : ι}
  {e : Event ι} {es : List (Event ι)}

/-- The context of task `i`. -/
def System.context (L : Layout ι) (s : System ι) (i : ι) : Context := contextAt s.hart.toMachine (L.ctx i)

/-- What stands for the registers `c` of a task, by its status: the hart's registers, or its context. -/
def Holds (hart : Cpu) (current : Prop) (ctx : Context) (c : Option Cpu) : Status → Prop
  | .absent => c = none
  | .user => current ∧ c = some hart
  | .kernel call ret =>
    c = some ⟨ctx.regs, ret⟩ ∧ (call.isSome → ctx.epc + 4 = ret) ∧ (¬ current → ctx.temp ≠ 0)
  | .fresh => c = some ⟨ctx.regs, ctx.epc⟩ ∧ ctx.temp = 0

/-- What the hart has in its registers. -/
def System.cpu (s : System ι) : Cpu := ⟨s.hart.regs, s.hart.pc⟩

/-- The hart stands for the tasks (module doc). -/
structure Sim (L : Layout ι) (s : System ι) (a : Virtual ι) : Prop where
  sscratch : s.hart.sscratch = L.ctx s.current
  current : s.status s.current ≠ .absent
  user : s.user = true ↔ s.status s.current = .user
  holds : ∀ i, Holds s.cpu (i = s.current) (s.context L i) (a i) (s.status i)

/-- The tasks at the start. -/
def Virtual.only (i : ι) (c : Cpu) : Virtual ι := fun j => if j = i then some c else none

theorem start_sim (L : Layout ι) (i : ι) (h : Hart) : Sim L (start L i h) (.only i ⟨h.regs, h.pc⟩) where
  sscratch := rfl
  current := by simp [start]
  user := by simp [start]
  holds j := by
    by_cases hj : j = i
    · simp [start, Virtual.only, hj, Holds, System.cpu]
    · simp [start, Virtual.only, hj, Holds]

/-- A task is where it was when its context is as it was and it does not run. -/
theorem Holds.congr {hart hart' : Cpu} {current current' : Prop} {ctx ctx' : Context} {c : Option Cpu}
    {st : Status} (h : Holds hart current ctx c st) (hst : st ≠ .user)
    (hctx : st ≠ .absent → ctx' = ctx) (hcur : current → current') :
    Holds hart' current' ctx' c st := by
  cases st with
  | absent => exact h
  | user => exact absurd rfl hst
  | kernel call ret =>
    rw [hctx (by simp)]
    exact ⟨h.1, h.2.1, fun hne => h.2.2 fun hc => hne (hcur hc)⟩
  | fresh =>
    rw [hctx (by simp)]
    exact h

theorem Holds.kernel {hart hart' : Cpu} {current current' : Prop} {ctx ctx' : Context} {c : Option Cpu}
    {call : Option SysCall} {ret : Word} (h : Holds hart current ctx c (.kernel call ret))
    (hctx : ctx'.regs = ctx.regs ∧ ctx'.epc = ctx.epc) (htemp : ¬ current' → ctx'.temp ≠ 0) :
    Holds hart' current' ctx' c (.kernel call ret) := by
  unfold Holds at h ⊢
  rw [hctx.1, hctx.2]
  exact ⟨h.1, h.2.1, htemp⟩

theorem Holds.fresh {hart hart' : Cpu} {current current' : Prop} {ctx ctx' : Context} {c : Option Cpu}
    (h : Holds hart current ctx c .fresh) (hctx : ctx'.regs = ctx.regs ∧ ctx'.epc = ctx.epc)
    (htemp : ctx'.temp = ctx.temp) : Holds hart' current' ctx' c .fresh := by
  unfold Holds at h ⊢
  rw [hctx.1, hctx.2, htemp]
  exact h

theorem trapHandler_syscall {cause epc ret : Word} (h : trapHandler cause epc = .ok (.syscall, ret)) :
    ret = epc + 4 := by
  unfold trapHandler at h
  split at h
  · split at h <;> cases h
  · split at h <;> cases h
    rfl

/-- The child's context, when the parent's has the address of the `ecall`. -/
theorem child_eq {ctx : Context} {ret : Word} (h : ctx.epc + 4 = ret) (stack : Word) (p : Ptr)
    (n m : Nat) : Cpu.child ⟨ctx.regs, ret⟩ stack p n m =
      ⟨(childContext stack p n m ctx).regs, (childContext stack p n m ctx).epc⟩ := by
  refine Cpu.ext (funext fun r => ?_) h.symm
  cases r <;> rfl

namespace Sim

omit [DecidableEq ι] in
/-- Only the running task is in its own code. -/
theorem ne_user (h : Sim L s a) (hi : i ≠ s.current) : s.status i ≠ .user := fun hu => by
  have := h.holds i
  rw [hu] at this
  exact hi this.1

omit [DecidableEq ι] in
theorem kernel_ne_user (h : Sim L s a) (hu : s.user = false) (i : ι) : s.status i ≠ .user := by
  by_cases hi : i = s.current
  · rw [hi]
    intro hst
    rw [h.user.2 hst] at hu
    cases hu
  · exact h.ne_user hi

omit [DecidableEq ι] in
theorem running (h : Sim L s a) (hu : s.user = true) : a s.current = some s.cpu := by
  have := h.holds s.current
  rw [h.user.1 hu] at this
  exact this.2

omit [DecidableEq ι] in
theorem none_iff (h : Sim L s a) (j : ι) : a j = none ↔ s.status j = .absent := by
  have hold := h.holds j
  cases hst : s.status j with
  | absent =>
    rw [hst] at hold
    exact iff_of_true hold rfl
  | user | kernel | fresh =>
    rw [hst] at hold
    refine iff_of_false (fun hnone => ?_) (by simp)
    simp [Holds, hnone] at hold

/-- A step in which the status of one task changes. -/
theorem update {k : ι} {c : Option Cpu} {st : Status} (hscr : s'.hart.sscratch = L.ctx s'.current)
    (hstatus : s'.status = Function.update s.status k st) (hcur : s'.status s'.current ≠ .absent)
    (huser : s'.user = true ↔ s'.status s'.current = .user)
    (hk : Holds s'.cpu (k = s'.current) (s'.context L k) c st)
    (hother : ∀ i, i ≠ k → Holds s'.cpu (i = s'.current) (s'.context L i) (a i) (s.status i)) :
    Sim L s' (Function.update a k c) := by
  refine ⟨hscr, hcur, huser, fun i => ?_⟩
  rw [hstatus]
  by_cases hi : i = k
  · rw [hi, Function.update_self, Function.update_self]
    exact hk
  · rw [Function.update_of_ne hi, Function.update_of_ne hi]
    exact hother i hi

/-- The user's code of the running task. -/
theorem run {h : Hart} (hsim : Sim L s a) (hu : s.user = true)
    (hmem : Keep L s s.hart.toMachine h.toMachine) (hs : h.sscratch = s.hart.sscratch) :
    Sim L { s with hart := h } (Function.update a s.current (some ⟨h.regs, h.pc⟩)) := by
  have hstatus : s.status = Function.update s.status s.current .user := by
    rw [← hsim.user.1 hu, Function.update_eq_self]
  refine update (hs.trans hsim.sscratch) hstatus hsim.current hsim.user ⟨rfl, rfl⟩ fun i hi => ?_
  exact (hsim.holds i).congr (hsim.ne_user hi) (fun hi' => (hmem i hi').contextAt) id

theorem trap {h : Hart} {cause ret : Word} {work : Work} {call : Option SysCall} (hsim : Sim L s a)
    (hin : Enters L s cause h) (hret : trapHandler (h.regs .a0) (h.regs .a1) = .ok (work, ret))
    (hcall : Calls work (contextAt h.toMachine (h.regs .a2)) call) :
    Sim L
      { s with
        hart := h, user := false, status := Function.update s.status s.current (.kernel call ret) }
      (Function.update a s.current (some (s.cpu.trap cause))) := by
  obtain ⟨hctx, hother, hscr, ha0, ha1, -⟩ := hin.spec hsim.sscratch hsim.current
  rw [ha0, ha1] at hret
  refine update hscr rfl (by simp) (by simp) ⟨?_, fun hsome => ?_, fun hne => absurd rfl hne⟩
    fun i hi => ?_
  · simp only [Cpu.trap, System.cpu, hret, System.context, hctx]
  · unfold Calls at hcall
    split at hcall
    · case isTrue hwork =>
      subst hwork
      simp only [System.context, hctx]
      exact (trapHandler_syscall hret).symm
    · rw [hcall] at hsome
      cases hsome
  · exact (hsim.holds i).congr (hsim.ne_user hi) (hother i hi) id

omit [DecidableEq ι] in
theorem kernel {h : Hart} (hsim : Sim L s a) (hu : s.user = false)
    (hmem : Keep L s s.hart.toMachine h.toMachine) (hs : h.sscratch = s.hart.sscratch) :
    Sim L { s with hart := h } a := by
  refine ⟨hs.trans hsim.sscratch, hsim.current, hsim.user, fun i => ?_⟩
  exact (hsim.holds i).congr (hsim.kernel_ne_user hu i) (fun hi' => (hmem i hi').contextAt) id

/-- The result of a system call goes to `a0` of the running task. -/
theorem result {call : SysCall} {ret v : Word} (hsim : Sim L s a) (hu : s.user = false)
    (hst : s.status s.current = .kernel (some call) ret) :
    ∃ c, a s.current = some c ∧
      Sim L
        { s with
          hart := { s.hart with
            toMachine := s.hart.toMachine.store (fieldAt (L.ctx s.current) 9) v }
          status := Function.update s.status s.current (.kernel none ret) }
        (Function.update a s.current (some (c.result v))) := by
  have hcur := hsim.holds s.current
  rw [hst] at hcur
  have hctx := contextAt_store_reg s.hart.toMachine (L.ctx s.current) v .a0
  rw [show regOrder.idxOf .a0 = 9 by decide] at hctx
  refine ⟨_, hcur.1, update hsim.sscratch rfl (by simp) (by simp [hu])
    ⟨?_, by simp, fun hne => absurd rfl hne⟩ fun i hi => ?_⟩
  · simp only [System.context, hctx, Cpu.result]
  · exact (hsim.holds i).congr (hsim.ne_user hi)
      (fun _ => (L.same hi fun b hb => store_field_mem (by decide) hb).contextAt) id

/-- The child starts from the context that `copy_process` wrote. -/
theorem fork {ret : Word} {m : Nat} (hsim : Sim L s a) (hu : s.user = false)
    (hst : s.status s.current = .kernel (some .fork) ret) (hj : s.status j = .absent) :
    ∃ c, a s.current = some c ∧ a j = none ∧
      Sim L
        { s with
          hart := { s.hart with
            toMachine := putContext s.hart.toMachine (L.ctx j)
              (childContext L.stack (L.task j) (s.pcbId s.current) m
                (contextAt s.hart.toMachine (L.ctx s.current))) }
          status := Function.update s.status j .fresh
          pcbId := Function.update s.pcbId j m }
        (Function.update a j (some (c.child L.stack (L.task j) (s.pcbId s.current) m))) := by
  have hcur := hsim.holds s.current
  rw [hst] at hcur
  have hjnone := hsim.holds j
  rw [hj] at hjnone
  have hne : s.current ≠ j := fun he => by
    rw [he, hj] at hst
    cases hst
  have hctx := contextAt_putContext s.hart.toMachine (L.ctx j)
    (childContext L.stack (L.task j) (s.pcbId s.current) m
      (contextAt s.hart.toMachine (L.ctx s.current)))
  refine ⟨_, hcur.1, hjnone, update ?_ rfl ?_ ?_ ⟨?_, ?_⟩ fun i hi => ?_⟩
  · exact (putContext_sscratch ..).trans hsim.sscratch
  · simp only [Function.update_of_ne hne]
    exact hsim.current
  · simp only [Function.update_of_ne hne]
    exact hsim.user
  · simp only [System.context, hctx]
    exact congrArg some (child_eq (hcur.2.1 rfl) ..)
  · simp only [System.context, hctx]
    rfl
  · exact (hsim.holds i).congr (hsim.kernel_ne_user hu i)
      (fun _ => (L.same hi fun b hb => putContext_mem hb).contextAt) id

/-- `do_execve` writes all of the context of the running task. -/
theorem exec {ret argv entry : Word} {caller : Exec.Caller} (hsim : Sim L s a) (hu : s.user = false)
    (hst : s.status s.current = .kernel (some .execve) ret) :
    ∃ c, a s.current = some c ∧
      Sim L
        { s with
          hart := { s.hart with
            toMachine := putContext s.hart.toMachine (L.ctx s.current)
              (Exec.execContext caller argv entry) }
          status := Function.update s.status s.current .fresh }
        (Function.update a s.current (some ⟨(Exec.execContext caller argv entry).regs, entry⟩)) := by
  have hcur := hsim.holds s.current
  rw [hst] at hcur
  have hctx := contextAt_putContext s.hart.toMachine (L.ctx s.current)
    (Exec.execContext caller argv entry)
  refine ⟨_, hcur.1, update ?_ rfl (by simp) (by simp [hu]) ⟨?_, ?_⟩ fun i hi => ?_⟩
  · exact (putContext_sscratch ..).trans hsim.sscratch
  · simp only [System.context, hctx]
    rfl
  · simp only [System.context, hctx]
    rfl
  · exact (hsim.holds i).congr (hsim.ne_user hi)
      (fun _ => (L.same hi fun b hb => putContext_mem hb).contextAt) id

theorem release {ret : Word} (hsim : Sim L s a) (hu : s.user = false) (hj : j ≠ s.current)
    (hst : s.status j = .kernel (some .exit) ret) :
    ∃ c, a j = some c ∧
      Sim L { s with status := Function.update s.status j .absent } (Function.update a j none) := by
  have hold := hsim.holds j
  rw [hst] at hold
  refine ⟨_, hold.1, update hsim.sscratch rfl ?_ ?_ rfl fun i hi => ?_⟩
  · simp only [Function.update_of_ne hj.symm]
    exact hsim.current
  · simp only [Function.update_of_ne hj.symm]
    exact hsim.user
  · exact (hsim.holds i).congr (hsim.kernel_ne_user hu i) (fun _ => rfl) id

omit [DecidableEq ι] in
/-- The contexts behind a `switch_to` are those of the tasks as before it, except that the task that
was switched from has a `temp`. -/
theorem switched {last : Word} {m' : Machine} (hsim : Sim L s a) (hu : s.user = false)
    (hj : Switches L s last j)
    (hsw : Switch.switchTo (atSwitch s.hart last (L.ctx j)) = .ret m' ∨
      Switch.switchTo (atSwitch s.hart last (L.ctx j)) = .retFromSysCall m') (hart : Cpu) :
    ∀ i, i ≠ j → Holds hart (i = j) (contextAt m' (L.ctx i)) (a i) (s.status i) := by
  obtain ⟨-, hregs, htemp, hcurtemp, -⟩ := hj.spec hsw
  intro i hi
  have hold := hsim.holds i
  cases hst : s.status i with
  | absent =>
    rw [hst] at hold
    exact hold
  | user => exact absurd hst (hsim.kernel_ne_user hu i)
  | kernel call ret =>
    rw [hst] at hold
    refine hold.kernel (hregs i) fun _ => ?_
    by_cases hic : i = s.current
    · rw [hic]
      exact hcurtemp (hic ▸ hi.symm)
    · rw [htemp i hic]
      exact hold.2.2 hic
  | fresh =>
    rw [hst] at hold
    have hic : i ≠ s.current := fun hic => by
      cases hj with
      | schedule hst' => rw [← hic, hst] at hst'; cases hst'
      | execve _ => exact hi hic
    exact hold.fresh (hregs i) (htemp i hic)

omit [DecidableEq ι] in
/-- The next task is in the kernel exactly if it has a `temp`. -/
theorem next_cases {last : Word} (hsim : Sim L s a) (hu : s.user = false) (hj : Switches L s last j) :
    (∃ call ret, s.status j = .kernel call ret ∧ (s.context L j).temp ≠ 0) ∨
      (s.status j = .fresh ∧ (s.context L j).temp = 0) := by
  have hold := hsim.holds j
  cases hj with
  | schedule hst hj hj' =>
    cases hstj : s.status j with
    | absent => exact absurd hstj hj'
    | user => exact absurd hstj (hsim.kernel_ne_user hu j)
    | kernel call ret =>
      rw [hstj] at hold
      exact .inl ⟨call, ret, rfl, hold.2.2 hj⟩
    | fresh =>
      rw [hstj] at hold
      exact .inr ⟨rfl, hold.2⟩
  | execve hst =>
    rw [hst] at hold
    exact .inr ⟨hst, hold.2⟩

omit [DecidableEq ι] in
/-- `switch_to` returns into the kernel for a task that had been switched from. -/
theorem ret {last : Word} {m : Machine} (hsim : Sim L s a) (hu : s.user = false)
    (hj : Switches L s last j)
    (hsw : Switch.switchTo (atSwitch s.hart last (L.ctx j)) = .ret m) :
    Sim L { s with hart := { s.hart with toMachine := m }, current := j } a := by
  obtain ⟨hscr, hregs, -, -, hret⟩ := hj.spec (.inl hsw)
  obtain ⟨call, ret, hst, -⟩ | ⟨-, htemp⟩ := hsim.next_cases hu hj
  · refine ⟨hscr, by simp [hst], by simp [hu, hst], fun i => ?_⟩
    by_cases hi : i = j
    · have hold := hsim.holds j
      rw [hst] at hold
      rw [hi]
      simp only [hst]
      exact hold.kernel (hregs j) fun hne => absurd trivial hne
    · exact hsim.switched hu hj (.inl hsw) _ i hi
  · exact absurd htemp (hret.1 hsw)

/-- For another task it goes to its code, with the registers of its context. -/
theorem retFromSysCall {last : Word} {m : Machine} {h : Hart} (hsim : Sim L s a)
    (hu : s.user = false) (hj : Switches L s last j)
    (hsw : Switch.switchTo (atSwitch s.hart last (L.ctx j)) = .retFromSysCall m)
    (hout : Leaves L s { s.hart with toMachine := m } h) :
    Sim L
      { s with hart := h, user := true, current := j, status := Function.update s.status j .user } a := by
  obtain ⟨hscr, hregs, -, -, hret⟩ := hj.spec (.inr hsw)
  obtain ⟨call, ret, -, htemp⟩ | ⟨hst, -⟩ := hsim.next_cases hu hj
  · rw [hret.2 htemp] at hsw
    cases hsw
  · obtain ⟨hr, hpc, hscr', hctx⟩ := hout.spec hscr (by simp [hst])
    have hold := hsim.holds j
    rw [hst] at hold
    have hsame : Function.update a j (a j) = a := Function.update_eq_self j a
    rw [← hsame]
    refine update hscr' rfl (by simp) (by simp) ⟨rfl, ?_⟩ fun i hi => ?_
    · rw [hold.1]
      refine congrArg some (Cpu.ext ?_ ?_)
      · exact ((hregs j).1.symm.trans hr.symm)
      · exact ((hregs j).2.symm.trans hpc.symm)
    · exact (hsim.switched hu hj (.inr hsw) s.cpu i hi).congr (hsim.kernel_ne_user hu i) (hctx i) id

/-- `trap_handler` has returned: the task goes on where it said, with the registers of its context. -/
theorem leave {ret : Word} {h : Hart} (hsim : Sim L s a) (hu : s.user = false)
    (hst : s.status s.current = .kernel none ret)
    (hout : Leaves L s (execAll (s.hart.set .a0 ret) exceptionBlock) h) :
    Sim L { s with hart := h, user := true, status := Function.update s.status s.current .user } a := by
  obtain ⟨hmem, hscr⟩ := exceptionBlock_spec s.hart ret
  generalize execAll (s.hart.set .a0 ret) exceptionBlock = k at hmem hscr hout
  rw [hsim.sscratch] at hmem hscr
  obtain ⟨hr, hpc, hscr', hctx⟩ := hout.spec hscr (by simp [hst])
  have hcur : contextAt k.toMachine (L.ctx s.current) = { s.context L s.current with epc := ret } :=
    (SameContext.refl _ hmem).contextAt.trans (contextAt_store_epc ..)
  have hold := hsim.holds s.current
  rw [hst] at hold
  rw [hcur] at hr hpc
  have hsame : Function.update a s.current (a s.current) = a := Function.update_eq_self _ a
  rw [← hsame]
  refine update hscr' rfl (by simp) (by simp) ⟨rfl, ?_⟩ fun i hi => ?_
  · rw [hold.1]
    exact congrArg some (Cpu.ext hr.symm hpc.symm)
  · refine (hsim.holds i).congr (hsim.kernel_ne_user hu i) (fun hi' => (hctx i hi').trans ?_) id
    refine (SameContext.refl _ hmem).contextAt.trans (L.same hi fun b hb => ?_).contextAt
    exact store_field_mem (by decide) hb

end Sim

/-- Every step is a step of the tasks that shows the same. -/
theorem sim_step (hsim : Sim L s a) (hst : Step L s e s') :
    ∃ a', Virtual.Step a e a' ∧ Sim L s' a' := by
  cases hst with
  | run hu hmem hs => exact ⟨_, .ran (hsim.running hu), hsim.run hu hmem hs⟩
  | trap hu hin hret hcall => exact ⟨_, .trapped (hsim.running hu), hsim.trap hin hret hcall⟩
  | kernel hu hmem hs => exact ⟨a, .quiet, hsim.kernel hu hmem hs⟩
  | result hu hst =>
    obtain ⟨c, hc, hsim'⟩ := hsim.result hu hst
    exact ⟨_, .result hc, hsim'⟩
  | fork hu hst hj =>
    obtain ⟨c, hc, hj', hsim'⟩ := hsim.fork hu hst hj
    exact ⟨_, .forked hc hj', hsim'⟩
  | exec hu hst =>
    obtain ⟨c, hc, hsim'⟩ := hsim.exec hu hst
    exact ⟨_, .loaded hc, hsim'⟩
  | ret hu hj hsw => exact ⟨a, .quiet, hsim.ret hu hj hsw⟩
  | retFromSysCall hu hj hsw hout => exact ⟨a, .quiet, hsim.retFromSysCall hu hj hsw hout⟩
  | leave hu hst hout => exact ⟨a, .quiet, hsim.leave hu hst hout⟩
  | release hu hj hst =>
    obtain ⟨c, hc, hsim'⟩ := hsim.release hu hj hst
    exact ⟨_, .released hc, hsim'⟩

theorem run_sim {i : ι} {h : Hart} (hrun : Lib.Run (Step L) (start L i h) es s) :
    ∃ a, Lib.Run Virtual.Step (.only i ⟨h.regs, h.pc⟩) es a ∧ Sim L s a :=
  hrun.simulation (start_sim L i h) fun _ _ _ _ hsim hst => sim_step hsim hst

end

end Trap
