import OS404.Trap.Proof.Tasks

/-!
# Every task has registers of its own

* `tasks_refine`: in every run, each task has its own registers and program counter.
* `interrupt_transparent`: a task that was interrupted goes on as if nothing had happened.
* `fork_returns_twice`: `fork` returns to the parent and to the child.
-/

namespace Trap

open Switch (Reg Word Machine)
open Sched (Context Ptr childContext)

/-! ## A timer interrupt and a `fork` -/

theorem Called.refl {ι : Type} {L : Layout ι} {s : System ι} (h : Hart) : Called L s h h where
  keep _ _ _ _ := rfl
  sp := rfl
  sscratch := rfl
  sepc := rfl
  scause := rfl

/-- Two tasks, with their contexts at `0x1000` and `0x2000`. -/
def sampleLayout : Layout Bool where
  task i := if i then 0x2000 else 0x1000
  ctx i := if i then 0x2000 else 0x1000
  stack := 0x80300000
  nonnull i := by cases i <;> decide
  apart i j hij a h := by
    unfold sizeofReg at h ⊢
    cases i <;> cases j <;> simp only [Bool.false_eq_true, if_true, if_false, ne_eq, not_true] at hij h ⊢
    · bv_omega
    · bv_omega

/-- A task in front of an `ecall` for `fork`. -/
def sampleHart : Hart where
  regs
    | .sp => 0x80300800
    | .s0 => 0x80300900
    | .a7 => 220
    | _ => 7
  mem _ := 0
  sscratch := 0
  pc := 0x80200000
  sepc := 0
  scause := 0

def sampleStart : System Bool := start sampleLayout false sampleHart

/-- The hart at the call of `trap_handler`, when the C functions before it do nothing. -/
def entered (cause : Word) : Hart :=
  execAll (execAll (execAll (sampleStart.hart.trap cause) (saveBlock ++ [.li .a0 1]))
    [.core (.mv .a0 .sp)]) handlerArgs

theorem sample_enters (cause : Word) : Enters sampleLayout sampleStart cause (entered cause) :=
  ⟨_, _, .refl _, rfl, .refl _, rfl⟩

theorem sample_trap {cause ret : Word} {work : Work} {call : Option SysCall}
    (hret : trapHandler cause 0x80200000 = .ok (work, ret))
    (hcall : ∀ temp, Calls work { regs := sampleHart.regs, epc := 0x80200000, temp } call) :
    ∃ s, Step sampleLayout sampleStart (.trapped false cause) s ∧ s.user = false ∧
      s.current = false ∧ s.status = Function.update sampleStart.status false (.kernel call ret) ∧
      s.pcbId false = 0 := by
  obtain ⟨hctx, -, -, ha0, ha1, ha2⟩ := (sample_enters cause).spec rfl (by decide)
  have hret' : trapHandler ((entered cause).regs .a0) ((entered cause).regs .a1) = .ok (work, ret) := by
    rw [ha0, ha1]
    exact hret
  refine ⟨_, .trap (s := sampleStart) rfl (sample_enters cause) hret' ?_, rfl, rfl, rfl, rfl⟩
  rw [ha2, hctx]
  exact hcall _

section
variable {ι : Type} [DecidableEq ι] {L : Layout ι} {s : System ι} {ret : Word}

theorem fork_step {j : ι} (m : Nat) (hu : s.user = false)
    (hst : s.status s.current = .kernel (some .fork) ret) (hj : s.status j = .absent) :
    ∃ s', Step L s (.forked s.current j L.stack (L.task j) (s.pcbId s.current) m) s' ∧
      s'.user = false ∧ s'.current = s.current ∧
      s'.status s'.current = .kernel (some .fork) ret := by
  have hne : s.current ≠ j := fun he => by
    rw [he, hj] at hst
    cases hst
  exact ⟨_, .fork hu hst hj, hu, rfl, (Function.update_of_ne hne ..).trans hst⟩

theorem result_step {call : SysCall} (v : Word) (hu : s.user = false)
    (hst : s.status s.current = .kernel (some call) ret) :
    ∃ s', Step L s (.result s.current v) s' ∧ s'.user = false ∧ s'.current = s.current ∧
      s'.status s'.current = .kernel none ret :=
  ⟨_, .result hu hst, hu, rfl, Function.update_self ..⟩

theorem leave_step (hu : s.user = false) (hst : s.status s.current = .kernel none ret) :
    ∃ s', Step L s .quiet s' ∧ s'.user = true ∧ s'.current = s.current :=
  ⟨_, .leave hu hst ⟨_, .refl _, rfl⟩, rfl, rfl⟩

end

/-- The task is interrupted by the timer, and goes on. -/
theorem sample_timer : ∃ s,
    Lib.Run (Step sampleLayout) sampleStart [.trapped false 0x8000000000000005, .quiet] s ∧
      s.user = true ∧ s.current = false := by
  obtain ⟨s₁, htrap, hu₁, hcur₁, hst₁, -⟩ :=
    @sample_trap 0x8000000000000005 0x80200000 .timer none rfl fun _ => rfl
  have hst : s₁.status s₁.current = .kernel none 0x80200000 := by
    rw [hst₁, hcur₁, Function.update_self]
  obtain ⟨s₂, hleave, hu₂, hcur₂⟩ := leave_step hu₁ hst
  exact ⟨s₂, .snoc (.snoc .nil htrap) hleave, hu₂, hcur₂.trans hcur₁⟩

/-- The task calls `fork`, and goes on with the process id 1 of its child. -/
theorem sample_fork : ∃ s, Lib.Run (Step sampleLayout) sampleStart
    [.trapped false 8, .forked false true 0x80300000 0x2000 0 1, .result false 1, .quiet] s ∧
    s.user = true ∧ s.current = false := by
  obtain ⟨s₁, htrap, hu₁, hcur₁, hst₁, hpcb⟩ :=
    @sample_trap 8 0x80200004 .syscall (some .fork) rfl fun _ => ⟨.fork, rfl, rfl⟩
  have hst : s₁.status s₁.current = .kernel (some .fork) 0x80200004 := by
    rw [hst₁, hcur₁, Function.update_self]
  have habsent : s₁.status true = .absent := by
    rw [hst₁]
    decide
  obtain ⟨s₂, hfork, hu₂, hcur₂, hst₂⟩ := fork_step (L := sampleLayout) 1 hu₁ hst habsent
  obtain ⟨s₃, hresult, hu₃, hcur₃, hst₃⟩ := result_step (L := sampleLayout) 1 hu₂ hst₂
  obtain ⟨s₄, hleave, hu₄, hcur₄⟩ := leave_step (L := sampleLayout) hu₃ hst₃
  rw [hcur₂, hcur₁] at hresult
  rw [hcur₁, hpcb] at hfork
  exact ⟨s₄, .snoc (.snoc (.snoc (.snoc .nil htrap) hfork) hresult) hleave, hu₄,
    hcur₄.trans (hcur₃.trans (hcur₂.trans hcur₁))⟩

/-! ## Runs -/

section
variable {ι : Type} [DecidableEq ι] {L : Layout ι} {s s' : System ι} {a : Virtual ι} {i j : ι}
  {e : Event ι} {es : List (Event ι)}

/-- Whatever the order of traps, system calls, switches and C code of the kernel: each task has
registers and a program counter that only its own steps change. They are the hart's whenever the hart
is in the code of the task. -/
theorem tasks_refine {i : ι} {h : Hart} (hrun : Lib.Run (Step L) (start L i h) es s) :
    ∃ a, Lib.Run Virtual.Step (.only i ⟨h.regs, h.pc⟩) es a ∧
      (∀ j, a j = none ↔ s.status j = .absent) ∧ (s.user = true → a s.current = some s.cpu) := by
  obtain ⟨a, ha, hsim⟩ := run_sim hrun
  exact ⟨a, ha, hsim.none_iff, hsim.running⟩

theorem tasks_refine_timer : ∃ s a,
    Lib.Run (Step sampleLayout) sampleStart [.trapped false 0x8000000000000005, .quiet] s ∧
      Lib.Run Virtual.Step (.only false ⟨sampleHart.regs, sampleHart.pc⟩)
        [.trapped false 0x8000000000000005, .quiet] a ∧ a false = some s.cpu := by
  obtain ⟨s, hrun, hu, hcur⟩ := sample_timer
  obtain ⟨a, ha, -, hcpu⟩ := tasks_refine hrun
  have hfalse := hcpu hu
  rw [hcur] at hfalse
  exact ⟨s, a, hrun, ha, hfalse⟩

/-! ## What a task sees -/

/-- `e` changes the registers of task `i`. -/
def Event.On (i : ι) : Event ι → Prop
  | .ran j _ | .trapped j _ | .result j _ | .loaded j _ | .released j => j = i
  | .forked _ j _ _ _ _ => j = i
  | .quiet => False

/-- The tasks after an event. -/
def Event.apply (a : Virtual ι) : Event ι → Virtual ι
  | .ran i c | .loaded i c => Function.update a i (some c)
  | .trapped i cause => Function.update a i ((a i).map (·.trap cause))
  | .result i v => Function.update a i ((a i).map (·.result v))
  | .forked i j stack p n m => Function.update a j ((a i).map (·.child stack p n m))
  | .released i => Function.update a i none
  | .quiet => a

theorem Virtual.Step.eq_apply {a' : Virtual ι} (hst : Virtual.Step a e a') : a' = e.apply a := by
  cases hst with
  | ran h | trapped h | result h | loaded h | released h => simp [Event.apply, h]
  | forked h _ => simp [Event.apply, h]
  | quiet => rfl

theorem Event.apply_of_not_on (h : ¬ e.On i) : e.apply a i = a i := by
  cases e with
  | quiet => rfl
  | ran | trapped | result | forked | loaded | released => exact Function.update_of_ne (Ne.symm h) ..

/-- The tasks after some events. -/
def Virtual.after (a : Virtual ι) (es : List (Event ι)) : Virtual ι := es.foldl (fun a e => e.apply a) a

theorem Virtual.after_append (a : Virtual ι) (es es' : List (Event ι)) :
    a.after (es ++ es') = (a.after es).after es' := List.foldl_append ..

theorem Virtual.run_after {a' : Virtual ι} (h : Lib.Run Virtual.Step a es a') : a' = a.after es := by
  refine h.invariant_trace (I := fun es b => b = a.after es) rfl fun es b e c hb hst => ?_
  rw [Virtual.after_append, hst.eq_apply, hb]
  rfl

theorem Virtual.after_of_not_on (h : ∀ e ∈ es, ¬ e.On i) : a.after es i = a i := by
  induction es generalizing a with
  | nil => rfl
  | cons e es ih =>
    refine (ih fun e' he' => h e' (.tail _ he')).trans ?_
    exact Event.apply_of_not_on (h e (.head _))

/-- The registers of a task in its own code, after a run from another such state. -/
theorem cpu_after {i : ι} {h : Hart} {es₀ : List (Event ι)}
    (hrun₀ : Lib.Run (Step L) (start L i h) es₀ s) (hu : s.user = true)
    (hrun : Lib.Run (Step L) s es s') (hu' : s'.user = true) :
    ∃ a : Virtual ι, a s.current = some s.cpu ∧ a.after es s'.current = some s'.cpu := by
  obtain ⟨a, -, hsim⟩ := run_sim hrun₀
  obtain ⟨a', ha', hsim'⟩ := hrun.simulation hsim fun _ _ _ _ hsim hst => sim_step hsim hst
  refine ⟨a, hsim.running hu, ?_⟩
  rw [← Virtual.run_after ha']
  exact hsim'.running hu'

/-- A trap by an interrupt returns to where it was. -/
theorem Cpu.trap_interrupt (c : Cpu) {cause : Word} (h : cause &&& 0x8000000000000000 ≠ 0) :
    c.trap cause = c := by
  unfold Cpu.trap trapHandler
  rw [if_pos h]
  split <;> rename_i heq <;> split at heq <;> cases heq <;> rfl

/-- A task that was interrupted goes on with its registers and its program counter as they were,
whatever ran in between. -/
theorem interrupt_transparent {i : ι} {h : Hart} {es₀ : List (Event ι)}
    (hrun₀ : Lib.Run (Step L) (start L i h) es₀ s) (hu : s.user = true)
    (hrun : Lib.Run (Step L) s es s') (hu' : s'.user = true) (hcur : s'.current = s.current)
    (hes : ∀ e ∈ es, e.On s.current →
      ∃ cause, e = .trapped s.current cause ∧ cause &&& 0x8000000000000000 ≠ 0) :
    s'.cpu = s.cpu := by
  obtain ⟨a, ha, ha'⟩ := cpu_after hrun₀ hu hrun hu'
  have hkeep : ∀ b : Virtual ι, b s.current = some s.cpu → b.after es s.current = some s.cpu := by
    clear hrun ha ha'
    induction es with
    | nil => exact fun b hb => hb
    | cons e es ih =>
      intro b hb
      refine ih (fun e' he' => hes e' (.tail _ he')) (e.apply b) ?_
      by_cases he : e.On s.current
      · obtain ⟨cause, rfl, hc⟩ := hes e (.head _) he
        simp [Event.apply, hb, Cpu.trap_interrupt _ hc]
      · rw [Event.apply_of_not_on he, hb]
  rw [hcur] at ha'
  exact Option.some.inj (ha'.symm.trans (hkeep a ha))

theorem interrupt_transparent_timer : ∃ s,
    Lib.Run (Step sampleLayout) sampleStart [.trapped false 0x8000000000000005, .quiet] s ∧
      s.user = true ∧ s.cpu = sampleStart.cpu := by
  obtain ⟨s, hrun, hu, hcur⟩ := sample_timer
  refine ⟨s, hrun, hu, interrupt_transparent .nil rfl hrun hu hcur fun e he hon => ?_⟩
  simp only [List.mem_cons, List.not_mem_nil, or_false] at he
  obtain rfl | rfl := he
  · exact ⟨_, rfl, by decide⟩
  · cases hon

/-- `fork` returns twice. A task that calls it goes on behind the `ecall` with the result in `a0` and
its other registers as they were; the child starts there as well, with 0 in `a0`, its own task in `gp`,
the stack and frame pointers moved to its own stack, and the other registers of its parent. -/
theorem fork_returns_twice {i₀ i j : ι} {h : Hart} {es₀ es₁ es₂ es₃ : List (Event ι)} {p : Ptr}
    {n m : Nat} {stack v : Word} (hrun₀ : Lib.Run (Step L) (start L i₀ h) es₀ s) (hu : s.user = true)
    (hi : s.current = i)
    (hrun : Lib.Run (Step L) s
      ([.trapped i 8] ++ es₁ ++ [.forked i j stack p n m] ++ es₂ ++ [.result i v] ++ es₃) s')
    (hij : i ≠ j) (hu' : s'.user = true) (hes : ∀ e ∈ es₁ ++ es₂ ++ es₃, ¬ e.On i)
    (hes' : ∀ e ∈ es₂ ++ es₃, ¬ e.On j) :
    (s'.current = i →
      s'.cpu = ⟨Function.update s.hart.regs .a0 v, s.hart.pc + 4⟩) ∧
    (s'.current = j → s'.hart.pc = s.hart.pc + 4 ∧ s'.hart.regs =
      (childContext stack p n m { regs := s.hart.regs, epc := s.hart.pc, temp := 0 }).regs) := by
  obtain ⟨a, ha, ha'⟩ := cpu_after hrun₀ hu hrun hu'
  rw [hi] at ha
  simp only [List.mem_append, or_imp, forall_and] at hes hes'
  simp only [Virtual.after_append] at ha'
  have htrap : s.cpu.trap 8 = ⟨s.hart.regs, s.hart.pc + 4⟩ := rfl
  -- The parent from the `ecall` to the `fork`, and behind it.
  have h₁ : (a.after [.trapped i 8]).after es₁ i = some ⟨s.hart.regs, s.hart.pc + 4⟩ := by
    rw [Virtual.after_of_not_on hes.1.1]
    simp only [Virtual.after, Event.apply, List.foldl_cons, List.foldl_nil, Function.update_self, ha,
      Option.map_some, htrap]
  generalize (a.after [.trapped i 8]).after es₁ = b at h₁ ha'
  have h₂ : (b.after [.forked i j stack p n m]).after es₂ i = some ⟨s.hart.regs, s.hart.pc + 4⟩ := by
    rw [Virtual.after_of_not_on hes.1.2]
    simp [Virtual.after, Event.apply, h₁, Function.update_of_ne hij]
  have h₂' : (b.after [.forked i j stack p n m]).after es₂ j =
      some (Cpu.child ⟨s.hart.regs, s.hart.pc + 4⟩ stack p n m) := by
    rw [Virtual.after_of_not_on hes'.1]
    simp [Virtual.after, Event.apply, h₁]
  generalize (b.after [.forked i j stack p n m]).after es₂ = b' at h₂ h₂' ha'
  refine ⟨fun hcur => ?_, fun hcur => ?_⟩
  · rw [hcur, Virtual.after_of_not_on hes.2] at ha'
    simpa [Virtual.after, Event.apply, h₂, Cpu.result, eq_comm] using ha'
  · rw [hcur, Virtual.after_of_not_on hes'.2] at ha'
    simp only [Virtual.after, Event.apply, List.foldl_cons, List.foldl_nil,
      Function.update_of_ne hij.symm, h₂', Option.some.injEq] at ha'
    exact ⟨congrArg Cpu.pc ha'.symm, congrArg Cpu.regs ha'.symm⟩

theorem fork_returns_twice_parent : ∃ s, Lib.Run (Step sampleLayout) sampleStart
    [.trapped false 8, .forked false true 0x80300000 0x2000 0 1, .result false 1, .quiet] s ∧
    s.cpu = ⟨Function.update sampleHart.regs .a0 1, 0x80200004⟩ := by
  obtain ⟨s, hrun, hu, hcur⟩ := sample_fork
  have hrun' : Lib.Run (Step sampleLayout) sampleStart ([.trapped false 8] ++ [] ++
      [.forked false true 0x80300000 0x2000 0 1] ++ [] ++ [.result false 1] ++ [.quiet]) s := hrun
  refine ⟨s, hrun, (fork_returns_twice .nil rfl rfl hrun' (by decide) hu ?_ ?_).1 hcur⟩
  · simp [Event.On]
  · simp [Event.On]

end

end Trap
