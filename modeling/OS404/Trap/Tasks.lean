import OS404.Trap.Vector
import OS404.Sched.Exec

/-!
# The tasks of a hart

`System` is the hart with the tasks that it runs one after the other. It is in the code of the running
task (`user`) or in the kernel, into which a task enters by a trap and which it leaves by `sret`. In
between the kernel may switch to other tasks, which are in the kernel themselves or have not run yet.
A task in the kernel is in a call of `trap_handler`: `ret` is what it will return, and `call` the system
call that `do_syscall` has not returned from.

What the C code does besides is any change of the registers and of the memory outside the contexts of
the tasks; so is what a task does to the memory. `keep` are the bytes of these contexts.

`Virtual` is what the tasks see of it: each has registers and a program counter of its own.
-/

namespace Trap

open Switch (Reg Word Machine)
open Sched (Context Ptr childContext)

/-! ## What a task sees -/

/-- The registers and the program counter of a task. -/
@[ext] structure Cpu where
  regs : Reg → Word
  pc : Word

/-- What a step shows. -/
inductive Event (ι : Type) where
  /-- a task has run, up to these registers -/
  | ran (i : ι) (cpu : Cpu)
  | trapped (i : ι) (cause : Word)
  /-- a system call has returned -/
  | result (i : ι) (v : Word)
  | forked (i j : ι) (stack : Word) (p : Ptr) (n m : Nat)
  /-- `execve` has loaded a program -/
  | loaded (i : ι) (cpu : Cpu)
  | released (i : ι)
  | quiet

namespace Cpu

/-- An `ecall` goes on behind itself. -/
def trap (c : Cpu) (cause : Word) : Cpu :=
  match trapHandler cause c.pc with
  | .ok (_, pc) => { c with pc }
  | .error _ => c

def result (c : Cpu) (v : Word) : Cpu := { c with regs := Function.update c.regs .a0 v }

/-- What `fork` gives to the child. -/
def child (c : Cpu) (stack : Word) (p : Ptr) (n m : Nat) : Cpu where
  regs := (childContext stack p n m { regs := c.regs, epc := c.pc, temp := 0 }).regs
  pc := c.pc

end Cpu

/-- The tasks that exist, each with its registers. -/
abbrev Virtual (ι : Type) := ι → Option Cpu

section
variable {ι : Type} [DecidableEq ι]

inductive Virtual.Step (a : Virtual ι) : Event ι → Virtual ι → Prop
  | ran {i : ι} {c c' : Cpu} (h : a i = some c) : Step a (.ran i c') (Function.update a i (some c'))
  | trapped {i : ι} {c : Cpu} {cause : Word} (h : a i = some c) :
      Step a (.trapped i cause) (Function.update a i (some (c.trap cause)))
  | result {i : ι} {c : Cpu} {v : Word} (h : a i = some c) :
      Step a (.result i v) (Function.update a i (some (c.result v)))
  | forked {i j : ι} {c : Cpu} {stack : Word} {p : Ptr} {n m : Nat} (h : a i = some c)
      (hj : a j = none) :
      Step a (.forked i j stack p n m) (Function.update a j (some (c.child stack p n m)))
  | loaded {i : ι} {c c' : Cpu} (h : a i = some c) :
      Step a (.loaded i c') (Function.update a i (some c'))
  | released {i : ι} {c : Cpu} (h : a i = some c) : Step a (.released i) (Function.update a i none)
  | quiet : Step a .quiet a

/-! ## What the hart does -/

/-- Where the tasks are: `task i` is the address of the `i`-th `struct task_struct` and `ctx i` that of
its `context`. No two contexts overlap. -/
structure Layout (ι : Type) where
  task : ι → Ptr
  ctx : ι → Word
  stack : Word
  nonnull : ∀ i, ctx i ≠ 0
  apart : ∀ i j, i ≠ j → ∀ a : Word, (a - ctx i).toNat < sizeofReg → sizeofReg ≤ (a - ctx j).toNat

inductive Status where
  | absent
  /-- it runs its own code -/
  | user
  | kernel (call : Option SysCall) (ret : Word)
  /-- it will start from its context -/
  | fresh
  deriving DecidableEq

structure System (ι : Type) where
  hart : Hart
  user : Bool
  current : ι
  status : ι → Status
  pcbId : ι → Nat

/-- `m'` has in the context at `a` what `m` has. -/
def SameContext (a : Word) (m m' : Machine) : Prop :=
  ∀ b : Word, (b - a).toNat < sizeofReg → m'.mem b = m.mem b

/-- All contexts are as before. -/
def Keep (L : Layout ι) (s : System ι) (m m' : Machine) : Prop :=
  ∀ i, s.status i ≠ .absent → SameContext (L.ctx i) m m'

/-- A call of a C function that is not `trap_handler`. -/
structure Called (L : Layout ι) (s : System ι) (h h' : Hart) : Prop where
  keep : Keep L s h.toMachine h'.toMachine
  sp : h'.regs .sp = h.regs .sp
  sscratch : h'.sscratch = h.sscratch
  sepc : h'.sepc = h.sepc
  scause : h'.scause = h.scause

/-- From a trap to the call of `trap_handler`, with the calls of `set_mode` and `Dect_stack`. -/
def Enters (L : Layout ι) (s : System ι) (cause : Word) (h' : Hart) : Prop :=
  ∃ h₁ h₂, Called L s (execAll (s.hart.trap cause) (saveBlock ++ [.li .a0 1])) h₁ ∧
    dectStack L.stack (s.pcbId s.current) (h₁.regs .sp) = .ok () ∧
    Called L s (execAll h₁ [.core (.mv .a0 .sp)]) h₂ ∧ h' = execAll h₂ handlerArgs

/-- From `ret_from_sys_call` to the user's code, with the call of `set_mode`. -/
def Leaves (L : Layout ι) (s : System ι) (h h' : Hart) : Prop :=
  ∃ h₁, Called L s (execAll h [.li .a0 0]) h₁ ∧ h' = (execAll h₁ restoreBlock).sret

/-- What `do_syscall` will call, if `trap_handler` calls it. -/
def Calls (work : Work) (context : Context) (call : Option SysCall) : Prop :=
  if work = .syscall then ∃ c, doSyscall context = .ok c ∧ call = some c else call = none

/-- The machine at a call of `switch_to`. -/
def atSwitch (h : Hart) (last next : Word) : Machine := (h.toMachine.set .a0 last).set .a1 next

/-- The stack has room for the registers that `switch_to` saves, away from the contexts. -/
def StackApart (L : Layout ι) (sp : Word) : Prop :=
  sp ≠ 104 ∧ ∀ i, ∀ a : Word, (a - L.ctx i).toNat < sizeofReg → 112 ≤ (a - (sp - 104)).toNat

/-- The calls of `switch_to(last, &next->context)`. -/
inductive Switches (L : Layout ι) (s : System ι) : Word → ι → Prop
  | schedule {call : Option SysCall} {ret : Word} {j : ι}
      (hst : s.status s.current = .kernel call ret) (hj : j ≠ s.current) (hj' : s.status j ≠ .absent)
      (hsp : StackApart L (s.hart.regs .sp)) : Switches L s (L.ctx s.current) j
  | execve (hst : s.status s.current = .fresh) : Switches L s 0 s.current

inductive Step (L : Layout ι) (s : System ι) : Event ι → System ι → Prop
  | run {h : Hart} (hu : s.user = true) (hmem : Keep L s s.hart.toMachine h.toMachine)
      (hs : h.sscratch = s.hart.sscratch) :
      Step L s (.ran s.current ⟨h.regs, h.pc⟩) { s with hart := h }
  | trap {cause ret : Word} {work : Work} {call : Option SysCall} {h : Hart} (hu : s.user = true)
      (hin : Enters L s cause h) (hret : trapHandler (h.regs .a0) (h.regs .a1) = .ok (work, ret))
      (hcall : Calls work (contextAt h.toMachine (h.regs .a2)) call) :
      Step L s (.trapped s.current cause)
        { s with
          hart := h, user := false, status := Function.update s.status s.current (.kernel call ret) }
  /-- C code of the kernel -/
  | kernel {h : Hart} (hu : s.user = false) (hmem : Keep L s s.hart.toMachine h.toMachine)
      (hs : h.sscratch = s.hart.sscratch) : Step L s .quiet { s with hart := h }
  /-- the end of `do_syscall` -/
  | result {call : SysCall} {ret v : Word} (hu : s.user = false)
      (hst : s.status s.current = .kernel (some call) ret) :
      Step L s (.result s.current v)
        { s with
          hart := { s.hart with
            toMachine := s.hart.toMachine.store (fieldAt (L.ctx s.current) 9) v }
          status := Function.update s.status s.current (.kernel none ret) }
  /-- `copy_process` -/
  | fork {ret : Word} {j : ι} {m : Nat} (hu : s.user = false)
      (hst : s.status s.current = .kernel (some .fork) ret) (hj : s.status j = .absent) :
      Step L s (.forked s.current j L.stack (L.task j) (s.pcbId s.current) m)
        { s with
          hart := { s.hart with
            toMachine := putContext s.hart.toMachine (L.ctx j)
              (childContext L.stack (L.task j) (s.pcbId s.current) m
                (contextAt s.hart.toMachine (L.ctx s.current))) }
          status := Function.update s.status j .fresh
          pcbId := Function.update s.pcbId j m }
  /-- `do_execve` before its `switch_to` -/
  | exec {ret argv entry : Word} {caller : Exec.Caller} (hu : s.user = false)
      (hst : s.status s.current = .kernel (some .execve) ret) :
      Step L s (.loaded s.current ⟨(Exec.execContext caller argv entry).regs, entry⟩)
        { s with
          hart := { s.hart with
            toMachine := putContext s.hart.toMachine (L.ctx s.current)
              (Exec.execContext caller argv entry) }
          status := Function.update s.status s.current .fresh }
  /-- `switch_to`, up to its `ret` -/
  | ret {last : Word} {j : ι} {m : Machine} (hu : s.user = false) (hj : Switches L s last j)
      (hsw : Switch.switchTo (atSwitch s.hart last (L.ctx j)) = .ret m) :
      Step L s .quiet { s with hart := { s.hart with toMachine := m }, current := j }
  /-- `switch_to`, over `ret_from_sys_call` to the user's code -/
  | retFromSysCall {last : Word} {j : ι} {m : Machine} {h : Hart} (hu : s.user = false)
      (hj : Switches L s last j)
      (hsw : Switch.switchTo (atSwitch s.hart last (L.ctx j)) = .retFromSysCall m)
      (hout : Leaves L s { s.hart with toMachine := m } h) :
      Step L s .quiet
        { s with
          hart := h, user := true, current := j, status := Function.update s.status j .user }
  /-- `trap_handler` has returned -/
  | leave {ret : Word} {h : Hart} (hu : s.user = false)
      (hst : s.status s.current = .kernel none ret)
      (hout : Leaves L s (execAll (s.hart.set .a0 ret) exceptionBlock) h) :
      Step L s .quiet
        { s with hart := h, user := true, status := Function.update s.status s.current .user }
  /-- `release` of a task that has exited -/
  | release {j : ι} {ret : Word} (hu : s.user = false) (hj : j ≠ s.current)
      (hst : s.status j = .kernel (some .exit) ret) :
      Step L s (.released j) { s with status := Function.update s.status j .absent }

/-- After `move_to_user_mode`, with only task `i`, whose context `Init_sched` put into `sscratch`. -/
def start (L : Layout ι) (i : ι) (h : Hart) : System ι where
  hart := { h with sscratch := L.ctx i }
  user := true
  current := i
  status j := if j = i then .user else .absent
  pcbId _ := 0

end

end Trap
