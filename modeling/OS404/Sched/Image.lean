import OS404.Sched.Sys
import OS404.Switch.Machine

/-!
# The image of a task (`kernel/sched/fork.c`)

The rest of `struct task_struct`, which the scheduler does not look at, and the stacks: what
`copy_process` gives to the child besides the fields of `Task`. The array `task_stack` is at address
`stack` of the byte memory; addresses are 64-bit words. `copy_process` compares addresses and subtracts
them as unsigned numbers. What its own stack frame holds while it runs is not in the model.
-/

namespace Sched

open Switch (Reg Word)

/-- `STACK_SIZE` -/
def stackSize : Nat := 4096

/-- `struct reg` -/
structure Context where
  regs : Reg → Word
  epc : Word
  temp : Word

/-- `struct sigaction` -/
structure Sigaction where
  saHandler : Word
  saMask : BitVec 32
  saFlags : BitVec 32

/-- The fields `sigaction`, `_cwd`, `_ofile` and `context` of a task. -/
structure Image where
  sigaction : Fin 32 → Sigaction
  cwd : Ptr
  ofile : Fin 128 → Ptr
  context : Context

/-- The scheduler's variables, the images of the tasks and the memory. -/
structure Kernel extends State where
  image : Ptr → Image
  bytes : Word → BitVec 8

/-- `&task_stack[i][k]` -/
def stackAt (stack : Word) (i k : Nat) : Word := stack + BitVec.ofNat 64 (i * stackSize + k)

/-- The loop of `copy_memory` at `old_addr_start` and `new_addr_start`, with a bound on its turns. -/
def copyLoop (oldEnd : Word) : Nat → Word → Word → (Word → BitVec 8) → Res (Word → BitVec 8)
  | 0, _, _, _ => .error .loop
  | fuel + 1, old, new, m =>
    if oldEnd ≤ old then copyLoop oldEnd fuel (old - 1) (new - 1) (Function.update m new (m old))
    else .ok m

/-- `copy_memory`, for a running task in slot `i`. -/
def copyMemory (stack : Word) (fuel i : Nat) (sp : Word) (m : Word → BitVec 8) :
    Res (Word → BitVec 8) :=
  copyLoop (stackAt stack i 0) fuel (stackAt stack i (stackSize - 1)) sp m

/-- The context of the child at `p` in slot `j`, of a parent in slot `i` with context `c`. -/
def childContext (stack : Word) (p : Ptr) (i j : Nat) (c : Context) : Context where
  regs
    | .sp => stackAt stack j (stackSize - 1) - (stackAt stack i (stackSize - 1) - c.regs .sp)
    | .gp => BitVec.ofNat 64 p
    | .s0 => stackAt stack j (stackSize - 1) - (stackAt stack i (stackSize - 1) - c.regs .s0)
    | .a0 => 0
    | r => c.regs r
  epc := c.epc + 4
  temp := 0

/-- What `copy_process` copies of the running task's `image`. -/
def childImage (stack : Word) (p : Ptr) (i j : Nat) (image : Image) : Image where
  sigaction := image.sigaction
  cwd := image.cwd
  ofile := image.ofile
  context := childContext stack p i j image.context

/-- `sys_fork` with the image, with `malloc(sizeof(struct task_struct))` returning `p`. -/
def sysFork (stack : Word) (fuel : Nat) (p : Ptr) (s : Kernel) : Res (Int × Kernel) := do
  let (pid, st) ← fork p s.toState
  let parent ← s.get s.current
  -- the index of `task_stack[current->pcb_id]`
  if maxTask ≤ parent.pcbId then .error .ub
  else
    let i := parent.pcbId
    let j := st.newPcbId
    let bytes ← copyMemory stack fuel i (stackAt stack j (stackSize - 1)) s.bytes
    let image := childImage stack p i j (s.image s.current)
    return (pid, { toState := st, image := Function.update s.image p image, bytes })

end Sched
