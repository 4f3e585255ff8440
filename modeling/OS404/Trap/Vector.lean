import OS404.Basic
import OS404.Sched.Image

/-!
# Traps (`kernel/switch.S`, `trap/trap.c`, `kernel/sys.c`)

The way of a hart from a trap to `trap_handler` and from there back to the user's code. The code blocks
of `switch.S` are lists of instructions, in the order of the file; between them it calls C functions.
A context in memory is the `struct reg` at an address; `contextAt` reads it.
-/

namespace Trap

open Switch (Reg Word Machine)
open Sched (Context stackAt stackSize)

/-! ## The hart -/

/-- The machine with the registers that a trap uses. -/
structure Hart extends Machine where
  pc : Word
  sepc : Word
  scause : Word

/-- The instructions of the trap code. -/
inductive Instr where
  | core (i : Switch.Instr)
  /-- `csrrw rd, sscratch, rs` -/
  | csrrw (rd rs : Reg)
  /-- `csrr rd, sepc` -/
  | csrrSepc (rd : Reg)
  /-- `csrw sepc, rs` -/
  | csrwSepc (rs : Reg)
  /-- `csrr rd, scause` -/
  | csrrScause (rd : Reg)
  | li (rd : Reg) (imm : Word)

def Hart.set (h : Hart) (r : Reg) (v : Word) : Hart := { h with toMachine := h.toMachine.set r v }

def Instr.exec (h : Hart) : Instr → Hart
  | core i => { h with toMachine := i.exec h.toMachine }
  | csrrw rd rs =>
    { h with toMachine := { h.toMachine.set rd h.sscratch with sscratch := h.regs rs } }
  | csrrSepc rd => h.set rd h.sepc
  | csrwSepc rs => { h with sepc := h.regs rs }
  | csrrScause rd => h.set rd h.scause
  | li rd imm => h.set rd imm

def execAll (h : Hart) (is : List Instr) : Hart := is.foldl Instr.exec h

/-- A trap: the hart goes to `trap_vector`. -/
def Hart.trap (h : Hart) (cause : Word) : Hart := { h with sepc := h.pc, scause := cause }

/-- `sret` -/
def Hart.sret (h : Hart) : Hart := { h with pc := h.sepc }

/-! ## `trap_vector` -/

open Switch.Reg in
/-- The macro `reg_save`. -/
def regSave (base : Reg) : List Switch.Instr :=
  [.sd ra 0 base, .sd sp 8 base, .sd gp 16 base, .sd tp 24 base, .sd t0 32 base, .sd t1 40 base,
   .sd t2 48 base, .sd s0 56 base, .sd s1 64 base, .sd a0 72 base, .sd a1 80 base, .sd a2 88 base,
   .sd a3 96 base, .sd a4 104 base, .sd a5 112 base, .sd a6 120 base, .sd a7 128 base,
   .sd s2 136 base, .sd s3 144 base, .sd s4 152 base, .sd s5 160 base, .sd s6 168 base,
   .sd s7 176 base, .sd s8 184 base, .sd s9 192 base, .sd s10 200 base, .sd s11 208 base,
   .sd t3 216 base, .sd t4 224 base, .sd t5 232 base]

open Switch.Reg in
/-- The macro `reg_restore`. -/
def regRestore (base : Reg) : List Switch.Instr :=
  [.ld ra 0 base, .ld sp 8 base, .ld gp 16 base, .ld tp 24 base, .ld t0 32 base, .ld t1 40 base,
   .ld t2 48 base, .ld s0 56 base, .ld s1 64 base, .ld a0 72 base, .ld a1 80 base, .ld a2 88 base,
   .ld a3 96 base, .ld a4 104 base, .ld a5 112 base, .ld a6 120 base, .ld a7 128 base,
   .ld s2 136 base, .ld s3 144 base, .ld s4 152 base, .ld s5 160 base, .ld s6 168 base,
   .ld s7 176 base, .ld s8 184 base, .ld s9 192 base, .ld s10 200 base, .ld s11 208 base,
   .ld t3 216 base, .ld t4 224 base, .ld t5 232 base, .ld t6 240 base]

/-- `trap_vector` up to the first call: the registers go to the context in `sscratch`. -/
def saveBlock : List Instr :=
  .csrrw .t6 .t6 :: (regSave .t6).map .core ++
    [.core (.mv .t5 .t6), .core (.csrr .t6), .core (.sd .t6 240 .t5), .csrrSepc .t6,
     .core (.sd .t6 248 .t5), .core (.csrw .t5)]

/-- The arguments of `trap_handler`. -/
def handlerArgs : List Instr := [.csrrScause .a0, .csrrSepc .a1, .core (.csrr .a2)]

/-- `ret_from_exception`, up to `ret_from_sys_call`. -/
def exceptionBlock : List Instr := [.core (.csrr .t6), .core (.sd .a0 248 .t6)]

/-- `ret_from_sys_call` behind the call of `set_mode`, up to `sret`. -/
def restoreBlock : List Instr :=
  [.core (.csrr .t6), .core (.ld .t5 248 .t6), .csrwSepc .t5] ++ (regRestore .t6).map .core

/-! ## The C functions -/

/-- `Dect_stack`, for a running task with stack `i`. -/
def dectStack (stack : Word) (i : Nat) (sp : Word) : Res Unit :=
  if stackAt stack i (stackSize - 1) < sp ∨ sp < stackAt stack i 0 then
    .error (.panic "STACK OVERFLOW!\n")
  else .ok ()

/-- What `trap_handler` calls. -/
inductive Work where
  | none
  | timer
  | external
  | syscall
  deriving DecidableEq

/-- `trap_handler`: what it calls, and the `epc` it returns. -/
def trapHandler (cause epc : Word) : Res (Work × Word) :=
  if cause &&& 0x8000000000000000 ≠ 0 then
    match (cause &&& 0xfff).toNat with
    | 5 => .ok (.timer, epc)
    | 9 => .ok (.external, epc)
    | _ => .ok (.none, epc)
  else
    match (cause &&& 0xfff).toNat with
    | 8 => .ok (.syscall, epc + 4)
    | 9 => .error (.panic "OOPS!!! it's forbiddened temporily ecall from S-mode\n")
    | 11 => .error (.panic "OOPS!!! it's forbiddened temporily ecall from M-mode\n")
    | _ => .error (.panic "encounter error\n")

/-- The system calls. -/
inductive SysCall where
  | gethid
  | getpid
  | getppid
  | fork
  | execve
  | exit
  | waitpid
  | shutdown
  deriving DecidableEq

/-- `sys_call_table`; the calls between these are null pointers. -/
def sysCallTable : Nat → Option SysCall
  | 0 => some .gethid
  | 7 => some .shutdown
  | 93 => some .exit
  | 172 => some .getpid
  | 173 => some .getppid
  | 220 => some .fork
  | 221 => some .execve
  | 260 => some .waitpid
  | _ => none

/-- What `do_syscall` calls. `sys_num` is not compared with the size of the table. -/
def doSyscall (context : Context) : Res SysCall :=
  match sysCallTable (context.regs .a7).toNat with
  | some call => .ok call
  | none => .error .ub

/-! ## Contexts in memory -/

open Switch.Reg in
/-- The registers in the order of `struct reg`. -/
def regOrder : List Reg :=
  [ra, sp, gp, tp, t0, t1, t2, s0, s1, a0, a1, a2, a3, a4, a5, a6, a7, s2, s3, s4, s5, s6, s7, s8, s9,
   s10, s11, t3, t4, t5, t6]

/-- `sizeof(struct reg)` -/
def sizeofReg : Nat := 264

/-- Field `i` of the `struct reg` at `a`. -/
def fieldAt (a : Word) (i : Nat) : Word := a + BitVec.ofNat 64 (8 * i)

/-- The `struct reg` at `a`. -/
def contextAt (m : Machine) (a : Word) : Context where
  regs r := m.load (fieldAt a (regOrder.idxOf r))
  epc := m.load (fieldAt a 31)
  temp := m.load (fieldAt a 32)

/-- Storing `ws` in the fields from field `k` of the `struct reg` at `a`. -/
def storeFields (a : Word) : Nat → List Word → Machine → Machine
  | _, [], m => m
  | k, w :: ws, m => storeFields a (k + 1) ws (m.store (fieldAt a k) w)

/-- Writing `c` to the `struct reg` at `a`. -/
def putContext (m : Machine) (a : Word) (c : Context) : Machine :=
  storeFields a 0 (regOrder.map c.regs ++ [c.epc, c.temp]) m

end Trap
