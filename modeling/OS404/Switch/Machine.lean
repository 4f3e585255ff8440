import OS404.Lib.ByteMem

/-!
# The context switch (`kernel/switch.S`)

The registers and byte memory that `switch_to` works on, the instructions it is written with, and
`switch_to` itself: `switchSave` from its entry to label `1`, `switchLoad` from there to the end.
A code block is the list of its instructions, in the order of the file.
-/

namespace Switch

open Lib

/-- The integer registers (`x0` is not used). -/
inductive Reg where
  | ra | sp | gp | tp | t0 | t1 | t2 | s0 | s1 | a0 | a1 | a2 | a3 | a4 | a5 | a6 | a7
  | s2 | s3 | s4 | s5 | s6 | s7 | s8 | s9 | s10 | s11 | t3 | t4 | t5 | t6
  deriving DecidableEq, Repr

abbrev Word := BitVec 64

structure Machine where
  regs : Reg → Word
  mem : Word → BitVec 8
  sscratch : Word

/-- The doubleword at `a`. -/
def Machine.load (m : Machine) (a : Word) : Word := BitVec.ofNat 64 (loadNat m.mem a 8)

def Machine.store (m : Machine) (a v : Word) : Machine :=
  { m with mem := storeNat m.mem a 8 v.toNat }

def Machine.set (m : Machine) (r : Reg) (v : Word) : Machine :=
  { m with regs := Function.update m.regs r v }

inductive Instr where
  | addi (rd rs : Reg) (imm : Int)
  | mv (rd rs : Reg)
  /-- `sd rs, off(base)` -/
  | sd (rs : Reg) (off : Nat) (base : Reg)
  /-- `ld rd, off(base)` -/
  | ld (rd : Reg) (off : Nat) (base : Reg)
  /-- `csrw sscratch, rs` -/
  | csrw (rs : Reg)
  /-- `csrr rd, sscratch` -/
  | csrr (rd : Reg)

def Instr.exec (m : Machine) : Instr → Machine
  | addi rd rs imm => m.set rd (m.regs rs + BitVec.ofInt 64 imm)
  | mv rd rs => m.set rd (m.regs rs)
  | sd rs off base => m.store (m.regs base + BitVec.ofNat 64 off) (m.regs rs)
  | ld rd off base => m.set rd (m.load (m.regs base + BitVec.ofNat 64 off))
  | csrw rs => { m with sscratch := m.regs rs }
  | csrr rd => m.set rd m.sscratch

def execAll (m : Machine) (is : List Instr) : Machine := is.foldl Instr.exec m

open Reg in
/-- The macro `context_save`. -/
def contextSave (base : Reg) : List Instr :=
  [.sd ra 0 base, .sd sp 8 base, .sd s0 16 base, .sd s1 24 base, .sd s2 32 base, .sd s3 40 base,
   .sd s4 48 base, .sd s5 56 base, .sd s6 64 base, .sd s7 72 base, .sd s8 80 base, .sd s9 88 base,
   .sd s10 96 base, .sd s11 104 base]

open Reg in
/-- The macro `context_restore`. -/
def contextRestore (base : Reg) : List Instr :=
  [.ld ra 0 base, .ld sp 8 base, .ld s0 16 base, .ld s1 24 base, .ld s2 32 base, .ld s3 40 base,
   .ld s4 48 base, .ld s5 56 base, .ld s6 64 base, .ld s7 72 base, .ld s8 80 base, .ld s9 88 base,
   .ld s10 96 base, .ld s11 104 base]

/-- Offset of `temp` in `struct reg`. -/
def offTemp : Nat := 256

/-- `switch_to` up to label `1`: with `last` not null, the registers go to the stack and the stack
pointer to `last->temp`. -/
def switchSave (m : Machine) : Machine :=
  if m.regs .a0 = 0 then m
  else execAll m ([.addi .sp .sp (-104), .sd .sp offTemp .a0, .mv .t6 .sp] ++ contextSave .t6)

/-- How `switch_to` leaves. -/
inductive Exit where
  /-- `ret` -/
  | ret (m : Machine)
  /-- `j ret_from_sys_call` -/
  | retFromSysCall (m : Machine)

/-- `switch_to` from label `1`: to the stack in `next->temp`, or, if it is 0, to the context. -/
def switchLoad (m : Machine) : Exit :=
  let m := execAll m [.csrw .a1, .csrr .t6, .ld .t5 offTemp .t6]
  if m.regs .t5 = 0 then .retFromSysCall m
  else .ret (execAll m ([.mv .sp .t5, .mv .t6 .sp] ++ contextRestore .t6 ++ [.addi .sp .sp 104]))

/-- `switch_to(a0, a1)`. -/
def switchTo (m : Machine) : Exit := switchLoad (switchSave m)

end Switch
