import OS404.Fs.File
import OS404.Mm.Proof.HeapRuns
import OS404.Sched.Image

/-!
# Loading a program (`kernel/sched/exec.c`)

`do_execve` over the volume, the inodes in memory and the heap with its live objects. A segment is
loaded into an object of `malloc(p_header.memsz)`, whose parameter has 32 bits, while the sizes of the
header have 64. A store behind the bytes that were asked for is undefined.

The allocations inside `name_to_i` (the stack of `fat32_inode_dirlookup`) are freed on each of its
exits and are not in the model. `argv` points to an array, of which `argv[0]` is looked at.
-/

namespace Exec

open Lib (Prog loadNat)
open Mm (HeapCfg Obj)
open Fs
open Sched (Context)
open Switch (Word)

/-- `ELF_MAGIC` -/
def elfMagic : BitVec 32 := 0x464C457F

/-- `ELF_PROG_LOAD` -/
def elfProgLoad : BitVec 32 := 1

/-- `MAX_PROG_HEADERS` -/
def maxProgHeaders : Nat := 64

/-- `sizeof(struct elfhdr)` -/
def sizeofElfhdr : Nat := 64

/-- `sizeof(struct proghdr)` -/
def sizeofProghdr : Nat := 56

/-- A field of `n` bytes at byte `o` of a header. -/
def field (bytes : List (BitVec 8)) (o n : Nat) : Nat :=
  loadNat (fun i : BitVec 6 => bytes.getD i.toNat 0) (BitVec.ofNat 6 o) n

/-- The fields of `struct elfhdr` that are looked at. -/
structure Elfhdr where
  magic : BitVec 32
  phOff : BitVec 64
  phNum : BitVec 16

def Elfhdr.ofBytes (bytes : List (BitVec 8)) : Elfhdr where
  magic := BitVec.ofNat 32 (field bytes 0 4)
  phOff := BitVec.ofNat 64 (field bytes 32 8)
  phNum := BitVec.ofNat 16 (field bytes 56 2)

/-- The fields of `struct proghdr` that are looked at. -/
structure Proghdr where
  type : BitVec 32
  off : BitVec 64
  vaddr : BitVec 64
  filesz : BitVec 64
  memsz : BitVec 64

def Proghdr.ofBytes (bytes : List (BitVec 8)) : Proghdr where
  type := BitVec.ofNat 32 (field bytes 0 4)
  off := BitVec.ofNat 64 (field bytes 8 8)
  vaddr := BitVec.ofNat 64 (field bytes 16 8)
  filesz := BitVec.ofNat 64 (field bytes 32 8)
  memsz := BitVec.ofNat 64 (field bytes 40 8)

/-- The three checks of a header that is to be loaded. -/
abbrev Proghdr.Rejected (h : Proghdr) : Prop :=
  h.memsz < h.filesz ∨ h.vaddr + h.memsz < h.vaddr ∨ h.vaddr.toNat % Mm.pageSize ≠ 0

/-- What `_malloc_` is asked for: its parameter is a `uint32_t`. -/
def Proghdr.asked (h : Proghdr) : Nat := u32 h.memsz.toNat

/-! ## A segment -/

/-- Storing the bytes `v 0`, …, `v (n - 1)` from byte `off` of the object `o` on. -/
def storeBytes (c : HeapCfg) (o : Obj) (off n : Nat) (v : Nat → Nat) : Res HeapCfg :=
  if off + n ≤ o.n then
    let a := o.ptr + off
    .ok { c with state := c.state.setMem fun x => if a ≤ x ∧ x < a + n then v (x - a) else c.state.mem x }
  else .error .ub

/-- The body of the loop for a header that passes the checks: the object with the segment, or `none`
for `goto bad`. -/
def loadSegment (sb : Superblock) (ip : Inode) (h : Proghdr) (c : HeapCfg) :
    FsProg (Option Obj × HeapCfg) := do
  let (mem, s) ← Prog.lift (Mm.malloc h.asked c.state)
  if mem = 0 then return (none, ⟨s, c.live⟩)
  else do
    let o : Obj := ⟨mem, h.asked⟩
    let (r, dst) ← fat32InodeRead sb ip (u32 h.off.toNat) (u32 h.filesz.toNat)
    let c ← Prog.lift
      (storeBytes ⟨s, o :: c.live⟩ o 0 dst.length fun i => (dst.getD i 0).toNat)
    -- the count is compared with the 64 bits of `filesz`
    if r ≠ h.filesz.toNat then do
      let c ← Prog.lift (c.step (.free o 0))
      return (none, c)
    else if 0 < h.memsz - h.filesz then do
      let c ← Prog.lift (storeBytes c o h.filesz.toNat (h.memsz - h.filesz).toNat fun _ => 0)
      return (some o, c)
    else return (some o, c)

/-! ## The program headers -/

/-- The loop over the program headers, with the headers left, `off` and `allocated_count`; `false` for
`goto bad`. -/
def loadLoop (sb : Superblock) (ip : Inode) (mems : Obj) :
    Nat → Nat → Nat → HeapCfg → FsProg (Bool × HeapCfg)
  | 0, _, _, c => return (true, c)
  | k + 1, off, count, c => do
    let (r, bytes) ← fat32InodeRead sb ip off sizeofProghdr
    if r ≠ sizeofProghdr then return (false, c)
    else
      let h := Proghdr.ofBytes bytes
      if h.type ≠ elfProgLoad then loadLoop sb ip mems k (u32 (off + sizeofProghdr)) count c
      else if h.Rejected then return (false, c)
      else do
        let (o, c) ← loadSegment sb ip h c
        match o with
        | none => return (false, c)
        | some o =>
          let c : HeapCfg := ⟨c.state.store (mems.ptr + 8 * count) o.ptr, c.live⟩
          if maxProgHeaders ≤ count + 1 then
            panic "huge size of elf,which can't load temporially!!\n"
          else loadLoop sb ip mems k (u32 (off + sizeofProghdr)) (count + 1) c

/-- `do_execve` from `allocated_mems` to the end of the loop: the array, or `none` for `goto bad`. -/
def loadProgram (sb : Superblock) (ip : Inode) (elf : Elfhdr) (c : HeapCfg) :
    FsProg (Option Obj × HeapCfg) := do
  let (p, s) ← Prog.lift (Mm.malloc (maxProgHeaders * 8) c.state)
  if p = 0 then return (none, ⟨s, c.live⟩)
  else do
    let mems : Obj := ⟨p, maxProgHeaders * 8⟩
    let (done, c) ←
      loadLoop sb ip mems elf.phNum.toNat (u32 elf.phOff.toNat) 0 ⟨s, mems :: c.live⟩
    return (if done then some mems else none, c)

/-! ## `do_execve` -/

/-- What `do_execve` works on. -/
structure State where
  sb : Superblock
  inodes : Inodes
  heap : HeapCfg

/-- What it reads of the running task and of the kernel: the working directory, what the array `name`
of `name_to_i` holds, the address of `exit` and that of the end of the task's stack. -/
structure Caller where
  cwd : Ptr
  buf : List (BitVec 8)
  exit : Word
  sp : Word

/-- The end of a call. -/
inductive Outcome where
  | ret (v : Int)
  | switchTo (ctx : Context)

/-- The context behind `context_restore`. -/
def execContext (caller : Caller) (argv entry : Word) : Context where
  regs
    | .ra => caller.exit
    | .sp => caller.sp
    -- `sizeof(argv) / sizeof(char*)`, of two pointers
    | .a0 => 1
    | .a1 => argv
    | _ => 0
  epc := entry
  temp := 0

/-- Opening the file and reading its header: the inode, and the header if it is one. -/
def readHeader (fuel : Nat) (caller : Caller) (path : List (BitVec 8)) (sb : Superblock) (t : Inodes) :
    FsProg (Option (Ptr × Option Elfhdr) × Superblock × Inodes) := do
  let (ip, sb, t) ← nameToI sb fuel t caller.cwd path caller.buf
  match ip with
  | none => return (none, sb, t)
  | some p => do
    let t ← fat32InodeLock sb fuel t p
    let (r, bytes) ← fat32InodeRead sb (t.deref p).toInode 0 sizeofElfhdr
    let elf := Elfhdr.ofBytes bytes
    if r ≠ sizeofElfhdr ∨ elf.magic ≠ elfMagic then return (some (p, none), sb, t)
    else return (some (p, some elf), sb, t)

/-- `do_execve`. -/
def doExecve (fuel : Nat) (caller : Caller) (filepath : Option (List (BitVec 8))) (argv argv0 : Word)
    (s : State) : FsProg (Outcome × State) :=
  match filepath with
  | none =>
    if argv0 ≠ 0 then return (.switchTo (execContext caller argv argv0), s)
    -- `bad` looks at `ip`, which was not set
    else .fail .ub
  | some path => do
    let (opened, sb, t) ← readHeader fuel caller path s.sb s.inodes
    match opened with
    | none => return (.ret (-1), ⟨sb, t, s.heap⟩)
    | some (p, none) => do
      let (sb, t) ← fat32InodeUnlockPut sb fuel t p
      return (.ret (-1), ⟨sb, t, s.heap⟩)
    | some (p, some elf) => do
      let (mems, heap) ← loadProgram sb (t.deref p).toInode elf s.heap
      -- at `bad` as well as behind the loop
      let (sb, t) ← fat32InodeUnlockPut sb fuel t p
      match mems with
      | none => return (.ret (-1), ⟨sb, t, heap⟩)
      | some mems =>
        if argv0 ≠ 0 then
          return (.switchTo (execContext caller argv (BitVec.ofNat 64 (u32 mems.ptr))), ⟨sb, t, heap⟩)
        else return (.ret (-1), ⟨sb, t, heap⟩)

end Exec
