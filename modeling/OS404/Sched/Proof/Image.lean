import OS404.Sched.Image
import OS404.Sched.Proof.Ops
import OS404.Lib.Copy
import Mathlib.Data.BitVec
import Mathlib.Tactic.Abel

/-!
# `fork` copies the image

* `copyLoop_eq`: the loop of `copy_memory` copies the bytes from the last one down to the first one,
  and stops there.
* `fork_copies_image`: what a fork gives to the child, and what it leaves alone.
-/

namespace Sched

open Lib
open Switch (Reg Word)

/-! ## The loop of `copy_memory` -/

theorem add_ofNat_inj {a : Word} {i k : Nat} (hi : i < 2 ^ 64) (hk : k < 2 ^ 64)
    (h : a + BitVec.ofNat 64 i = a + BitVec.ofNat 64 k) : i = k := by
  have h' := congrArg BitVec.toNat (add_left_cancel h)
  rwa [BitVec.toNat_ofNat, BitVec.toNat_ofNat, Nat.mod_eq_of_lt hi, Nat.mod_eq_of_lt hk] at h'

/-- With `n` bytes left, the last one at `oldEnd + n - 1`, the loop copies them from the last one down.
The source does not start at address 0, so the comparison ends the loop below it. -/
theorem copyLoop_eq {oldEnd new : Word} (hpos : 0 < oldEnd.toNat) : ∀ {n fuel : Nat}
    {m : Word → BitVec 8}, n < fuel → oldEnd.toNat + n ≤ 2 ^ 64 →
    copyLoop oldEnd fuel (oldEnd + BitVec.ofNat 64 n - 1) (new + BitVec.ofNat 64 n - 1) m =
      .ok (copyCells (blockCells (new + BitVec.ofNat 64 ·) (oldEnd + BitVec.ofNat 64 ·) n).reverse m)
  | 0, 0, _, hfuel, _ => absurd hfuel (Nat.lt_irrefl 0)
  | 0, fuel + 1, m, _, _ => by
    have hbelow : ¬ oldEnd ≤ oldEnd + BitVec.ofNat 64 0 - 1 := by
      rw [show BitVec.ofNat 64 0 = 0 from rfl, add_zero]
      bv_omega
    unfold copyLoop
    rw [if_neg hbelow]
    rfl
  | n + 1, 0, _, hfuel, _ => absurd hfuel (Nat.not_lt_zero _)
  | n + 1, fuel + 1, m, hfuel, hend => by
    have hle : oldEnd ≤ oldEnd + BitVec.ofNat 64 n := by
      rw [BitVec.le_def, BitVec.toNat_add, BitVec.toNat_ofNat, Nat.mod_eq_of_lt (by omega : n < 2 ^ 64),
        Nat.mod_eq_of_lt (by omega)]
      omega
    rw [add_ofNat_succ_sub, add_ofNat_succ_sub, copyLoop, if_pos hle,
      copyLoop_eq hpos (by omega) (by omega), blockCells_succ_reverse]
    rfl

/-! ## The stacks -/

section
variable {stack : Word} {i j k l : Nat}

/-- A byte of a stack as an offset to its first one. -/
theorem stackAt_eq (stack : Word) (i k : Nat) :
    stackAt stack i k = stackAt stack i 0 + BitVec.ofNat 64 k := by
  unfold stackAt
  rw [BitVec.ofNat_add, Nat.add_zero, ← add_assoc]

/-- The stacks do not overlap. -/
theorem stackAt_ne (hi : i < maxTask) (hj : j < maxTask) (hk : k < stackSize) (hl : l < stackSize)
    (hne : i ≠ j) : stackAt stack i k ≠ stackAt stack j l := by
  intro h
  unfold maxTask at hi hj
  unfold stackAt stackSize at h
  unfold stackSize at hk hl
  have := add_ofNat_inj (by omega) (by omega) h
  omega

/-- The address at the same offset in another stack, as `copy_process` computes it. -/
theorem stackAt_moved (stack : Word) (i j k : Nat) :
    stackAt stack j (stackSize - 1) - (stackAt stack i (stackSize - 1) - stackAt stack i k) =
      stackAt stack j k := by
  rw [stackAt_eq stack j (stackSize - 1), stackAt_eq stack i (stackSize - 1), stackAt_eq stack i k,
    stackAt_eq stack j k]
  abel

end

/-- The array `task_stack` is in memory: not at address 0, and it ends before the addresses wrap. -/
structure StackLayout (stack : Word) : Prop where
  pos : 0 < stack.toNat
  fits : stack.toNat + maxTask * stackSize ≤ 2 ^ 64

/-- `copy_memory` copies the stack of slot `i` to that of slot `j`. -/
theorem copyMemory_spec {stack : Word} (hs : StackLayout stack) {i j fuel : Nat} (hi : i < maxTask)
    (hj : j < maxTask) (hne : i ≠ j) (hfuel : stackSize < fuel) (m : Word → BitVec 8) :
    ∃ m', copyMemory stack fuel i (stackAt stack j (stackSize - 1)) m = .ok m' ∧
      (∀ k < stackSize, m' (stackAt stack j k) = m (stackAt stack i k)) ∧
      ∀ a, (∀ k < stackSize, a ≠ stackAt stack j k) → m' a = m a := by
  have hrow : (stackAt stack i 0).toNat = stack.toNat + i * stackSize := by
    have hfits := hs.fits
    unfold stackAt
    rw [Nat.add_zero, BitVec.toNat_add, BitVec.toNat_ofNat]
    unfold maxTask stackSize at *
    omega
  have hlast : ∀ r, stackAt stack r (stackSize - 1) =
      stackAt stack r 0 + BitVec.ofNat 64 stackSize - 1 := fun r => by
    rw [stackAt_eq, ← add_ofNat_succ_sub]
    rfl
  have hrun := @copyLoop_eq (stackAt stack i 0) (stackAt stack j 0)
    (by rw [hrow]; have := hs.pos; omega) stackSize fuel m hfuel
    (by rw [hrow]; have := hs.fits; unfold maxTask stackSize at *; omega)
  rw [← hlast i, ← hlast j, ← funext (stackAt_eq stack i), ← funext (stackAt_eq stack j)] at hrun
  have hcopy : Copied (stackAt stack j) (stackAt stack i) stackSize m _ := copied_down <| by
    intro k l hkl hl
    refine ⟨fun h => ?_, stackAt_ne hj hi hl (by omega) hne.symm⟩
    rw [stackAt_eq stack j k, stackAt_eq stack j l] at h
    have := add_ofNat_inj (by unfold stackSize at hl; omega) (by unfold stackSize at hl; omega) h
    omega
  exact ⟨_, hrun, hcopy.copied, hcopy.kept⟩

/-! ## `sys_fork` -/

/-- The child's context, for a parent whose `sp` and `s0` are in its stack. -/
structure Relocated (stack : Word) (i j : Nat) (c c' : Context) : Prop where
  sp : ∀ k < stackSize, c.regs .sp = stackAt stack i k → c'.regs .sp = stackAt stack j k
  s0 : ∀ k < stackSize, c.regs .s0 = stackAt stack i k → c'.regs .s0 = stackAt stack j k
  epc : c'.epc = c.epc + 4
  a0 : c'.regs .a0 = 0
  regs : ∀ r, r ∉ [Reg.sp, .s0, .a0, .gp] → c'.regs r = c.regs r

theorem childContext_relocated (stack : Word) (p : Ptr) (i j : Nat) (c : Context) :
    Relocated stack i j c (childContext stack p i j c) where
  sp k _ hsp := by
    rw [childContext, hsp]
    exact stackAt_moved stack i j k
  s0 k _ hs0 := by
    rw [childContext, hs0]
    exact stackAt_moved stack i j k
  epc := rfl
  a0 := rfl
  regs r hr := by
    cases r
    case sp | s0 | a0 | gp => exact absurd (by decide) hr
    all_goals rfl

/-- Everything but slot `j`, the task at `p` and the stack of slot `j` is as before. -/
structure OthersKept (stack : Word) (j : Nat) (p : Ptr) (s s' : Kernel) : Prop where
  bytes : ∀ i < maxTask, i ≠ j → ∀ k < stackSize,
    s'.bytes (stackAt stack i k) = s.bytes (stackAt stack i k)
  pcbs : ∀ q, q ≠ p → s'.tasks q = s.tasks q ∧ s'.image q = s.image q
  slots : ∀ i, i ≠ j → s'.task i = s.task i

/-- **`fork` copies the task image.** With a free slot `j`, memory for the task structure and a pid
left, `sys_fork` of a task in slot `i` returns: a new task is in slot `j`, its stack is that of its
parent byte for byte, its context is the parent's, moved to its stack, and all other tasks are left
alone. -/
theorem fork_copies_image {stack : Word} (hs : StackLayout stack) {s : Kernel} {t : Task}
    (ht : s.tasks s.current = some t) (h0 : s.current ≠ 0) (hi : t.pcbId < maxTask)
    (hslot : s.task t.pcbId = s.current) {j : Nat} (hfree : freeSlot s.toState = some j)
    (hpid : s.newPid < 2 ^ 31 - 1) {p : Ptr} (hp : p ≠ 0) (hfresh : s.tasks p = none) {fuel : Nat}
    (hfuel : stackSize < fuel) :
    ∃ s' u, sysFork stack fuel p s = .ok (u.pid, s') ∧ s'.task j = p ∧ s'.tasks p = some u ∧
      u.pcbId = j ∧
      (∀ k < stackSize, s'.bytes (stackAt stack j k) = s.bytes (stackAt stack t.pcbId k)) ∧
      Relocated stack t.pcbId j (s.image s.current).context (s'.image p).context ∧
      OthersKept stack j p s s' := by
  obtain ⟨u, hb, hfork⟩ := fork_returns ht hfree hpid hp hfresh
  have hne : t.pcbId ≠ j := fun he => h0 (hslot.symm.trans (he ▸ hb.free))
  obtain ⟨m', hcopy, hcopied, hkept⟩ := copyMemory_spec hs hi hb.slot.2 hne hfuel s.bytes
  have hget : s.get s.current = .ok t := get_eq_ok.2 ht
  let child := childImage stack p t.pcbId j (s.image s.current)
  refine ⟨⟨s.addTask p j u, Function.update s.image p child, m'⟩, u, ?_, Function.update_self ..,
    addTask_new, hb.pcbId, hcopied, ?_, ?_⟩
  · unfold sysFork
    rw [hfork, Res.ok_bind]
    dsimp only
    rw [hget, Res.ok_bind, if_neg (by omega), show (s.addTask p j u).newPcbId = j from rfl, hcopy]
    rfl
  · dsimp only
    rw [Function.update_self]
    exact childContext_relocated stack p t.pcbId j (s.image s.current).context
  · exact {
      bytes := fun i hi hij k hk => hkept _ fun l hl => stackAt_ne hi hb.slot.2 hk hl hij
      pcbs := fun q hq => ⟨Function.update_of_ne hq .., Function.update_of_ne hq ..⟩
      slots := fun i hij => Function.update_of_ne hij .. }

/-- The kernel at boot with its stacks at `0x80300000`, when task 0 has pushed two words. -/
def bootKernel : Kernel where
  toState := State.boot 100
  image _ :=
    { sigaction := fun _ => ⟨0, 0, 0⟩, cwd := 0, ofile := fun _ => 0
      context := { regs := fun _ => stackAt 0x80300000 0 4079, epc := 0x80200000, temp := 0 } }
  bytes a := a.truncate 8

/-- Task 0 forks the first task: its stack pointer is at the same offset of stack 1. -/
theorem fork_copies_image_boot : ∃ s' : Kernel, ∃ u : Task,
    sysFork 0x80300000 5000 200 bootKernel = .ok (u.pid, s') ∧ s'.task 1 = 200 ∧ u.pcbId = 1 ∧
    (s'.image 200).context.regs .sp = stackAt 0x80300000 1 4079 ∧
    (s'.image 200).context.epc = 0x80200004 ∧ OthersKept 0x80300000 1 200 bootKernel s' := by
  have hs : StackLayout 0x80300000 := ⟨by decide, by decide⟩
  obtain ⟨t, ht, hpcb⟩ : ∃ t, bootKernel.tasks 100 = some t ∧ t.pcbId = 0 := ⟨_, rfl, rfl⟩
  obtain ⟨s', u, hrun, htask, -, hu, -, hmoved, hkept⟩ := fork_copies_image hs ht (by decide)
    (by rw [hpcb]; decide) (by rw [hpcb]; rfl) (show freeSlot bootKernel.toState = some 1 by decide)
    (by decide) (show (200 : Ptr) ≠ 0 by decide) rfl (show stackSize < 5000 by decide)
  rw [hpcb] at hmoved
  exact ⟨s', u, hrun, htask, hu, hmoved.sp 4079 (by decide) rfl, hmoved.epc, hkept⟩

end Sched
