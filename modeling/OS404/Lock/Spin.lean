import OS404.Lib.Critical

/-!
# Spin locks (`kernel/lock/atomic.S`, `kernel/lock/spin_lock.c`)

`spin_atomic_lock` is one `amoswap.w` on the word at `lock->state`. `spin_lock` repeats it until the old
word is 0; the turns of the loop are interleaved with the other harts and tasks.
-/

namespace Lock

/-- `spin_atomic_lock(addr, v)`: what it returns, and the word it leaves. -/
def spinAtomicLock (state : BitVec 32) (v : BitVec 64) : BitVec 64 × BitVec 32 :=
  (state.signExtend 64, v.setWidth 32)

/-- One turn of `spin_lock`: the word, and whether the loop ends. -/
def spinLockTurn (state : BitVec 32) : BitVec 32 × Bool :=
  let (old, state) := spinAtomicLock state 1
  (state, old == 0)

/-- `spin_unlock`. -/
def spinUnlock (state : BitVec 32) : BitVec 32 := (spinAtomicLock state 0).2

theorem signExtend_eq_zero {x : BitVec 32} : x.signExtend 64 = 0#64 ↔ x = 0#32 := by
  refine ⟨fun h => BitVec.eq_of_toInt_eq ?_, fun h => by rw [h]; decide⟩
  rw [← BitVec.toInt_signExtend_of_le (x := x) (v := 64) (by decide), h]
  rfl

theorem spinLockTurn_eq (w : BitVec 32) : spinLockTurn w = (1#32, decide (w = 0#32)) := by
  simp [spinLockTurn, spinAtomicLock, beq_eq_decide, signExtend_eq_zero]

/-- The lock of the kernel: 0 is free. -/
def spinLock : Lib.Lock (BitVec 32) where
  held w := w ≠ 0
  acquire := spinLockTurn
  release := spinUnlock
  acquire_held w h := by
    rw [spinLockTurn_eq]
    exact ⟨decide_eq_false h, show 1#32 ≠ 0 by decide⟩
  acquire_free w h := by
    rw [spinLockTurn_eq]
    exact ⟨decide_eq_true (not_not.1 h), show 1#32 ≠ 0 by decide⟩
  release_free _ := not_not.2 rfl

end Lock
