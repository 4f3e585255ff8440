import OS404.Sched.Proof.Feedback
import Mathlib.Algebra.BigOperators.Group.Finset.Basic
import Mathlib.Data.UInt

/-!
# The accounted time

Every timer interrupt adds one to the `time` of the task that runs, a new task starts with 0, and a
zombie's `time` goes to the task that waits for it. So no tick is lost and none is counted twice: in
every run the `time` fields of the tasks in the table add up to the number of timer interrupts
(`time_conserved`), as 64-bit numbers.

One lemma for each way in which the table changes says what it does to the sum; `OpStep.totalTime` is
then one case for each operation.
-/

namespace Sched

open Lib

/-- `TASK[i]->time`, or 0 for an empty slot. -/
def State.slotTime (s : State) (i : Nat) : UInt64 := ((s.tasks (s.task i)).map Task.time).getD 0

/-- The `time` of all tasks in the table together. -/
def State.totalTime (s : State) : UInt64 := ∑ i ∈ Finset.range maxTask, s.slotTime i

section
variable {s s' : State} {t u : Task} {p : Ptr} {i : Nat}

theorem slotTime_of_some (h : s.tasks (s.task i) = some t) : s.slotTime i = t.time := by
  rw [State.slotTime, h]
  rfl

theorem slotTime_of_none (h : s.tasks (s.task i) = none) : s.slotTime i = 0 := by
  rw [State.slotTime, h]
  rfl

/-- No task structure is at the null pointer. -/
theorem TabOk.tasks_zero (h : TabOk s) : s.tasks 0 = none := by
  cases hx : s.tasks 0 with
  | none => rfl
  | some t => exact absurd rfl (h.live 0 t hx).1

theorem totalTime_congr (h : ∀ i < maxTask, s'.slotTime i = s.slotTime i) :
    s'.totalTime = s.totalTime :=
  Finset.sum_congr rfl fun i hi => h i (Finset.mem_range.1 hi)

theorem totalTime_of_tasks (htask : s'.task = s.task) (htasks : s'.tasks = s.tasks) :
    s'.totalTime = s.totalTime :=
  totalTime_congr fun i _ => by rw [State.slotTime, State.slotTime, htask, htasks]

/-- The sum when one slot changes. -/
theorem totalTime_slot {d : UInt64} (hi : i < maxTask) (hd : s'.slotTime i = s.slotTime i + d)
    (h : ∀ j < maxTask, j ≠ i → s'.slotTime j = s.slotTime j) :
    s'.totalTime = s.totalTime + d := by
  have hmem : i ∈ Finset.range maxTask := Finset.mem_range.2 hi
  have hrest : ∑ j ∈ (Finset.range maxTask).erase i, s'.slotTime j =
      ∑ j ∈ (Finset.range maxTask).erase i, s.slotTime j := by
    refine Finset.sum_congr rfl fun j hj => ?_
    obtain ⟨hne, hj⟩ := Finset.mem_erase.1 hj
    exact h j (Finset.mem_range.1 hj) hne
  unfold State.totalTime
  rw [← Finset.add_sum_erase _ _ hmem, ← Finset.add_sum_erase _ _ hmem, hrest, hd, add_right_comm]

/-! ## How the sum changes -/

/-- Tasks that keep their `time`. -/
theorem totalTime_mapTasks {g : Ptr → Task → Task}
    (h : ∀ q v, s.tasks q = some v → (g q v).time = v.time) :
    (s.mapTasks g).totalTime = s.totalTime := by
  refine totalTime_congr fun i _ => ?_
  cases hv : s.tasks (s.task i) with
  | none =>
    have hnone : (s.mapTasks g).tasks ((s.mapTasks g).task i) = none := by
      rw [mapTasks_task, mapTasks_tasks, hv, Option.map_none]
    rw [slotTime_of_none hv, slotTime_of_none hnone]
  | some v =>
    have hsome : (s.mapTasks g).tasks ((s.mapTasks g).task i) = some (g _ v) := mapTasks_of_some hv
    rw [slotTime_of_some hv, slotTime_of_some hsome]
    exact h _ v hv

/-- The running task gets `d` more. -/
theorem totalTime_mapCur (h : TabOk s) (ht : s.tasks s.current = some t) {f : Task → Task} {d : UInt64}
    (hf : (f t).time = t.time + d) : (s.mapCur f).totalTime = s.totalTime + d := by
  obtain ⟨-, hlt, hslot⟩ := h.live _ t ht
  refine totalTime_slot hlt ?_ fun j hj hne => ?_
  · have hcur : (s.mapCur f).tasks ((s.mapCur f).task t.pcbId) = some (f t) := by
      rw [mapTasks_task, hslot]
      exact mapCur_current ht
    rw [slotTime_of_some hcur, hf, slotTime_of_some (hslot ▸ ht)]
  · have hp : s.task j ≠ s.current := fun he => hne ((h.slot_eq_iff ht hj).1 he).symm
    simp only [State.slotTime, mapTasks_task, mapTasks_tasks, if_neg hp, Option.map_id']

/-- A new task that has not run. -/
theorem totalTime_addTask (h : TabOk s) (hb : Newborn s t p i u) (hu : u.time = 0) :
    (s.addTask p i u).totalTime = s.totalTime := by
  refine totalTime_congr fun j hj => ?_
  by_cases hji : j = i
  · subst hji
    have hnew : (s.addTask p j u).tasks ((s.addTask p j u).task j) = some u := by
      rw [show (s.addTask p j u).task j = p from Function.update_self ..]
      exact addTask_new
    rw [slotTime_of_some hnew, hu, slotTime_of_none (by rw [hb.free, h.tasks_zero])]
  · have htask : (s.addTask p i u).task j = s.task j := Function.update_of_ne hji ..
    cases hv : s.tasks (s.task j) with
    | some v => rw [slotTime_of_some hv, slotTime_of_some (by rw [htask]; exact addTask_of_some hb hv)]
    | none =>
      -- an empty slot stays empty
      have h0 : s.task j = 0 := by
        by_contra hne
        obtain ⟨v, hv', -⟩ := h.slot j hj hne
        rw [hv] at hv'
        cases hv'
      have hnone : (s.addTask p i u).tasks ((s.addTask p i u).task j) = none := by
        rw [htask, h0, show (s.addTask p i u).tasks 0 = s.tasks 0 from
          Function.update_of_ne (Ne.symm hb.ptr) .., h.tasks_zero]
      rw [slotTime_of_none hv, slotTime_of_none hnone]

/-- A task leaves the table. -/
theorem totalTime_dropTask (h : TabOk s) (hu : s.tasks p = some u) :
    (s.dropTask p u.pcbId).totalTime + u.time = s.totalTime := by
  obtain ⟨hp, hlt, hslot⟩ := h.live p u hu
  refine (totalTime_slot hlt ?_ fun j hj hne => ?_).symm
  · have hnone : (s.dropTask p u.pcbId).tasks ((s.dropTask p u.pcbId).task u.pcbId) = none := by
      rw [show (s.dropTask p u.pcbId).task u.pcbId = 0 from Function.update_self ..,
        show (s.dropTask p u.pcbId).tasks 0 = s.tasks 0 from
          Function.update_of_ne (Ne.symm hp) .., h.tasks_zero]
    rw [slotTime_of_some (hslot ▸ hu), slotTime_of_none hnone, zero_add]
  · have htask : (s.dropTask p u.pcbId).task j = s.task j := Function.update_of_ne hne ..
    have hjp : s.task j ≠ p := fun he => hne ((h.slot_eq_iff hu hj).1 he).symm
    rw [State.slotTime, State.slotTime, htask,
      show (s.dropTask p u.pcbId).tasks (s.task j) = s.tasks (s.task j) from
        Function.update_of_ne hjp ..]

/-- A zombie's `time` goes to the task that waits for it. -/
theorem totalTime_reaped (h : TabOk s) (ht : s.tasks s.current = some t) (hu : s.tasks p = some u)
    (hc : p ≠ s.current) (mem : Nat → BitVec 64) :
    (((s.mapCur (addTime u)).withMem mem).dropTask p u.pcbId).totalTime = s.totalTime := by
  have hT : TabOk ((s.mapCur (addTime u)).withMem mem) := by
    obtain ⟨h1, h2, h3, h4⟩ := h.map (g := fun q v => if q = s.current then addTime u v else v)
      fun q v _ => by split <;> exact ⟨rfl, rfl, rfl⟩
    exact ⟨h1, h2, h3, h4⟩
  have hu' : ((s.mapCur (addTime u)).withMem mem).tasks p = some u := by
    show (s.mapCur (addTime u)).tasks p = some u
    rw [mapTasks_of_some hu, if_neg hc]
  have hadd : ((s.mapCur (addTime u)).withMem mem).totalTime = s.totalTime + u.time :=
    totalTime_mapCur h ht rfl
  exact add_right_cancel ((totalTime_dropTask hT hu').trans hadd)

theorem fork_time {c : Int} (hs : fork p s = .ok (c, s')) (hu : s'.tasks p = some u) : u.time = 0 := by
  rw [fork] at hs
  split at hs
  · cases hs
  dsimp only at hs
  split at hs
  · cases hs
  split at hs
  · cases hs
  obtain ⟨parent, -, hs⟩ := Res.bind_eq_ok.1 hs
  cases hs
  simp only [State.set, Function.update_self, Option.some.injEq] at hu
  rw [← hu]
  rfl

theorem time_exitMap {cur q : Ptr} {told : Bool} : (exitMap cur t told q u).time = u.time := by
  unfold exitMap
  by_cases hq : q = cur <;> by_cases hf : u.pid = exitFather t <;> simp [hq, hf, adoptMap, addChld]

theorem time_alterMap (t : Task) : (alterMap t).time = t.time := by
  unfold alterMap alterTask
  split <;> try split
  all_goals rfl

theorem time_queueMap (t : Task) : (queueMap t).time = t.time := by
  unfold queueMap queuedTask
  split <;> rfl

/-- `schedule()` moves no time. -/
theorem totalTime_dispatch {Q Q₂ : Nat → List Ptr} {s₁ s₂ : State} (hp : Prepared s s₁ s₂ Q Q₂)
    (hd : dispatch s₂ = .ok s') : s'.totalTime = s₂.totalTime := by
  obtain ⟨-, he⟩ | ⟨k, q, L, n, v, -, -, -, -, -, he, -⟩ := dispatch_cases hp.queues
  · rw [he] at hd
    cases hd
    exact totalTime_of_tasks rfl rfl
  · rw [he] at hd
    cases hd
    refine (totalTime_of_tasks (s := s₂.mapTasks fun p u => if p = n.task then runningTask u else u)
      rfl rfl).trans (totalTime_mapTasks fun q v _ => ?_)
    split <;> rfl

end

/-! ## Operations and runs -/

section
variable {s s' : Sys} {t : Task} {op : Op} {e : Event}

theorem wait_totalTime (h : TableInv s.toState) (ht : s.tasks s.current = some t) {pid : Int}
    {stat : Nat} (hs : s.wait pid stat = .ok (s', e)) : s'.totalTime = s.totalTime := by
  have hget : s.get s.current = .ok t := get_eq_ok.2 ht
  rw [Sys.wait, hget, Res.ok_bind] at hs
  obtain ⟨⟨w, st⟩, hw, hs⟩ := Res.bind_eq_ok.1 hs
  cases waitTurn_spec h ht hw with
  | reaped hu hc hf hm hz =>
    cases hs
    exact totalTime_reaped h.toTabOk ht hu hc _
  | nochild =>
    cases hs
    rfl
  | block hno =>
    cases hs
    refine totalTime_mapTasks fun q v _ => ?_
    split <;> rfl

/-- A timer interrupt adds one to the sum, and nothing else changes it. -/
theorem OpStep.totalTime (hi : SysInv s) (hst : OpStep s op s') :
    s'.totalTime = s.totalTime + if op.isTick then 1 else 0 := by
  obtain ⟨t, ht, -⟩ := hi.cur
  have hget : s.get s.current = .ok t := get_eq_ok.2 ht
  have hsame : ∀ {f : Task → Task}, (∀ v, (f v).time = v.time) →
      (s.mapCur f).totalTime = s.totalTime := fun hf =>
    totalTime_mapTasks fun q v _ => by split <;> [exact hf v; rfl]
  cases op with
  | fork p =>
    obtain ⟨-, e, hst⟩ := hst
    rw [Sys.step, hget, Res.ok_bind] at hst
    obtain ⟨⟨c, st⟩, hf, hst⟩ := Res.bind_eq_ok.1 hst
    obtain ⟨i, u, hb, rfl, rfl⟩ := fork_spec ht hf
    cases hst
    exact (totalTime_addTask hi.tab.toTabOk hb (fork_time hf addTask_new)).trans (add_zero _).symm
  | exit code =>
    obtain ⟨-, e, hst⟩ := hst
    obtain ⟨h0, -⟩ := step_exit hi.tab ht hst
    rw [Sys.step, hget, Res.ok_bind] at hst
    obtain ⟨told, he, -⟩ := doExit_eq hi.tab ht h0 code
    rw [he, Res.ok_bind] at hst
    cases hst
    exact (totalTime_mapTasks fun q v _ => time_exitMap).trans (add_zero _).symm
  | waitpid pid stat =>
    obtain ⟨-, e, hst⟩ := hst
    exact (wait_totalTime hi.tab ht hst).trans (add_zero _).symm
  | resume =>
    obtain ⟨-, e, hst⟩ := hst
    rw [Sys.step] at hst
    split at hst
    · rw [hget, Res.ok_bind, waitResume_eq ht, Res.ok_bind] at hst
      dsimp only at hst
      have hclear : (s.mapCur clearChld).totalTime = s.totalTime := hsame fun _ => rfl
      split at hst
      · have htab := hi.tab.calm (calm_mapCur ht (calm_clearChld t))
        exact (wait_totalTime htab (mapCur_current ht) hst).trans (hclear.trans (add_zero _).symm)
      · cases hst
        exact hclear.trans (add_zero _).symm
    · cases hst
  | sleep =>
    obtain ⟨-, e, hst⟩ := hst
    rw [Sys.step, hget, Res.ok_bind, Sched.sleep, modify_eq_map ht, Res.ok_bind] at hst
    cases hst
    exact (hsame (f := sleepTask) fun _ => rfl).trans (add_zero _).symm
  | wakeup =>
    obtain ⟨-, e, hst⟩ := hst
    rw [Sys.step, wakeup_eq hi.tab.toTabOk, Res.ok_bind] at hst
    cases hst
    refine (totalTime_mapTasks fun q v _ => ?_).trans (add_zero _).symm
    have := wakeMap_eq v
    unfold wakeMap at this
    rw [this]
  | tick =>
    obtain ⟨-, e, hst⟩ := hst
    obtain ⟨j, b, he, -⟩ := timerInterrupt_spec ht
    rw [Sys.step, he, Res.ok_bind] at hst
    cases hst
    have hadd := totalTime_mapCur (f := tickTask) (d := 1) hi.tab.toTabOk ht rfl
    rw [Op.isTick, if_pos rfl, ← hadd]
    exact totalTime_of_tasks rfl rfl
  | schedule fresh =>
    obtain ⟨s₁, s₂, fresh', Q, Q₂, h₁, h₂, hq, hprep, h₃, -⟩ := opStep_parts hi hst
    have htask : s₂.task = s₁.task := by
      obtain ⟨-, -, -, -, rfl, -⟩ := setQueue_spec hprep.tab₁ hprep.queues₁
        (by rw [hprep.altered]; exact hi.order.alter) h₂
      rfl
    have hs₂ : s₂.totalTime = (s₁.mapTasks fun _ t => queueMap t).totalTime :=
      totalTime_of_tasks htask hprep.tasks
    have hs₁ : s₁.totalTime = s.totalTime := by
      rw [hprep.altered]
      exact totalTime_mapTasks fun q v _ => time_alterMap v
    rw [totalTime_dispatch hprep h₃, hs₂, totalTime_mapTasks fun q v _ => time_queueMap v, hs₁]
    exact (add_zero _).symm

theorem totalTime_boot (p : Ptr) : (Sys.boot p).totalTime = 0 := by
  refine Finset.sum_eq_zero fun i _ => ?_
  cases hv : (State.boot p).tasks ((State.boot p).task i) with
  | none => exact slotTime_of_none hv
  | some v =>
    refine (slotTime_of_some hv).trans ?_
    rw [(boot_tasks hv).2]
    rfl

/-- **No tick is lost or counted twice**: in every run the `time` of the tasks in the table adds up to
the number of timer interrupts. -/
theorem time_conserved {p : Ptr} (hp : p ≠ 0) {ops : List Op} (hr : Run OpStep (Sys.boot p) ops s) :
    s.totalTime = UInt64.ofNat (ticks ops) := by
  refine (hr.invariant_trace (I := fun ops s => SysInv s ∧
    s.totalTime = UInt64.ofNat (ticks ops)) ⟨sysInv_boot hp, totalTime_boot p⟩ ?_).2
  rintro ops s op s' ⟨hi, h⟩ hst
  refine ⟨hst.inv hi, ?_⟩
  rw [hst.totalTime hi, h, ticks_snoc, UInt64.ofNat_add]
  cases op.isTick <;> rfl

/-- A child runs for a tick, exits, and is waited for: the three ticks so far are those of tasks 0
and 1. -/
theorem time_conserved_reaped : ∃ s, Run OpStep (Sys.boot 100)
    [.fork 200, .tick, .schedule [1], .fork 300, .waitpid (-1) 0, .schedule [2], .tick, .exit 0,
      .schedule [3], .resume, .tick] s ∧ s.task 2 = 0 ∧ s.totalTime = 3 := by
  have hx : ((Lib.exec Sys.next (Sys.boot 100)
      [.fork 200, .tick, .schedule [1], .fork 300, .waitpid (-1) 0, .schedule [2], .tick, .exit 0,
        .schedule [3], .resume, .tick]).any fun s => decide (s.task 2 = 0)) = true := by
    decide +kernel
  obtain ⟨s, hs, hfree⟩ := (Option.any_eq_true _ _).1 hx
  have hrun : Run OpStep (Sys.boot 100) _ s := run_of_exec (fun _ _ _ => opStep_of_next) hs
  exact ⟨s, hrun, by simpa using hfree, time_conserved (by decide) hrun⟩

end

end Sched
