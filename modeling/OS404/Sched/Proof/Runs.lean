import OS404.Sched.Proof.Step

/-!
# Runs of operations

`Ran s t op s'` says what an operation other than `schedule()` does to the queues and to each task: it
leaves the queues and the other tasks as far as the scheduler reads them, and the running task `t`
goes on, has used up a tick, or leaves the processor. `Prepared` says what `schedule()` has made of the
tasks and the queues when it takes the next task.

* `opStep_ran`: every operation but `schedule()` is of the first form;
* `prepared`, `schedule_returns`: `schedule()` is of the second, and returns;
* `opRun_inv`: `SysInv` holds in every run.
-/

namespace Sched

open Lib

/-- The fields that the scheduler reads are as before. -/
structure Untouched (t t' : Task) : Prop where
  pid : t'.pid = t.pid
  state : t'.state = t.state
  counter : t'.counter = t.counter
  inQueue : t'.inQueue = t.inQueue
  order : t'.order = t.order

theorem Untouched.refl (t : Task) : Untouched t t := ⟨rfl, rfl, rfl, rfl, rfl⟩

theorem Untouched.trans {t t₁ t' : Task} (h : Untouched t t₁) (h' : Untouched t₁ t') :
    Untouched t t' :=
  ⟨h'.pid.trans h.pid, h'.state.trans h.state, h'.counter.trans h.counter,
    h'.inQueue.trans h.inQueue, h'.order.trans h.order⟩

/-- What an operation does to the task that runs, with `pend` after it. -/
inductive Fate (t : Task) : Op → Task → Bool → Prop
  | goesOn {op : Op} {t' : Task} (hop : op ≠ .tick) (h : Untouched t t') : Fate t op t' false
  | ticked {b : Bool} (h : t.pid ≠ 0 → t.state = .running → (b = true ↔ t.counter ≤ 1)) :
      Fate t .tick (tickTask t) b
  | leaves {op : Op} {t' : Task} (hop : op ≠ .tick) (hpid : t'.pid = t.pid)
      (hstate : t'.state ≠ .running) (horder : t'.state ≠ .zombine → t'.order = t.order) :
      Fate t op t' true

/-- What an operation other than `schedule()` does while `t` runs. -/
structure Ran (s : Sys) (t : Task) (op : Op) (s' : Sys) : Prop where
  current : s'.current = s.current
  nodes : s'.nodes = s.nodes
  head : s'.head = s.head
  other : ∀ p u u', p ≠ s.current → s.tasks p = some u → s'.tasks p = some u' → Untouched u u'
  born : ∀ p u', s.tasks p = none → s'.tasks p = some u' →
    op = .fork p ∧ u'.order = 0 ∧ u'.inQueue = false
  self : ∃ t', s'.tasks s.current = some t' ∧ Fate t op t' s'.pend

section
variable {s s' : Sys} {t : Task} {op : Op} {e : Event}

/-- Only tasks in memory change. -/
theorem ran_mapTasks {g : Ptr → Task → Task} {st : State} {b : Bool} {kont : Ptr → Kont}
    (ht : s.tasks s.current = some t) (hst : st = { s.mapTasks g with jiffies := st.jiffies })
    (hg : ∀ p u, s.tasks p = some u → p ≠ s.current → Untouched u (g p u))
    (hself : Fate t op (g s.current t) b) : Ran s t op { toState := st, pend := b, kont := kont } := by
  have htasks : st.tasks = (s.mapTasks g).tasks := by rw [hst]
  refine ⟨?_, ?_, ?_, fun p u u' hp hu hu' => ?_, fun p u' hnone hu' => ?_, g s.current t, ?_, hself⟩
  · show st.current = _
    rw [hst]
    rfl
  · show st.nodes = _
    rw [hst]
    rfl
  · show st.head = _
    rw [hst]
    rfl
  · have hu' : st.tasks p = some u' := hu'
    rw [htasks, mapTasks_of_some hu] at hu'
    cases hu'
    exact hg p u hu hp
  · have hu' : st.tasks p = some u' := hu'
    rw [htasks, mapTasks_tasks, hnone] at hu'
    cases hu'
  · show st.tasks s.current = _
    rw [htasks, mapTasks_of_some ht]

theorem wait_ran (h : TableInv s.toState) (ht : s.tasks s.current = some t) (hp : s.pend = false)
    (hop : op ≠ .tick) {pid : Int} {stat : Nat} (hs : s.wait pid stat = .ok (s', e)) :
    Ran s t op s' := by
  have hget : s.get s.current = .ok t := get_eq_ok.2 ht
  rw [Sys.wait, hget, Res.ok_bind] at hs
  obtain ⟨⟨w, st⟩, hw, hs⟩ := Res.bind_eq_ok.1 hs
  cases waitTurn_spec h ht hw with
  | reaped hu hc hf hm hz =>
    rename_i p u
    cases hs
    refine ⟨rfl, rfl, rfl, fun q v v' hq hv hv' => ?_, fun q v' hnone hv' => ?_, addTime u t, ?_, ?_⟩
    · obtain ⟨w, hw, -, rfl⟩ := reaped_eq_some.1 hv'
      rw [if_neg hq]
      rw [hv] at hw
      cases hw
      exact .refl v
    · obtain ⟨w, hw, -⟩ := reaped_eq_some.1 hv'
      rw [hnone] at hw
      cases hw
    · exact reaped_eq_some.2 ⟨t, ht, Ne.symm hc, if_pos rfl⟩
    · show Fate t op (addTime u t) s.pend
      rw [hp]
      exact .goesOn hop ⟨rfl, rfl, rfl, rfl, rfl⟩
  | nochild =>
    cases hs
    refine ran_mapTasks (g := fun _ u => u) ht ?_ (fun p u _ _ => .refl u) ?_
    · rw [mapTasks_id fun p u _ => rfl]
    · rw [hp]
      exact .goesOn hop (.refl t)
  | block hno =>
    cases hs
    refine ran_mapTasks ht rfl (fun p u _ hne => ?_) ?_
    · rw [if_neg hne]
      exact .refl u
    · rw [if_pos rfl]
      exact .leaves hop rfl (by simp [waitTask]) fun _ => rfl

/-- A change of the running task that the scheduler does not see comes first. -/
theorem Ran.after {f : Task → Task} (hf : Untouched t (f t))
    (h : Ran { s with toState := s.mapCur f } (f t) op s') (hop : op ≠ .tick) : Ran s t op s' where
  current := h.current
  nodes := h.nodes
  head := h.head
  other p u u' hp hu hu' := by
    refine h.other p u u' hp ?_ hu'
    show (s.mapCur f).tasks p = some u
    rw [mapTasks_of_some hu, if_neg hp]
  born p u' hnone hu' := by
    refine h.born p u' ?_ hu'
    show (s.mapCur f).tasks p = none
    rw [mapTasks_tasks, hnone, Option.map_none]
  self := by
    obtain ⟨t', ht', hfate⟩ := h.self
    refine ⟨t', ht', ?_⟩
    generalize s'.pend = b at hfate
    cases hfate with
    | goesOn _ hu => exact .goesOn hop (hf.trans hu)
    | ticked _ => exact absurd rfl hop
    | leaves _ hpid hstate horder =>
      exact .leaves hop (hpid.trans hf.pid) hstate fun hz => (horder hz).trans hf.order

/-- What the operations do. -/
theorem opStep_ran (h : SysInv s) (ht : s.tasks s.current = some t) (hp : s.pend = false)
    (hst : OpStep s op s') : Ran s t op s' := by
  obtain ⟨hen, e, hst⟩ := hst
  have hget : s.get s.current = .ok t := get_eq_ok.2 ht
  cases op with
  | fork p =>
    obtain ⟨i, u, hb, -, rfl⟩ := step_fork ht hst
    refine ⟨rfl, rfl, rfl, fun q v v' hq hv hv' => ?_, fun q v' hnone hv' => ?_, t,
      addTask_of_some hb ht, ?_⟩
    · have hv' : (s.addTask p i u).tasks q = some v' := hv'
      rw [addTask_of_some hb hv] at hv'
      cases hv'
      exact .refl v
    · revert hnone
      refine addTask_cases (P := fun q v' => s.tasks q = none → Op.fork p = .fork q ∧ v'.order = 0 ∧
        v'.inQueue = false) (fun q v hv hnone => ?_) (fun _ => ⟨rfl, hb.order, hb.inQueue⟩) q v' hv'
      rw [hnone] at hv
      cases hv
    · show Fate t (.fork p) t s.pend
      rw [hp]
      exact .goesOn (by simp) (.refl t)
  | exit code =>
    obtain ⟨-, g, hg, -, rfl⟩ := step_exit h.tab ht hst
    refine ran_mapTasks ht rfl (fun q u hu hne => ?_) ?_
    · rw [(hg.other q u hu hne).eq]
      exact ⟨rfl, rfl, rfl, rfl, rfl⟩
    · refine .leaves (by simp) hg.self.1.pid ?_ fun hz => absurd hg.self.2.2.1 hz
      rw [hg.self.2.2.1]
      decide
  | waitpid pid stat => exact wait_ran h.tab ht hp (by simp) hst
  | resume =>
    rw [Sys.step] at hst
    split at hst
    · rw [hget, Res.ok_bind, waitResume_eq ht, Res.ok_bind] at hst
      dsimp only at hst
      have hclear : Untouched t (clearChld t) := ⟨rfl, rfl, rfl, rfl, rfl⟩
      split at hst
      · refine .after hclear ?_ (by simp)
        exact wait_ran (h.tab.calm (calm_mapCur ht (calm_clearChld t))) (mapCur_current ht) hp (by simp)
          hst
      · cases hst
        refine ran_mapTasks ht rfl (fun q u _ hne => ?_) ?_
        · rw [if_neg hne]
          exact .refl u
        · rw [if_pos rfl, hp]
          exact .goesOn (by simp) hclear
    · cases hst
  | sleep =>
    rw [Sys.step, hget, Res.ok_bind, Sched.sleep, modify_eq_map ht, Res.ok_bind] at hst
    cases hst
    refine ran_mapTasks ht rfl (fun q u _ hne => ?_) ?_
    · rw [if_neg hne]
      exact .refl u
    · rw [if_pos rfl]
      exact .leaves (by simp) rfl (by simp) fun _ => rfl
  | wakeup =>
    have hwake : ∀ u, Untouched u (wakeMap u) := fun u => by
      rw [wakeMap_eq u]
      exact ⟨rfl, rfl, rfl, rfl, rfl⟩
    rw [Sys.step, wakeup_eq h.tab.toTabOk, Res.ok_bind] at hst
    cases hst
    refine ran_mapTasks ht rfl (fun q u _ _ => hwake u) ?_
    rw [hp]
    exact .goesOn (by simp) (hwake t)
  | tick =>
    obtain ⟨j, b, he, hb⟩ := timerInterrupt_spec ht
    rw [Sys.step, he, Res.ok_bind] at hst
    cases hst
    refine ran_mapTasks (g := fun q u => if q = s.current then tickTask u else u) ht rfl
      (fun q u _ hne => ?_) ?_
    · rw [if_neg hne]
      exact .refl u
    · rw [if_pos rfl]
      exact .ticked hb
  | schedule fresh =>
    rw [show s.pend = true from hen] at hp
    cases hp

/-! ## `schedule()` -/

section
variable {s s₁ s₂ : State} {Q Q₂ : Nat → List Ptr} {fresh fresh' : List Ptr}

/-- What `alter_state` has made of `s`, and `set_Queue` of that, before the next task is taken. -/
structure Prepared (s s₁ s₂ : State) (Q Q₂ : Nat → List Ptr) : Prop where
  altered : s₁ = s.mapTasks fun _ t => alterMap t
  tab₁ : TabOk s₁
  queues₁ : QueueOk s₁ Q
  tasks : s₂.tasks = (s₁.mapTasks fun _ t => queueMap t).tasks
  tab : TabOk s₂
  queues : QueueOk s₂ Q₂
  qpids : ∀ k < 5, s₂.qpids (Q₂ k) = s.qpids (Q k) ++ slotsDown.filterMap (arrival s₁ k)

theorem prepared (hT : TabOk s) (h : QueueOk s Q) (ho : OrderOk s) (h₁ : alterState s = .ok s₁)
    (h₂ : setQueue fresh s₁ = .ok (s₂, fresh')) : ∃ Q₂, Prepared s s₁ s₂ Q Q₂ := by
  rw [alterState_eq hT] at h₁
  cases h₁
  have hT₁ := hT.map fun p t (_ : s.tasks p = some t) => (scheduled_alterMap t).toSameId
  obtain ⟨Q₂, nodes, head, tail, rfl, hq, hpids⟩ := setQueue_spec hT₁ h.alter ho.alter h₂
  refine ⟨Q₂, rfl, hT₁, h.alter, rfl, ?_, hq, hpids⟩
  exact (hT₁.map fun p t _ => (scheduled_queueMap t).toSameId).withQueues ..

theorem schedule_parts {s' : State} (hs : schedule fresh s = .ok s') : ∃ s₁ s₂ fresh',
    alterState s = .ok s₁ ∧ setQueue fresh s₁ = .ok (s₂, fresh') ∧ dispatch s₂ = .ok s' := by
  obtain ⟨s₁, h₁, hs⟩ := Res.bind_eq_ok.1 hs
  obtain ⟨⟨s₂, fresh'⟩, h₂, h₃⟩ := Res.bind_eq_ok.1 hs
  exact ⟨s₁, s₂, fresh', h₁, h₂, h₃⟩

/-- `schedule()` returns when `malloc` finds room for a node for each slot. -/
theorem schedule_returns (hT : TabOk s) (h : QueueOk s Q) (ho : OrderOk s)
    (hlen : 63 ≤ fresh.length) (hnd : fresh.Nodup) (hfresh : ∀ q ∈ fresh, q ≠ 0 ∧ s.nodes q = none) :
    ∃ s', schedule fresh s = .ok s' := by
  have h₁ := alterState_eq hT
  have hT₁ := hT.map fun p t (_ : s.tasks p = some t) => (scheduled_alterMap t).toSameId
  obtain ⟨⟨s₂, fresh'⟩, h₂⟩ : ∃ x, setQueue fresh (s.mapTasks fun _ t => alterMap t) = .ok x :=
    setQueueLoop_returns hT₁ h.alter ho.alter (fun i hi => mem_slotsDown.1 hi) hlen hnd hfresh
  obtain ⟨Q₂, hprep⟩ := prepared hT h ho h₁ h₂
  have h₃ : ∃ s', dispatch s₂ = .ok s' := by
    obtain ⟨-, hd⟩ | ⟨k, q, L, n, t, -, -, -, -, -, hd, -⟩ := dispatch_cases hprep.queues
    · exact ⟨_, hd⟩
    · exact ⟨_, hd⟩
  obtain ⟨s', h₃⟩ := h₃
  refine ⟨s', ?_⟩
  rw [schedule, h₁, Res.ok_bind, h₂]
  exact h₃

end

theorem opStep_parts {fresh : List Ptr} (hi : SysInv s) (hst : OpStep s (.schedule fresh) s') :
    ∃ s₁ s₂ fresh' Q Q₂, alterState s.toState = .ok s₁ ∧ setQueue fresh s₁ = .ok (s₂, fresh') ∧
      QueueOk s.toState Q ∧ Prepared s.toState s₁ s₂ Q Q₂ ∧ dispatch s₂ = .ok s'.toState ∧
      s'.pend = false := by
  obtain ⟨-, e, hst⟩ := hst
  rw [Sys.step] at hst
  obtain ⟨st, hsch, hst⟩ := Res.bind_eq_ok.1 hst
  cases hst
  obtain ⟨s₁, s₂, fresh', h₁, h₂, h₃⟩ := schedule_parts hsch
  obtain ⟨Q, hq⟩ := hi.queues
  obtain ⟨Q₂, hprep⟩ := prepared hi.tab.toTabOk hq hi.order h₁ h₂
  exact ⟨s₁, s₂, fresh', Q, Q₂, h₁, h₂, hq, hprep, h₃, rfl⟩

/-- The operation is a call of `schedule()`. -/
def Op.isSchedule : Op → Bool
  | .schedule _ => true
  | _ => false

theorem Op.eq_schedule (h : op.isSchedule = true) : ∃ fresh, op = .schedule fresh := by
  cases op with
  | schedule fresh => exact ⟨fresh, rfl⟩
  | _ => cases h

theorem OpStep.pend (hst : OpStep s op s') : s.pend = op.isSchedule := by
  cases op with
  | schedule fresh => exact hst.1
  | _ => exact hst.1.1

/-! ## Runs -/

theorem OpStep.inv (hst : OpStep s op s') (hi : SysInv s) : SysInv s' := by
  obtain ⟨hen, e, hst⟩ := hst
  exact SysStep.inv hi ⟨op, hen, hst⟩

theorem opRun_inv {p : Ptr} (hp : p ≠ 0) {ops : List Op} (hr : Run OpStep (Sys.boot p) ops s) :
    SysInv s :=
  hr.invariant (sysInv_boot hp) fun _ _ _ hi hst => hst.inv hi

/-- The state after an operation, if there is one. -/
def Sys.next (s : Sys) (op : Op) : Option Sys :=
  if s.Enabled op then (s.step op).toOption.map Prod.fst else none

theorem opStep_of_next (h : s.next op = some s') : OpStep s op s' := by
  unfold Sys.next at h
  split at h
  · rename_i hen
    obtain ⟨⟨s₁, e⟩, hst, rfl⟩ := Option.map_eq_some_iff.1 h
    refine ⟨hen, e, ?_⟩
    cases hx : s.step op with
    | error x =>
      rw [hx] at hst
      cases hst
    | ok x =>
      rw [hx] at hst
      cases hst
      rfl
  · cases h

end

end Sched
