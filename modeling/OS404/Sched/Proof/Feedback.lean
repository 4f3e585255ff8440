import OS404.Sched.Proof.Runs

/-!
# Feedback between the queues

A task starts with order 0. A pass of `set_Queue` in which it is running moves it one queue down, and
nothing else changes its order before it exits (`opStep_order`). `set_Queue` charges its counter with
`COUNTER(order)`, nothing touches the counter while the task is queued (`Charged`), and then every tick
takes one away (`Slice`).

* `feedback`: orders and time slices in every run.
-/

namespace Sched

open Lib

/-! ## What `schedule()` does to a task -/

section
variable {s s₁ s₂ s' : State} {Q Q₂ : Nat → List Ptr}

/-- A running task has no node, so `set_Queue` queues it, one queue down. -/
theorem order_queueMap {u : Task} (h0 : u.pid ≠ 0) (hrun : u.state = .running → u.inQueue = false) :
    (queueMap (alterMap u)).order =
      if u.state = .running ∧ u.order < 4 then u.order + 1 else u.order := by
  unfold alterMap
  rw [if_neg h0]
  by_cases hr : u.state = .running
  · have halter : alterTask u = u := if_neg fun hw => by rw [hr] at hw; cases hw.1
    have hneed : NeedsQueue u := ⟨hrun hr, .inr hr⟩
    rw [halter, queueMap, if_pos ⟨h0, hneed⟩]
    show nextOrder u = _
    unfold nextOrder
    simp only [hr, and_true, true_and]
  · rw [if_neg fun hx => hr hx.1]
    have halter : (alterTask u).order = u.order ∧ (alterTask u).state ≠ .running := by
      unfold alterTask
      split
      · exact ⟨rfl, by simp⟩
      · exact ⟨rfl, hr⟩
    unfold queueMap
    split
    · show nextOrder (alterTask u) = _
      unfold nextOrder
      rw [if_neg fun hx => halter.2 hx.2, halter.1]
    · exact halter.1

/-- The tasks after `schedule()`: the one that is taken runs, the others are as `set_Queue` left
them. -/
theorem Prepared.after (h : Prepared s s₁ s₂ Q Q₂) (hd : dispatch s₂ = .ok s') {p : Ptr} {u' : Task}
    (hu' : s'.tasks p = some u') : ∃ u, s.tasks p = some u ∧
      (u' = queueMap (alterMap u) ∨ u' = runningTask (queueMap (alterMap u))) := by
  have hback : ∀ v, s₂.tasks p = some v → ∃ u, s.tasks p = some u ∧ v = queueMap (alterMap u) := by
    intro v hv
    rw [h.tasks, h.altered, mapTasks_mapTasks] at hv
    obtain ⟨u, hu, rfl⟩ := mapTasks_eq_some.1 hv
    exact ⟨u, hu, rfl⟩
  obtain ⟨-, hd'⟩ | ⟨k, q, L, n, t, -, -, -, -, -, hd', -⟩ := dispatch_cases h.queues
  · rw [hd'] at hd
    cases hd
    obtain ⟨u, hu, rfl⟩ := hback u' hu'
    exact ⟨u, hu, .inl rfl⟩
  · rw [hd'] at hd
    cases hd
    obtain ⟨v, hv, rfl⟩ := mapTasks_eq_some.1
      (show (s₂.mapTasks fun p u => if p = n.task then runningTask u else u).tasks p = some u' from hu')
    obtain ⟨u, hu, rfl⟩ := hback v hv
    refine ⟨u, hu, ?_⟩
    split
    · exact .inr rfl
    · exact .inl rfl

end

/-! ## Charged counters -/

/-- Queued tasks have a whole time slice left. -/
def Charged (s : State) : Prop :=
  ∀ p u, s.tasks p = some u → u.inQueue = true → u.counter = counterOf u.order

section
variable {s s₁ s₂ st : State} {Q Q₂ : Nat → List Ptr}

theorem Prepared.charged (h : Prepared s s₁ s₂ Q Q₂) (hq : QueueOk s Q) (hc : Charged s) :
    Charged s₂ := by
  intro p u hu hin
  rw [h.tasks, h.altered, mapTasks_mapTasks] at hu
  obtain ⟨t, ht, rfl⟩ := mapTasks_eq_some.1 hu
  unfold queueMap at hin ⊢
  split
  · rfl
  · rename_i hno
    rw [if_neg hno] at hin
    -- a queued task is ready, so `alter_state` leaves it
    have halter : alterMap t = t := by
      by_cases ht0 : t.inQueue = true
      · have hready := (hq.ready ht ht0).1
        unfold alterMap alterTask
        rw [hready]
        simp
      · refine absurd hin ?_
        unfold alterMap alterTask
        split <;> try split
        all_goals exact ht0
    rw [halter] at hin ⊢
    exact hc p t ht hin

/-- The task that is taken has its time slice, and the queued ones keep theirs. -/
theorem Prepared.taken (h : Prepared s s₁ s₂ Q Q₂) (hc : Charged s₂) (hd : dispatch s₂ = .ok st) :
    Charged st ∧ ∀ u, st.tasks st.current = some u → u.pid ≠ 0 →
      u.state = .running ∧ u.counter = counterOf u.order := by
  obtain ⟨-, hd'⟩ | ⟨k, q, L, n, t, hk, -, hQ, hn, ht, hd', -⟩ := dispatch_cases h.queues
  · rw [hd'] at hd
    cases hd
    exact ⟨hc, fun u hu h0 => absurd ((h.tab.zero_iff hu).1 rfl) h0⟩
  · rw [hd'] at hd
    cases hd
    obtain ⟨n', t', hn', ht', -, -, -, hin, -⟩ := h.queues.node k hk q (by simp [hQ])
    rw [hn] at hn'
    cases hn'
    rw [ht] at ht'
    cases ht'
    have htasks : ∀ p, (s₂.popped k q n).tasks p =
        (s₂.tasks p).map fun u => if p = n.task then runningTask u else u := fun _ => rfl
    refine ⟨fun p u hu hin' => ?_, fun u hu _ => ?_⟩
    · rw [htasks] at hu
      obtain ⟨v, hv, rfl⟩ := Option.map_eq_some_iff.1 hu
      split at hin'
      · cases hin'
      · rename_i hp
        rw [if_neg hp]
        exact hc p v hv hin'
    · rw [htasks, show (s₂.popped k q n).current = n.task from rfl, ht, Option.map_some,
        if_pos rfl] at hu
      cases hu
      exact ⟨rfl, hc _ t ht hin⟩

end

section
variable {s s' : Sys} {op : Op}

theorem opStep_charged (hi : SysInv s) (hc : Charged s.toState) (hst : OpStep s op s') :
    Charged s'.toState := by
  obtain ⟨t, ht, -⟩ := hi.cur
  have hi' := hst.inv hi
  cases hop : op.isSchedule with
  | true =>
    obtain ⟨fresh, rfl⟩ := Op.eq_schedule hop
    obtain ⟨s₁, s₂, fresh', Q, Q₂, -, -, hq, hprep, hd, -⟩ := opStep_parts hi hst
    exact (hprep.taken (hprep.charged hq hc) hd).1
  | false =>
    have hran := opStep_ran hi ht (hst.pend.trans hop) hst
    intro p u' hu' hin
    cases hu : s.tasks p with
    | none =>
      have hb := (hran.born p u' hu hu').2.2
      cases hin.symm.trans hb
    | some u =>
      by_cases hp : p = s.current
      · -- the task that runs is not queued
        rw [hp, ← hran.current] at hu'
        cases hin.symm.trans (hi'.get_cur hu').1
      · have hunt := hran.other p u u' hp hu hu'
        rw [hunt.counter, hunt.order]
        exact hc p u hu (hunt.inQueue.symm.trans hin)

/-- A task that has not exited keeps its order, except that a pass of `set_Queue` in which it runs
moves it one down. -/
theorem opStep_order (hi : SysInv s) (hst : OpStep s op s') {p : Ptr} {u u' : Task}
    (hu : s.tasks p = some u) (hu' : s'.tasks p = some u') (h0 : u.pid ≠ 0)
    (hz : u'.state ≠ .zombine) : u'.pid = u.pid ∧ u'.order =
      if op.isSchedule = true ∧ u.state = .running ∧ u.order < 4 then u.order + 1 else u.order := by
  obtain ⟨t, ht, -⟩ := hi.cur
  cases hop : op.isSchedule with
  | true =>
    obtain ⟨fresh, rfl⟩ := Op.eq_schedule hop
    obtain ⟨s₁, s₂, fresh', Q, Q₂, -, -, hq, hprep, hd, -⟩ := opStep_parts hi hst
    have hrun : u.state = .running → u.inQueue = false := by
      intro hr
      by_contra hin
      rw [(hq.ready hu (by simpa using hin)).1] at hr
      cases hr
    obtain ⟨v, hv, hcases⟩ := hprep.after hd hu'
    rw [hu] at hv
    cases hv
    have hpid : (queueMap (alterMap u)).pid = u.pid :=
      ((scheduled_alterMap u).trans (scheduled_queueMap _)).pid
    have horder := order_queueMap h0 hrun
    simp only [true_and]
    rcases hcases with rfl | rfl
    · exact ⟨hpid, horder⟩
    · exact ⟨hpid, horder⟩
  | false =>
    have hran := opStep_ran hi ht (hst.pend.trans hop) hst
    rw [if_neg fun hx => Bool.false_ne_true hx.1]
    by_cases hp : p = s.current
    · subst hp
      obtain ⟨t', ht', hfate⟩ := hran.self
      rw [ht] at hu
      cases hu
      rw [ht'] at hu'
      cases hu'
      generalize s'.pend = b at hfate
      cases hfate with
      | goesOn _ hunt => exact ⟨hunt.pid, hunt.order⟩
      | ticked _ => exact ⟨rfl, rfl⟩
      | leaves _ hpid _ horder => exact ⟨hpid, horder hz⟩
    · have hunt := hran.other p u u' hp hu hu'
      exact ⟨hunt.pid, hunt.order⟩

/-! ## Time slices -/

/-- The operation is a timer tick. -/
def Op.isTick : Op → Bool
  | .tick => true
  | _ => false

/-- The timer ticks among operations. -/
def ticks (ops : List Op) : Nat := ops.countP Op.isTick

theorem ticks_snoc (ops : List Op) (op : Op) : ticks (ops ++ [op]) =
    ticks ops + if op.isTick = true then 1 else 0 := by
  unfold ticks
  rw [List.countP_append, List.countP_singleton]

/-- The task that runs had a slice of `c` ticks, of which `n` are used; it goes on until they are all
used, or until it blocks or exits. -/
def Slice (c : Int) (n : Nat) (s : Sys) : Prop :=
  ∃ u, s.tasks s.current = some u ∧ u.pid ≠ 0 ∧
    ((u.state = .running ∧ u.counter = c - n ∧
        (s.pend = false ∧ 0 < u.counter ∨ s.pend = true ∧ u.counter = 0)) ∨
      (u.state ≠ .running ∧ s.pend = true))

/-- One operation of the task. -/
theorem Slice.step {c : Int} {n : Nat} (hi : SysInv s) (h : Slice c n s) (hst : OpStep s op s')
    (hop : op.isSchedule = false) :
    s'.current = s.current ∧ Slice c (n + if op.isTick = true then 1 else 0) s' := by
  have hp : s.pend = false := hst.pend.trans hop
  obtain ⟨u, hu, h0, hcases⟩ := h
  obtain ⟨hr, hcount, hpos⟩ : u.state = .running ∧ u.counter = c - n ∧ 0 < u.counter := by
    rcases hcases with ⟨hr, hcount, ⟨-, hpos⟩ | ⟨hpend, -⟩⟩ | ⟨-, hpend⟩
    · exact ⟨hr, hcount, hpos⟩
    · cases hp.symm.trans hpend
    · cases hp.symm.trans hpend
  have hran := opStep_ran hi hu hp hst
  obtain ⟨u', hu', hfate⟩ := hran.self
  have hu' : s'.tasks s'.current = some u' := by rw [hran.current]; exact hu'
  refine ⟨hran.current, u', hu', ?_⟩
  generalize s'.pend = b at hfate
  cases hfate with
  | goesOn hne hunt =>
    have hno : op.isTick ≠ true := by
      cases op with
      | tick => exact absurd rfl hne
      | _ => exact nofun
    rw [if_neg hno, hunt.pid, hunt.state, hunt.counter, Nat.add_zero]
    exact ⟨h0, .inl ⟨hr, hcount, .inl ⟨rfl, hpos⟩⟩⟩
  | ticked hb =>
    have hcount' : (tickTask u).counter = u.counter - 1 := if_pos h0
    have hb := hb h0 hr
    refine ⟨h0, .inl ⟨hr, ?_, ?_⟩⟩
    · rw [hcount', hcount, if_pos (show Op.tick.isTick = true from rfl)]
      omega
    · rw [hcount']
      by_cases hlast : u.counter ≤ 1
      · exact .inr ⟨hb.2 hlast, by omega⟩
      · exact .inl ⟨by simpa using fun hx => hlast (hb.1 hx), by omega⟩
  | leaves hne hpid hstate _ =>
    rw [hpid]
    exact ⟨h0, .inr ⟨hstate, rfl⟩⟩

/-- A run of operations without `schedule()`. -/
theorem Slice.run {c : Int} {ops : List Op} (hi : SysInv s) (h : Slice c 0 s)
    (hr : Run OpStep s ops s') (hops : ∀ op ∈ ops, op.isSchedule = false) :
    s'.current = s.current ∧ Slice c (ticks ops) s' := by
  have hall : (∀ op ∈ ops, op.isSchedule = false) → SysInv s' ∧ s'.current = s.current ∧
      Slice c (ticks ops) s' := by
    refine hr.invariant_trace (I := fun ops s' => (∀ op ∈ ops, op.isSchedule = false) →
      SysInv s' ∧ s'.current = s.current ∧ Slice c (ticks ops) s') (fun _ => ⟨hi, rfl, h⟩) ?_
    intro ops s₁ op s₂ ih hst hops
    obtain ⟨hi₁, hcur, hslice⟩ := ih fun o ho => hops o (List.mem_append_left _ ho)
    obtain ⟨hcur', hslice'⟩ := hslice.step hi₁ hst (hops op (by simp))
    rw [ticks_snoc]
    exact ⟨hst.inv hi₁, hcur'.trans hcur, hslice'⟩
  exact (hall hops).2

end

/-- **Feedback queues.** In every run: a task starts with order 0; until it exits, its order is at most
4 and is changed only by a pass of `set_Queue` in which it runs with an order below 4, which adds 1.
Whenever it is taken to run, its counter is `2 + 6 * order`; as long as it then does not block or exit,
the timer calls `schedule()` exactly at the tick with this number. -/
theorem feedback {p : Ptr} (hp : p ≠ 0) {ops : List Op} {s : Sys}
    (hr : Run OpStep (Sys.boot p) ops s) :
    (∀ q s', OpStep s (.fork q) s' → ∃ u, s'.tasks q = some u ∧ u.pid ≠ 0 ∧ u.order = 0) ∧
    (∀ q u, s.tasks q = some u → u.pid ≠ 0 → u.state ≠ .zombine → u.order ≤ 4) ∧
    (∀ op s' q u u', OpStep s op s' → s.tasks q = some u → s'.tasks q = some u' → u.pid ≠ 0 →
      u'.state ≠ .zombine → u'.pid = u.pid ∧ u'.order =
        if op.isSchedule = true ∧ u.state = .running ∧ u.order < 4 then u.order + 1 else u.order) ∧
    ∀ fresh s', OpStep s (.schedule fresh) s' → ∃ u, s'.tasks s'.current = some u ∧
      (u.pid ≠ 0 → u.state = .running ∧ u.counter = 2 + 6 * u.order ∧
        ∀ ops' s'' u'', Run OpStep s' ops' s'' → (∀ op ∈ ops', op.isSchedule = false) →
          s''.tasks s'.current = some u'' → u''.state = .running →
          ticks ops' ≤ 2 + 6 * u.order ∧ (s''.pend = true ↔ ticks ops' = 2 + 6 * u.order)) := by
  have hi := opRun_inv hp hr
  have hc : Charged s.toState := by
    refine (hr.invariant (I := fun s => SysInv s ∧ Charged s.toState) ⟨sysInv_boot hp, ?_⟩ ?_).2
    · intro q u hu hin
      rw [(boot_tasks hu).2] at hin
      cases hin
    · rintro s op s' ⟨hi, hc⟩ hst
      exact ⟨hst.inv hi, opStep_charged hi hc hst⟩
  obtain ⟨t, ht, -⟩ := hi.cur
  refine ⟨fun q s' hst => ?_, fun q u hu _ hz => hi.order q u hu hz, fun op s' q u u' hst hu hu' h0 hz =>
    opStep_order hi hst hu hu' h0 hz, fun fresh s' hst => ?_⟩
  · obtain ⟨-, e, hst⟩ := hst
    obtain ⟨i, u, hb, -, rfl⟩ := step_fork ht hst
    have hbound := hi.tab.bound _ t ht
    have hpid := hb.pid
    exact ⟨u, addTask_new, by omega, hb.order⟩
  · obtain ⟨s₁, s₂, fresh', Q, Q₂, -, -, hq, hprep, hd, hpend⟩ := opStep_parts hi hst
    have hi' := hst.inv hi
    obtain ⟨u, hu, -⟩ := hi'.cur
    refine ⟨u, hu, fun h0 => ?_⟩
    obtain ⟨hrun, hcount⟩ := (hprep.taken (hprep.charged hq hc) hd).2 u hu h0
    refine ⟨hrun, hcount, fun ops' s'' u'' hr' hops hu'' hrun'' => ?_⟩
    have hslice : Slice (counterOf u.order) 0 s' :=
      ⟨u, hu, h0, .inl ⟨hrun, by simpa using hcount, .inl ⟨hpend, by unfold counterOf at hcount; omega⟩⟩⟩
    obtain ⟨hcur, v, hv, -, hcases⟩ := hslice.run hi' hr' hops
    rw [hcur, hu''] at hv
    cases hv
    unfold counterOf at hcases
    rcases hcases with ⟨-, hcv, ⟨hpend'', hpos⟩ | ⟨hpend'', hzero⟩⟩ | ⟨hno, -⟩
    · refine ⟨by omega, fun hx => ?_, fun hx => ?_⟩
      · cases hpend''.symm.trans hx
      · omega
    · exact ⟨by omega, fun _ => by omega, fun _ => hpend''⟩
    · exact absurd hrun'' hno

/-- Task 1 is taken after its fork, with a slice of two ticks. -/
theorem feedback_first_task : ∃ s s' s'' u, Run OpStep (Sys.boot 100) [.fork 200, .tick] s ∧
    OpStep s (.schedule [1]) s' ∧ s'.tasks s'.current = some u ∧ u.pid = 1 ∧
    u.counter = 2 + 6 * u.order ∧ Run OpStep s' [.tick, .tick] s'' ∧
    (s''.pend = true ↔ ticks [.tick, .tick] = 2 + 6 * u.order) := by
  have hx : ((Lib.exec Sys.next (Sys.boot 100) [.fork 200, .tick]).any fun s =>
      (s.next (.schedule [1])).any fun s' => (Lib.exec Sys.next s' [.tick, .tick]).any fun s'' =>
        (s'.tasks s'.current).any fun u => u.pid = 1 ∧
          (s''.tasks s'.current).any fun u => u.state = .running) = true := by decide +kernel
  obtain ⟨s, hs, hx⟩ := (Option.any_eq_true _ _).1 hx
  obtain ⟨s', hs', hx⟩ := (Option.any_eq_true _ _).1 hx
  obtain ⟨s'', hs'', hx⟩ := (Option.any_eq_true _ _).1 hx
  obtain ⟨u, hu, hx⟩ := (Option.any_eq_true _ _).1 hx
  obtain ⟨hpid, hx⟩ := of_decide_eq_true hx
  obtain ⟨u'', hu'', hrun⟩ := (Option.any_eq_true _ _).1 hx
  have hr := run_of_exec (fun _ _ _ => opStep_of_next) hs
  have hr' := run_of_exec (fun _ _ _ => opStep_of_next) hs''
  obtain ⟨u', hu', hslice⟩ := (feedback (by decide) hr).2.2.2 [1] s' (opStep_of_next hs')
  rw [hu] at hu'
  cases hu'
  obtain ⟨-, hcount, hend⟩ := hslice (by rw [hpid]; decide)
  exact ⟨s, s', s'', u, hr, opStep_of_next hs', hu, hpid, hcount, hr',
    (hend _ s'' u'' hr' (by decide) hu'' (of_decide_eq_true hrun)).2⟩

end Sched
