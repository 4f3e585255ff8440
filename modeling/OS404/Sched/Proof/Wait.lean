import OS404.Sched.Proof.Fifo
import OS404.Sched.Proof.Feedback
import Mathlib.Data.List.Perm.Subperm

/-!
# How long a queued task waits

A queued task is taken once the tasks ahead of it, those in the queues before its own and those
before it in its own queue, have been taken. `schedule()` takes one of them each time
(`Waits.schedule`), and the others never get ahead of it unless they join a queue before its own. The
timer calls `schedule()` at the latest when the slice of the running task is used up, and no slice has
more than 26 ticks (`Budget`).

* `bounded_wait`: as long as no task joins a queue before its own, a queued task with `n` others ahead
  of it runs after at most `n + 1` calls of `schedule()` and `26 * (n + 1)` ticks, and `n` is at most 62.
-/

namespace Sched

open Lib

/-- The pids in the queues before queue `k`. -/
def State.before (s : State) (Q : Nat → List Ptr) (k : Nat) : List Int :=
  (List.range k).flatMap fun j => s.qpids (Q j)

/-- The task `x` is in queue `k`, and `n` queued tasks are taken before it. -/
def Ahead (s : State) (k : Nat) (x : Int) (n : Nat) : Prop :=
  ∃ Q, (∀ j < 5, Linked (· = 0) s.nnext (s.head j) (Q j)) ∧ ∃ pre suf,
    s.qpids (Q k) = pre ++ x :: suf ∧ n = (s.before Q k).length + pre.length

/-- In a call of `schedule()` no task joins a queue before queue `k`. -/
def KeepsFront (k : Nat) (s : Sys) : Op → Prop
  | .schedule _ => ∀ s₁, alterState s.toState = .ok s₁ → ∀ j < k, ∀ i ∈ slotsDown, arrival s₁ j i = none
  | _ => True

/-- A step in which no task joins a queue before queue `k`. -/
def FrontStep (k : Nat) (s : Sys) (op : Op) (s' : Sys) : Prop := OpStep s op s' ∧ KeepsFront k s op

/-- The calls of `schedule()` among operations. -/
def scheds (ops : List Op) : Nat := ops.countP Op.isSchedule

/-! ## The queues ahead -/

section
variable {s s₁ s₂ s' : State} {Q Q₂ : Nat → List Ptr} {p : Ptr} {t : Task} {k n : Nat} {x : Int}

/-- The task `x` at `p` is in queue `k`, and at most `n` are taken before it. -/
structure Waits (s : State) (Q : Nat → List Ptr) (p : Ptr) (k : Nat) (x : Int) (n : Nat) : Prop where
  task : ∃ t, s.tasks p = some t ∧ t.inQueue = true ∧ t.order = k ∧ t.pid = x
  ahead : ∃ pre suf, s.qpids (Q k) = pre ++ x :: suf ∧ (s.before Q k).length + pre.length ≤ n

theorem before_congr (h : ∀ j < k, s'.qpids (Q₂ j) = s.qpids (Q j)) : s'.before Q₂ k = s.before Q k :=
  List.flatMap_congr fun j hj => h j (List.mem_range.1 hj)

/-- The queues up to its own have the same pids. -/
theorem Waits.ahead_congr (h : Waits s Q p k x n) (hq : ∀ j ≤ k, s'.qpids (Q₂ j) = s.qpids (Q j)) :
    ∃ pre suf, s'.qpids (Q₂ k) = pre ++ x :: suf ∧ (s'.before Q₂ k).length + pre.length ≤ n := by
  rw [before_congr fun j hj => hq j (Nat.le_of_lt hj), hq k (Nat.le_refl k)]
  exact h.ahead

theorem mem_before {j : Nat} (hj : j < k) (hx : x ∈ s.qpids (Q j)) : x ∈ s.before Q k :=
  List.mem_flatMap.2 ⟨j, List.mem_range.2 hj, hx⟩

theorem length_filter_ne_lt {L : List Int} (h : x ∈ L) : (L.filter (· ≠ x)).length < L.length := by
  refine List.length_filter_lt_length_iff_exists.2 ⟨x, h, by simp⟩

/-- A pass of `set_Queue` in which no task joins a queue before its own leaves a queued task where it
is. -/
theorem Waits.prepared (h : Waits s Q p k x n) (hq : QueueOk s Q) (hprep : Prepared s s₁ s₂ Q Q₂)
    (hkeep : ∀ j < k, ∀ i ∈ slotsDown, arrival s₁ j i = none) : Waits s₂ Q₂ p k x n := by
  obtain ⟨t, ht, hin, rfl, rfl⟩ := h.task
  obtain ⟨hready, -, hlt⟩ := hq.ready ht hin
  have hsame : queueMap (alterMap t) = t := by
    have halter : alterMap t = t := by simp [alterMap, alterTask, hready]
    rw [halter, queueMap, if_neg fun hx => by cases hin.symm.trans hx.2.1]
  refine ⟨⟨t, ?_, hin, rfl, rfl⟩, ?_⟩
  · rw [hprep.tasks, hprep.altered, mapTasks_mapTasks, mapTasks_of_some ht, hsame]
  · obtain ⟨pre, suf, hpids, hle⟩ := h.ahead
    refine ⟨pre, suf ++ slotsDown.filterMap (arrival s₁ t.order), ?_, ?_⟩
    · rw [hprep.qpids _ hlt, hpids, List.append_assoc, List.cons_append]
    · rw [before_congr fun j hj => ?_]
      · exact hle
      · rw [hprep.qpids j (by omega), List.filterMap_eq_nil_iff.2 (hkeep j hj), List.append_nil]

/-- The task that `schedule()` takes is the queued task, or one ahead of it. -/
theorem Waits.dispatch (h : Waits s Q p k x n) (hT : TabOk s) (hq : QueueOk s Q)
    (hd : Sched.dispatch s = .ok s') :
    s'.current = p ∨ ∃ Q', QueueOk s' Q' ∧ ∃ n', n = n' + 1 ∧ Waits s' Q' p k x n' := by
  obtain ⟨t, ht, hin, rfl, rfl⟩ := h.task
  obtain ⟨-, -, hlt⟩ := hq.ready ht hin
  obtain ⟨pre, suf, hpids, hle⟩ := h.ahead
  have hne : Q t.order ≠ [] := fun hnil => by
    rw [hnil] at hpids
    simp [State.qpids] at hpids
  obtain ⟨hempty, -⟩ | ⟨k, q, L, m, u, hk, hbefore, hQ, hm, hu, hd', hpop⟩ := dispatch_cases hq
  · exact absurd (hempty _ hlt) hne
  rw [hd'] at hd
  cases hd
  obtain ⟨m', u', hm', hu', -, hmp, -⟩ := hq.node k hk q (by simp [hQ])
  rw [hm] at hm'
  cases hm'
  rw [hu] at hu'
  cases hu'
  by_cases hx : t.pid = m.pid
  · exact .inl (hT.pids _ u _ t hu ht (hmp.trans hx.symm))
  -- the pid that leaves the queues is ahead of `t`
  have hfirst : m.pid ∈ s.before Q t.order ++ pre := by
    have hmem : s.qpids (Q k) = m.pid :: s.qpids L := by
      rw [hQ]
      show ((s.nodes q).map QNode.pid).getD 0 :: _ = _
      rw [hm]
      rfl
    have hkt : k ≤ t.order := by
      by_contra hgt
      exact hne (hbefore t.order (by omega))
    rcases Nat.lt_or_eq_of_le hkt with hkt | rfl
    · exact List.mem_append_left _ (mem_before hkt (by simp [hmem]))
    · rw [hmem] at hpids
      cases pre with
      | nil => exact absurd (List.cons.inj hpids).1.symm hx
      | cons y pre => exact List.mem_append_right _ (by simp [(List.cons.inj hpids).1])
  have hpids' : ∀ j < 5, (s.popped k q m).qpids (Function.update Q k L j) =
      (s.qpids (Q j)).filter (· ≠ m.pid) := fun j hj => hq.qpids_popped hT hk hQ hm hj
  have hbef : (s.popped k q m).before (Function.update Q k L) t.order =
      (s.before Q t.order).filter (· ≠ m.pid) := by
    unfold State.before
    rw [List.filter_flatMap]
    exact List.flatMap_congr fun j hj => hpids' j (by have := List.mem_range.1 hj; omega)
  have hlen := length_filter_ne_lt hfirst
  rw [List.filter_append, List.length_append, List.length_append] at hlen
  refine .inr ⟨_, hpop, n - 1, by omega, ⟨t, ?_, hin, rfl, rfl⟩, ?_⟩
  · have hp : p ≠ m.task := fun he => by
      rw [← he, ht] at hu
      cases hu
      exact hx hmp
    show (s.mapTasks fun p u => if p = m.task then runningTask u else u).tasks p = some t
    rw [mapTasks_of_some ht, if_neg hp]
  · refine ⟨pre.filter (· ≠ m.pid), suf.filter (· ≠ m.pid), ?_, ?_⟩
    · rw [hpids' _ hlt, hpids, List.filter_append, List.filter_cons_of_pos (by simpa using hx)]
    · rw [hbef]
      omega

/-! ## At most 63 tasks are queued -/

/-- The slot of the task that node `q` refers to. -/
def State.nodeSlot (s : State) (q : Ptr) : Nat :=
  ((s.nodes q).bind fun n => (s.tasks n.task).map Task.pcbId).getD 0

theorem QueueOk.nodeSlot (h : QueueOk s Q) (hT : TabOk s) {j : Nat} (hj : j < 5) {q : Ptr}
    (hq : q ∈ Q j) : s.nodeSlot q ∈ slotsDown ∧ ∃ n t, s.nodes q = some n ∧ s.tasks n.task = some t ∧
      t.order = j ∧ s.task (s.nodeSlot q) = n.task := by
  obtain ⟨n, t, hn, ht, h0, -, ho, -⟩ := h.node j hj q hq
  have hslot : s.nodeSlot q = t.pcbId := by simp [State.nodeSlot, hn, ht]
  rw [hslot]
  exact ⟨(hT.mem_slotsDown_iff ht).2 h0, n, t, hn, ht, ho, (hT.live _ t ht).2.2⟩

/-- The nodes of the queues up to `k` are those of different slots. -/
theorem QueueOk.length_le (h : QueueOk s Q) (hT : TabOk s) {k : Nat} (hk : k < 5) :
    ((List.range (k + 1)).flatMap Q).length ≤ 63 := by
  have hlt : ∀ j ∈ List.range (k + 1), j < 5 := fun j hj => by
    have := List.mem_range.1 hj
    omega
  have hnd : ((List.range (k + 1)).flatMap Q).Nodup := by
    refine List.nodup_flatMap.2 ⟨fun j hj => (h.link j (hlt j hj)).nodup, ?_⟩
    refine List.Nodup.pairwise_of_forall_ne List.nodup_range fun i hi j hj hij => ?_
    -- a node refers to a task of one order
    refine List.disjoint_left.2 fun q hq hq' => hij ?_
    obtain ⟨-, n, t, hn, ht, ho, -⟩ := h.nodeSlot hT (hlt i hi) hq
    obtain ⟨-, n', t', hn', ht', ho', -⟩ := h.nodeSlot hT (hlt j hj) hq'
    rw [hn] at hn'
    cases hn'
    rw [ht] at ht'
    cases ht'
    exact ho.symm.trans ho'
  have hmap : (((List.range (k + 1)).flatMap Q).map s.nodeSlot).Nodup := by
    refine hnd.map_on fun q hq q' hq' he => ?_
    obtain ⟨j, hj, hq⟩ := List.mem_flatMap.1 hq
    obtain ⟨j', hj', hq'⟩ := List.mem_flatMap.1 hq'
    obtain ⟨-, n, t, hn, -, -, hs⟩ := h.nodeSlot hT (hlt j hj) hq
    obtain ⟨-, n', t', hn', -, -, hs'⟩ := h.nodeSlot hT (hlt j' hj') hq'
    exact h.uniq j (hlt j hj) j' (hlt j' hj') q hq q' hq' n n' hn hn' (hs.symm.trans (he ▸ hs'))
  have hsub : ((List.range (k + 1)).flatMap Q).map s.nodeSlot ⊆ slotsDown := by
    intro i hi
    obtain ⟨q, hq, rfl⟩ := List.mem_map.1 hi
    obtain ⟨j, hj, hq⟩ := List.mem_flatMap.1 hq
    exact (h.nodeSlot hT (hlt j hj) hq).1
  have hle := (List.subperm_of_subset hmap hsub).length_le
  rwa [List.length_map] at hle

theorem length_before (s : State) (Q : Nat → List Ptr) (k : Nat) :
    (s.before Q k).length = ((List.range k).flatMap Q).length := by
  simp [State.before, State.qpids, List.length_flatMap]

theorem QueueOk.ahead (h : QueueOk s Q) (ht : s.tasks p = some t) (hin : t.inQueue = true) :
    ∃ n, Ahead s t.order t.pid n := by
  obtain ⟨pre, suf, hpids⟩ := List.append_of_mem (h.qpids_queued ht hin)
  exact ⟨_, Q, h.link, pre, suf, hpids, rfl⟩

/-- A queued task waits for those that are ahead of it, fewer than 63. -/
theorem Ahead.waits (hn : Ahead s t.order t.pid n) (h : QueueOk s Q) (hT : TabOk s)
    (ht : s.tasks p = some t) (hin : t.inQueue = true) :
    n < 63 ∧ Waits s Q p t.order t.pid n := by
  obtain ⟨-, -, hlt⟩ := h.ready ht hin
  obtain ⟨Q', hlink, pre, suf, hpids, rfl⟩ := hn
  have hQ : ∀ j < 5, Q' j = Q j := fun j hj => (hlink j hj).unique (h.link j hj)
  rw [hQ _ hlt] at hpids
  rw [before_congr fun j hj => by rw [hQ j (by omega)]]
  refine ⟨?_, ⟨t, ht, hin, rfl, rfl⟩, pre, suf, hpids, Nat.le_refl _⟩
  have hle := h.length_le hT hlt
  rw [List.range_succ, List.flatMap_append, List.length_append, List.flatMap_singleton] at hle
  have hpre := congrArg List.length hpids
  simp only [State.qpids, List.length_map, List.length_append, List.length_cons] at hpre
  rw [length_before]
  omega

end

/-! ## Ticks between two calls of `schedule()` -/

/-- The timer calls `schedule()` after at most `b` ticks. -/
def Budget (s : Sys) (b : Nat) : Prop :=
  s.pend = true ∨ ∃ u, s.tasks s.current = some u ∧
    (u.pid = 0 ∧ 1 ≤ b ∨ u.pid ≠ 0 ∧ u.state = .running ∧ 0 < u.counter ∧ u.counter ≤ b)

section
variable {s s' : Sys} {op : Op} {b : Nat}

/-- A tick of task 0 ends in `schedule()`. -/
theorem timerInterrupt_zero {s : State} {t : Task} (ht : s.tasks s.current = some t) (h0 : t.pid = 0) :
    ∃ st, timerInterrupt s = .ok (st, true) := by
  have hget : (timerSelfadd s).get s.current = .ok t := get_eq_ok.2 ht
  unfold timerInterrupt
  dsimp only
  rw [show (timerSelfadd s).current = s.current from rfl, hget, Res.ok_bind, if_neg (by simp [h0])]
  exact ⟨_, rfl⟩

theorem Budget.mono {b' : Nat} (h : Budget s b) (hb : b ≤ b') : Budget s b' := by
  rcases h with h | ⟨u, hu, ⟨h0, h1⟩ | ⟨h0, hr, hpos, hle⟩⟩
  · exact .inl h
  · exact .inr ⟨u, hu, .inl ⟨h0, by omega⟩⟩
  · exact .inr ⟨u, hu, .inr ⟨h0, hr, hpos, by omega⟩⟩

/-- A tick uses up one of the ticks left, and no other operation adds to them. -/
theorem Budget.step (hi : SysInv s) (h : Budget s b) (hst : OpStep s op s')
    (hop : op.isSchedule = false) :
    ∃ b', Budget s' b' ∧ b' + (if op.isTick = true then 1 else 0) ≤ b := by
  have hp : s.pend = false := hst.pend.trans hop
  obtain ⟨u, hu, hcases⟩ := h.resolve_left fun hx => by cases hp.symm.trans hx
  have hb : 1 ≤ b := by
    rcases hcases with ⟨-, h1⟩ | ⟨-, -, hpos, hle⟩ <;> omega
  have hran := opStep_ran hi hu hp hst
  obtain ⟨u', hu', hfate⟩ := hran.self
  have hu' : s'.tasks s'.current = some u' := by rw [hran.current]; exact hu'
  generalize hb' : s'.pend = pend' at hfate
  have hno : op ≠ .tick → op.isTick ≠ true := fun hne => by
    cases op with
    | tick => exact absurd rfl hne
    | _ => exact nofun
  cases hfate with
  | goesOn hne hunt =>
    refine ⟨b, .inr ⟨u', hu', ?_⟩, by simp [hno hne]⟩
    rw [hunt.pid, hunt.state, hunt.counter]
    exact hcases
  | ticked hb =>
    rcases hcases with ⟨h0, -⟩ | ⟨h0, hr, hpos, hle⟩
    · -- task 0 gives the processor up
      obtain ⟨-, e, hst⟩ := hst
      obtain ⟨st, he⟩ := timerInterrupt_zero hu h0
      rw [Sys.step, he, Res.ok_bind] at hst
      cases hst
      exact ⟨0, .inl rfl, by simpa [Op.isTick] using ‹1 ≤ b›⟩
    · refine ⟨b - 1, ?_, by simp only [Op.isTick, if_true]; omega⟩
      by_cases hlast : u.counter ≤ 1
      · exact .inl (hb'.trans ((hb h0 hr).2 hlast))
      · have hcount : (tickTask u).counter = u.counter - 1 := if_pos h0
        exact .inr ⟨_, hu', .inr ⟨h0, hr, by omega, by omega⟩⟩
  | leaves hne hpid hstate _ =>
    exact ⟨b, .inl hb', by simp [hno hne]⟩

/-- A task that is taken has at most 26 ticks. -/
theorem Budget.schedule {fresh : List Ptr} (hi : SysInv s) (hc : Charged s.toState)
    (hst : OpStep s (.schedule fresh) s') : Budget s' 26 := by
  obtain ⟨s₁, s₂, fresh', Q, Q₂, -, -, hq, hprep, hd, -⟩ := opStep_parts hi hst
  have hi' := hst.inv hi
  obtain ⟨u, hu, -⟩ := hi'.cur
  refine .inr ⟨u, hu, ?_⟩
  by_cases h0 : u.pid = 0
  · exact .inl ⟨h0, by decide⟩
  · obtain ⟨hrun, hcount⟩ := (hprep.taken (hprep.charged hq hc) hd).2 u hu h0
    have hle := hi'.order _ u hu (by rw [hrun]; decide)
    unfold counterOf at hcount
    exact .inr ⟨h0, hrun, by omega, by omega⟩

/-- What holds in every run: the invariant, charged counters, and at most 26 ticks left. -/
structure Paced (s : Sys) : Prop where
  inv : SysInv s
  charged : Charged s.toState
  budget : Budget s 26

theorem Paced.step (h : Paced s) (hst : OpStep s op s') : Paced s' := by
  refine ⟨hst.inv h.inv, opStep_charged h.inv h.charged hst, ?_⟩
  cases hop : op.isSchedule with
  | true =>
    obtain ⟨fresh, rfl⟩ := Op.eq_schedule hop
    exact .schedule h.inv h.charged hst
  | false =>
    obtain ⟨b', hb', hle⟩ := h.budget.step h.inv hst hop
    exact hb'.mono (by omega)

theorem opRun_paced {p : Ptr} (hp : p ≠ 0) {ops : List Op} (hr : Run OpStep (Sys.boot p) ops s) :
    Paced s := by
  refine hr.invariant ⟨sysInv_boot hp, fun q u hu hin => ?_, ?_⟩ fun _ _ _ h hst => h.step hst
  · rw [(boot_tasks hu).2] at hin
    cases hin
  · exact .inr ⟨initTask, by simp [Sys.boot, State.boot], .inl ⟨rfl, by decide⟩⟩

/-! ## Runs -/

variable {p : Ptr} {k n : Nat} {x : Int}

theorem scheds_snoc (ops : List Op) (op : Op) :
    scheds (ops ++ [op]) = scheds ops + if op.isSchedule = true then 1 else 0 := by
  unfold scheds
  rw [List.countP_append, List.countP_singleton]

/-- An operation other than `schedule()` leaves the queues and the tasks in them. -/
theorem Waits.ran {Q : Nat → List Ptr} (hi : SysInv s) (h : Waits s.toState Q p k x n)
    (hq : QueueOk s.toState Q) (hst : OpStep s op s') (hop : op.isSchedule = false) :
    ∃ Q', QueueOk s'.toState Q' ∧ Waits s'.toState Q' p k x n := by
  obtain ⟨c, hc, -⟩ := hi.cur
  obtain ⟨t, ht, hin, rfl, rfl⟩ := h.task
  have hran := opStep_ran hi hc (hst.pend.trans hop) hst
  obtain ⟨Q', hq'⟩ := (hst.inv hi).queues
  have hnext : s'.nnext = s.nnext := by
    funext q
    rw [State.nnext, State.nnext, hran.nodes]
  have hQ : ∀ j < 5, Q' j = Q j := fun j hj => by
    have hl := hq'.link j hj
    rw [hnext, hran.head] at hl
    exact hl.unique (hq.link j hj)
  have hpids : ∀ j < 5, s'.qpids (Q' j) = s.qpids (Q j) := fun j hj => by
    rw [State.qpids, State.qpids, hran.nodes, hQ j hj]
  obtain ⟨hlt, q, hqm, m, hm, hmt, -⟩ := hq.queued ht hin
  refine ⟨Q', hq', ?_, ?_⟩
  · -- its node is still in the queue, so the task is still in the table
    obtain ⟨m', t', hm', ht', -⟩ := hq'.node _ hlt q (by rw [hQ _ hlt]; exact hqm)
    rw [hran.nodes, hm] at hm'
    cases hm'
    rw [hmt] at ht'
    have hne : p ≠ s.current := fun he => by
      rw [he, hc] at ht
      cases ht
      cases hin.symm.trans (hi.get_cur hc).1
    have hunt := hran.other p t t' hne ht ht'
    exact ⟨t', ht', hunt.inQueue.trans hin, hunt.order, hunt.pid⟩
  · exact h.ahead_congr fun j hj => hpids j (by omega)

/-- One step: the task is taken, or goes on waiting with one less ahead after `schedule()`. -/
theorem Waits.step {Q : Nat → List Ptr} (hi : SysInv s) (h : Waits s.toState Q p k x n)
    (hq : QueueOk s.toState Q) (hst : FrontStep k s op s') :
    s'.current = p ∨ ∃ Q', QueueOk s'.toState Q' ∧
      ∃ n', n' + (if op.isSchedule = true then 1 else 0) = n ∧ Waits s'.toState Q' p k x n' := by
  obtain ⟨hst, hkeep⟩ := hst
  cases hop : op.isSchedule with
  | false =>
    obtain ⟨Q', hq', hw⟩ := h.ran hi hq hst hop
    exact .inr ⟨Q', hq', n, by simp, hw⟩
  | true =>
    obtain ⟨fresh, rfl⟩ := Op.eq_schedule hop
    obtain ⟨s₁, s₂, fresh', Q₁, Q₂, h₁, -, hq₁, hprep, hd, -⟩ := opStep_parts hi hst
    have hQ : ∀ j < 5, Q₁ j = Q j := fun j hj => (hq₁.link j hj).unique (hq.link j hj)
    obtain ⟨t, ht, hin, rfl, rfl⟩ := h.task
    obtain ⟨-, -, hlt⟩ := hq.ready ht hin
    have hw : Waits s.toState Q₁ p t.order t.pid n :=
      ⟨h.task, h.ahead_congr fun j hj => by rw [hQ j (by omega)]⟩
    rcases (hw.prepared hq₁ hprep (hkeep s₁ h₁)).dispatch hprep.tab hprep.queues hd with
      hcur | ⟨Q', hq', n', rfl, hw'⟩
    · exact .inl hcur
    · exact .inr ⟨Q', hq', n', by simp, hw'⟩

/-- **A queued task does not starve behind tasks of its own or a higher order.** In every state that a
run reaches, a queued task has `n` tasks ahead of it, `n` at most 62. In every continuation in which no
task joins a queue before its own, it has run once there are more than `n` calls of `schedule()`, or
more than `26 * (n + 1)` ticks. -/
theorem bounded_wait {p₀ : Ptr} (hp : p₀ ≠ 0) {ops₀ : List Op} (hr : Run OpStep (Sys.boot p₀) ops₀ s)
    {t : Task} (ht : s.tasks p = some t) (hin : t.inQueue = true) :
    (∃ n, Ahead s.toState t.order t.pid n) ∧ ∀ n, Ahead s.toState t.order t.pid n → n ≤ 62 ∧
      ∀ ops s', Run (FrontStep t.order) s ops s' → n < scheds ops ∨ 26 * (n + 1) < ticks ops →
        ∃ ops₁ ops₂ s₁, ops = ops₁ ++ ops₂ ∧ Run (FrontStep t.order) s ops₁ s₁ ∧ s₁.current = p := by
  have hpaced := opRun_paced hp hr
  obtain ⟨Q, hq⟩ := hpaced.inv.queues
  refine ⟨hq.ahead ht hin, fun n hahead => ?_⟩
  obtain ⟨hn, hw⟩ := hahead.waits hq hpaced.inv.tab.toTabOk ht hin
  refine ⟨by omega, fun ops s' hrun hlong => ?_⟩
  -- until the task has run, it waits, and the calls of `schedule()` bound the ticks
  have hinv : Run (FrontStep t.order) s ops s' ∧ Paced s' ∧
      ((∃ ops₁ ops₂ s₁, ops = ops₁ ++ ops₂ ∧ Run (FrontStep t.order) s ops₁ s₁ ∧ s₁.current = p) ∨
        (∃ Q, QueueOk s'.toState Q ∧ ∃ n', n' + scheds ops = n ∧
          Waits s'.toState Q p t.order t.pid n') ∧
        ∃ b, Budget s' b ∧ ticks ops + b ≤ 26 * (scheds ops + 1)) := by
    refine hrun.invariant_trace (I := fun ops s' => Run (FrontStep t.order) s ops s' ∧ Paced s' ∧
      ((∃ ops₁ ops₂ s₁, ops = ops₁ ++ ops₂ ∧ Run (FrontStep t.order) s ops₁ s₁ ∧ s₁.current = p) ∨
        (∃ Q, QueueOk s'.toState Q ∧ ∃ n', n' + scheds ops = n ∧
          Waits s'.toState Q p t.order t.pid n') ∧
        ∃ b, Budget s' b ∧ ticks ops + b ≤ 26 * (scheds ops + 1)))
      ⟨.nil, hpaced, .inr ⟨⟨Q, hq, n, rfl, hw⟩, 26, hpaced.budget, by decide⟩⟩ ?_
    rintro ops s₁ op s₂ ⟨hrun, hpaced, hcases⟩ hst
    refine ⟨hrun.snoc hst, hpaced.step hst.1, ?_⟩
    rcases hcases with ⟨ops₁, ops₂, s₀, rfl, h1, h2⟩ | ⟨⟨Q, hq, n', hn', hw⟩, b, hb, hle⟩
    · exact .inl ⟨ops₁, ops₂ ++ [op], s₀, by simp, h1, h2⟩
    · rcases hw.step hpaced.inv hq hst with hcur | ⟨Q', hq', n'', hn'', hw'⟩
      · exact .inl ⟨ops ++ [op], [], s₂, by simp, hrun.snoc hst, hcur⟩
      · refine .inr ⟨⟨Q', hq', n'', by rw [scheds_snoc]; omega, hw'⟩, ?_⟩
        rw [scheds_snoc, ticks_snoc]
        cases hop : op.isSchedule with
        | true =>
          obtain ⟨fresh, rfl⟩ := Op.eq_schedule hop
          refine ⟨26, .schedule hpaced.inv hpaced.charged hst.1, ?_⟩
          rw [if_pos rfl, if_neg (by simp [Op.isTick])]
          omega
        | false =>
          obtain ⟨b', hb', hle'⟩ := hb.step hpaced.inv hst.1 hop
          refine ⟨b', hb', ?_⟩
          rw [if_neg Bool.false_ne_true]
          omega
  obtain ⟨-, -, hdone | ⟨⟨Q', -, n', hn', -⟩, b, -, hle⟩⟩ := hinv
  · exact hdone
  · exfalso
    rcases hlong with hlong | hlong
    · omega
    · have : scheds ops ≤ n := by omega
      have : 26 * (scheds ops + 1) ≤ 26 * (n + 1) := by omega
      omega

/-- Tasks 1 and 2 were queued and 2 was taken: no task is ahead of 1, which runs after the slice of 2. -/
theorem bounded_wait_two : ∃ s s',
    Run OpStep (Sys.boot 100) [.fork 200, .fork 300, .tick, .schedule [1, 2]] s ∧
    Ahead s.toState 0 1 0 ∧ Run (FrontStep 0) s [.tick, .tick, .schedule [3]] s' ∧
    ∃ ops₁ ops₂ s₁, [.tick, .tick, .schedule [3]] = ops₁ ++ ops₂ ∧ Run (FrontStep 0) s ops₁ s₁ ∧
      s₁.current = 200 := by
  have hx : ((Lib.exec Sys.next (Sys.boot 100) [.fork 200, .fork 300, .tick, .schedule [1, 2]]).any
      fun s => decide ((Lib.exec Sys.next s [.tick, .tick, .schedule [3]]).isSome = true ∧
        ((s.tasks 200).any fun t => decide (t.inQueue = true ∧ t.order = 0 ∧ t.pid = 1)) = true ∧
        s.head 0 = 2 ∧ s.nodes 2 = some ⟨1, 200, 0⟩ ∧ ([1, 2, 3, 4].all fun j => decide (s.head j = 0)) = true)) = true := by
    decide +kernel
  obtain ⟨s, hs, hx⟩ := (Option.any_eq_true _ _).1 hx
  obtain ⟨hgo, ht, hhead, hnode, hempty⟩ := of_decide_eq_true hx
  obtain ⟨s', hs'⟩ := Option.isSome_iff_exists.1 hgo
  obtain ⟨t, ht, hx⟩ := (Option.any_eq_true _ _).1 ht
  obtain ⟨hin, ho, hpid⟩ := of_decide_eq_true hx
  have hr := run_of_exec (fun _ _ _ => opStep_of_next) hs
  have hahead : Ahead s.toState 0 1 0 := by
    refine ⟨fun j => if j = 0 then [2] else [], fun j hj => ?_, [], [], ?_, rfl⟩
    · by_cases h0 : j = 0
      · simp [h0, hhead, linked_cons, linked_nil, nnext_eq hnode]
      · have hj : j ∈ [1, 2, 3, 4] := by simp; omega
        simp [h0, of_decide_eq_true (List.all_eq_true.1 hempty j hj)]
    · simp [State.qpids, hnode]
  have hrun : Run (FrontStep 0) s [.tick, .tick, .schedule [3]] s' := by
    refine run_of_exec (fun s op s' hst => ⟨opStep_of_next hst, ?_⟩) hs'
    cases op with
    | schedule fresh => exact fun _ _ j hj => absurd hj (Nat.not_lt_zero j)
    | _ => trivial
  have hwait := (bounded_wait (by decide) hr ht hin).2 0
  rw [ho, hpid] at hwait
  exact ⟨s, s', hr, hahead, hrun, (hwait hahead).2 _ s' hrun (.inl (by decide))⟩

end

end Sched
