import OS404.Lib.Fifo
import OS404.Sched.Proof.Runs

/-!
# Strict priorities, first in first out

Runs with a log of the pids that `set_Queue` has put into a queue, oldest first (`LogStep`). The log
gets the tasks whose `in_Queue` a pass of `set_Queue` sets, in the order of its loop.

* `logRun_fifo`: in every run each of the five queues is in the order of the log;
* `schedule_fifo`: so the task that `schedule()` takes has the least order among the ready and running
  tasks of the table, and among those of its order it is the one that was queued first.
-/

namespace Sched

open Lib

/-! ## The log -/

/-- The pid of the task in slot `i` if its `in_Queue` is 0 in `s` and 1 in `s'`. -/
def joined (s s' : State) (i : Nat) : Option Int :=
  (s.tasks (s.task i)).bind fun t => (s'.tasks (s.task i)).bind fun t' =>
    if t.inQueue = false ∧ t'.inQueue = true then some t.pid else none

/-- The tasks that are queued from `s` to `s'`, in the order of the loop of `set_Queue`. -/
def joins (s s' : State) : List Int := slotsDown.filterMap (joined s s')

/-- What an operation adds to the log. -/
def Sys.logged (s : Sys) : Op → List Int
  | .schedule fresh =>
    match alterState s.toState with
    | .error _ => []
    | .ok s₁ =>
      match setQueue fresh s₁ with
      | .error _ => []
      | .ok (s₂, _) => joins s₁ s₂
  | _ => []

/-- A step of the system with the log. -/
def LogStep (c : Sys × List Int) (op : Op) (c' : Sys × List Int) : Prop :=
  OpStep c.1 op c'.1 ∧ c'.2 = c.2 ++ c.1.logged op

/-! ## The pids in the queues -/

section
variable {s s' : State} {Q : Nat → List Ptr}

theorem QueueOk.mem_qpids (h : QueueOk s Q) {k : Nat} (hk : k < 5) {x : Int} (hx : x ∈ s.qpids (Q k)) :
    ∃ p t, s.tasks p = some t ∧ t.pid = x ∧ t.inQueue = true := by
  obtain ⟨q, hq, rfl⟩ := List.mem_map.1 hx
  obtain ⟨n, t, hn, ht, -, hpid, -, hin, -⟩ := h.node k hk q hq
  refine ⟨n.task, t, ht, ?_, hin⟩
  rw [hn, hpid]
  rfl

/-- A queued task is in the queue of its order. -/
theorem QueueOk.queued (h : QueueOk s Q) {p : Ptr} {t : Task} (ht : s.tasks p = some t)
    (hin : t.inQueue = true) :
    t.order < 5 ∧ ∃ q ∈ Q t.order, ∃ n, s.nodes q = some n ∧ n.task = p ∧ n.pid = t.pid := by
  obtain ⟨k, hk, q, hq, n, hn, rfl⟩ := h.full p t ht hin
  obtain ⟨n', t', hn', ht', -, hpid, ho, -⟩ := h.node k hk q hq
  rw [hn] at hn'
  cases hn'
  rw [ht] at ht'
  cases ht'
  rw [ho]
  exact ⟨hk, q, hq, n, hn, rfl, hpid.symm⟩

theorem QueueOk.qpids_queued (h : QueueOk s Q) {p : Ptr} {t : Task} (ht : s.tasks p = some t)
    (hin : t.inQueue = true) : t.pid ∈ s.qpids (Q t.order) := by
  obtain ⟨-, q, hq, n, hn, -, hpid⟩ := h.queued ht hin
  refine List.mem_map.2 ⟨q, hq, ?_⟩
  rw [hn, ← hpid]
  rfl

/-- Different nodes have different pids. -/
theorem QueueOk.pid_ne (h : QueueOk s Q) (hT : TabOk s) {j k : Nat} (hj : j < 5) (hk : k < 5)
    {q q' : Ptr} {n n' : QNode} (hq : q ∈ Q k) (hq' : q' ∈ Q j) (hn : s.nodes q = some n)
    (hn' : s.nodes q' = some n') (hne : q' ≠ q) : n'.pid ≠ n.pid := by
  intro hpid
  obtain ⟨m, t, hm, ht, -, hmp, -⟩ := h.node k hk q hq
  obtain ⟨m', t', hm', ht', -, hmp', -⟩ := h.node j hj q' hq'
  rw [hn] at hm
  cases hm
  rw [hn'] at hm'
  cases hm'
  have htask := hT.pids _ t' _ t ht' ht (by rw [hmp', hmp, hpid])
  exact hne (h.uniq j hj k hk q' hq' q hq n' n hn' hn htask)

/-- Taking the first task of queue `k` removes its pid and no other. -/
theorem QueueOk.qpids_popped (h : QueueOk s Q) (hT : TabOk s) {k : Nat} (hk : k < 5) {q : Ptr}
    {L : List Ptr} {n : QNode} (hQ : Q k = q :: L) (hn : s.nodes q = some n) {j : Nat} (hj : j < 5) :
    (s.popped k q n).qpids (Function.update Q k L j) = (s.qpids (Q j)).filter (· ≠ n.pid) := by
  have hq : q ∈ Q k := by simp [hQ]
  -- a list of other nodes keeps its pids, and none of them is the one that leaves
  have hkeep : ∀ M, (∀ q' ∈ M, q' ∈ Q j ∧ q' ≠ q) →
      (s.popped k q n).qpids M = s.qpids M ∧ (s.qpids M).filter (· ≠ n.pid) = s.qpids M := by
    intro M hM
    refine ⟨List.map_congr_left fun q' hq' => ?_, List.filter_eq_self.2 fun x hx => ?_⟩
    · rw [show (s.popped k q n).nodes q' = s.nodes q' from Function.update_of_ne (hM q' hq').2 ..]
    · obtain ⟨q', hq', rfl⟩ := List.mem_map.1 hx
      obtain ⟨n', -, hn', -⟩ := h.node j hj q' (hM q' hq').1
      rw [hn']
      exact decide_eq_true (h.pid_ne hT hj hk hq (hM q' hq').1 hn hn' (hM q' hq').2)
  by_cases hjk : j = k
  · subst hjk
    have hnd := (h.link j hj).nodup
    rw [hQ] at hnd
    obtain ⟨h1, h2⟩ := hkeep L fun q' hq' =>
      ⟨by simp [hQ, hq'], fun he => (List.nodup_cons.1 hnd).1 (he ▸ hq')⟩
    rw [Function.update_self, hQ, h1]
    show _ = List.filter _ (_ :: s.qpids L)
    rw [List.filter_cons_of_neg (by simp [hn]), h2]
  · have hne : ∀ q' ∈ Q j, q' ≠ q := by
      rintro q' hq' rfl
      -- a node stands for one task, which has one order
      obtain ⟨m, t, hm, ht, -, -, ho, -⟩ := h.node k hk q' hq
      obtain ⟨m', t', hm', ht', -, -, ho', -⟩ := h.node j hj q' hq'
      rw [hm] at hm'
      cases hm'
      rw [ht] at ht'
      cases ht'
      exact hjk (ho'.symm.trans ho)
    obtain ⟨h1, h2⟩ := hkeep (Q j) fun q' hq' => ⟨hq', hne q' hq'⟩
    rw [Function.update_of_ne hjk, h1, h2]

end

/-! ## A pass of `set_Queue` -/

section
variable {s s₁ s₂ : State} {Q Q₂ : Nat → List Ptr} {log : List Int}

theorem mem_joins {x : Int} (h : x ∈ joins s₁ s₂) :
    ∃ p t, s₁.tasks p = some t ∧ t.pid = x ∧ t.inQueue = false := by
  obtain ⟨i, -, hi⟩ := List.mem_filterMap.1 h
  obtain ⟨t, ht, hi⟩ := Option.bind_eq_some_iff.1 hi
  obtain ⟨t', -, hi⟩ := Option.bind_eq_some_iff.1 hi
  split at hi
  · rename_i hx
    exact ⟨_, t, ht, Option.some.inj hi, hx.1⟩
  · cases hi

theorem joins_nodup (hT : TabOk s₁) : (joins s₁ s₂).Nodup := by
  have hpid : ∀ i x, joined s₁ s₂ i = some x → ∃ t, s₁.tasks (s₁.task i) = some t ∧ t.pid = x := by
    intro i x hi
    obtain ⟨t, ht, hi⟩ := Option.bind_eq_some_iff.1 hi
    obtain ⟨t', -, hi⟩ := Option.bind_eq_some_iff.1 hi
    split at hi
    · exact ⟨t, ht, Option.some.inj hi⟩
    · cases hi
  have hlt : ∀ i ∈ slotsDown, i < 64 := fun i hi => (mem_slotsDown.1 hi).2
  have hnd := slotsDown_nodup
  unfold joins
  generalize slotsDown = slots at hlt hnd ⊢
  -- two slots with one pid are one slot
  induction slots with
  | nil => exact List.nodup_nil
  | cons i is ih =>
    obtain ⟨hi, hnd⟩ := List.nodup_cons.1 hnd
    have ih := ih (fun j hj => hlt j (.tail _ hj)) hnd
    cases hx : joined s₁ s₂ i with
    | none => rwa [List.filterMap_cons_none hx]
    | some x =>
      rw [List.filterMap_cons_some hx]
      refine List.nodup_cons.2 ⟨fun hmem => ?_, ih⟩
      obtain ⟨j, hj, hjx⟩ := List.mem_filterMap.1 hmem
      obtain ⟨t, ht, htx⟩ := hpid i x hx
      obtain ⟨u, hu, hux⟩ := hpid j x hjx
      have hp := hT.pids _ t _ u ht hu (htx.trans hux.symm)
      have hi' := (hT.slot_eq_iff ht (hlt i (.head _))).1 rfl
      have hj' := (hT.slot_eq_iff ht (hlt j (.tail _ hj))).1 hp.symm
      exact hi (hi'.symm.trans hj' ▸ hj)

/-- What `set_Queue` puts into queue `k` is in the log. -/
theorem Prepared.arrivals (h : Prepared s s₁ s₂ Q Q₂) (k : Nat) :
    (slotsDown.filterMap (arrival s₁ k)).Sublist (joins s₁ s₂) := by
  refine sublist_filterMap fun i hi x hx => ?_
  obtain ⟨t, ht, hx⟩ := Option.bind_eq_some_iff.1 hx
  split at hx
  · rename_i hneed
    cases hx
    have hi' := mem_slotsDown.1 hi
    have hpid : t.pid ≠ 0 := fun h0 => by
      have h1 := (h.tab₁.pcbId_zero_iff ht).2 h0
      have h2 := (h.tab₁.slot_eq_iff ht hi'.2).1 rfl
      omega
    have ht₂ : s₂.tasks (s₁.task i) = some (queuedTask t) := by
      rw [h.tasks, mapTasks_of_some ht, queueMap, if_pos ⟨hpid, hneed.1⟩]
    unfold joined
    rw [ht, ht₂]
    exact if_pos ⟨hneed.1.1, rfl⟩
  · cases hx

/-- The queues are in order after `set_Queue` if they were before. -/
theorem Prepared.fifo (h : Prepared s s₁ s₂ Q Q₂) {k : Nat} (hk : k < 5)
    (hf : Fifo log (s.qpids (Q k))) : Fifo (log ++ joins s₁ s₂) (s₂.qpids (Q₂ k)) := by
  rw [h.qpids k hk]
  refine hf.join (joins_nodup h.tab₁) (fun x hx hx' => ?_) (h.arrivals k)
  -- who is queued already does not join
  have hx₁ : x ∈ s₁.qpids (Q k) := by
    rw [h.altered]
    exact hx
  obtain ⟨p, t, ht, htx, hin⟩ := h.queues₁.mem_qpids hk hx₁
  obtain ⟨p', t', ht', htx', hin'⟩ := mem_joins hx'
  have hp := h.tab₁.pids p t p' t' ht ht' (htx.trans htx'.symm)
  subst hp
  rw [ht] at ht'
  cases ht'
  cases hin.symm.trans hin'

end

/-! ## The task that is taken -/

/-- The ready and running tasks of slots 1 to 63. -/
def Candidate (s : State) (p : Ptr) (t : Task) : Prop :=
  (∃ i, 1 ≤ i ∧ i < 64 ∧ s.task i = p) ∧ s.tasks p = some t ∧ (t.state = .ready ∨ t.state = .running)

/-- From `s` to `s'` task `t` leaves the queues, and the other tasks in them stay in order. -/
def LeavesQueues (s s' : State) (t : Task) : Prop :=
  ∀ k < 5, ∃ L L', Linked (· = 0) s.nnext (s.head k) L ∧ Linked (· = 0) s'.nnext (s'.head k) L' ∧
    s'.qpids L' = (s.qpids L).filter (· ≠ t.pid)

/-- The task that runs in `s'` was taken from the queues of `s` by strict priority, and first in first
out by the log; it is task 0 if there was none to take. -/
structure Dispatched (log : List Int) (s s' : State) : Prop where
  idle : s'.current = s.task 0 ↔ ¬ ∃ p t, Candidate s p t
  taken : (∃ p t, Candidate s p t) → ∃ t, Candidate s s'.current t ∧
    (∀ p u, Candidate s p u → t.order ≤ u.order) ∧
    (∀ p u, Candidate s p u → u.order = t.order → p ≠ s'.current → Before log t.pid u.pid) ∧
    s'.tasks s'.current = some { t with inQueue := false, state := .running } ∧
    LeavesQueues s s' t

section
variable {s s₁ s₂ s' : State} {Q Q₂ : Nat → List Ptr} {log : List Int}

/-- After `set_Queue` the ready and running tasks are queued. -/
theorem Prepared.candidate (h : Prepared s s₁ s₂ Q Q₂) {p : Ptr} {u : Task} (hc : Candidate s₂ p u) :
    u.inQueue = true := by
  obtain ⟨⟨i, hi, hi', hip⟩, hu, hstate⟩ := hc
  have hpid : u.pid ≠ 0 := fun h0 => by
    have h1 := (h.tab.pcbId_zero_iff hu).2 h0
    have h2 := (h.tab.slot_eq_iff hu hi').1 hip
    omega
  rw [h.tasks] at hu
  obtain ⟨t, ht, rfl⟩ := mapTasks_eq_some.1 hu
  unfold queueMap at hpid hstate ⊢
  split
  · rfl
  · rename_i hno
    rw [if_neg hno] at hpid hstate
    by_contra hin
    exact hno ⟨hpid, by simpa using hin, hstate⟩

theorem candidate_of_queued (hT : TabOk s) (h : QueueOk s Q) {p : Ptr} {t : Task}
    (ht : s.tasks p = some t) (hin : t.inQueue = true) : Candidate s p t := by
  obtain ⟨hready, hpid, -⟩ := h.ready ht hin
  obtain ⟨-, hlt, hslot⟩ := hT.live p t ht
  have h0 := hT.pcbId_zero_iff ht
  exact ⟨⟨t.pcbId, by omega, hlt, hslot⟩, ht, .inl hready⟩

theorem dispatched (h : Prepared s s₁ s₂ Q Q₂) (hf : ∀ k < 5, Fifo log (s₂.qpids (Q₂ k)))
    (hs : dispatch s₂ = .ok s') : Dispatched log s₂ s' := by
  have hqueued : ∀ p u, Candidate s₂ p u → Q₂ u.order ≠ [] := by
    intro p u hc hnil
    obtain ⟨-, q, hq, -⟩ := h.queues.queued hc.2.1 (h.candidate hc)
    rw [hnil] at hq
    exact absurd hq List.not_mem_nil
  obtain ⟨hempty, hd⟩ | ⟨k, q, L, n, t, hk, hbefore, hQ, hn, ht, hd, hpop⟩ := dispatch_cases h.queues
  · -- the queues are empty
    rw [hd] at hs
    cases hs
    have hnone : ¬ ∃ p t, Candidate s₂ p t := by
      rintro ⟨p, u, hc⟩
      have hlt := (h.queues.queued hc.2.1 (h.candidate hc)).1
      exact hqueued p u hc (hempty u.order hlt)
    exact ⟨⟨fun _ => hnone, fun _ => rfl⟩, fun hc => absurd hc hnone⟩
  · rw [hd] at hs
    cases hs
    obtain ⟨n', t', hn', ht', hpid0, hpid, ho, hin, -⟩ := h.queues.node k hk q (by simp [hQ])
    rw [hn] at hn'
    cases hn'
    rw [ht] at ht'
    cases ht'
    have hcand : Candidate s₂ n.task t := candidate_of_queued h.tab h.queues ht hin
    refine ⟨⟨fun hc => ?_, fun hno => absurd ⟨n.task, t, hcand⟩ hno⟩, fun _ => ⟨t, hcand, ?_, ?_, ?_, ?_⟩⟩
    · exact absurd ((h.tab.zero_iff ht).1 hc) hpid0
    · intro p u hc
      rw [ho]
      by_contra hlt
      exact hqueued p u hc (hbefore u.order (by omega))
    · intro p u hc hou hp
      have hmem := h.queues.qpids_queued hc.2.1 (h.candidate hc)
      have hfifo := (hf k hk).order
      rw [hou, ho, hQ] at hmem
      rw [hQ] at hfifo
      have hcons : s₂.qpids (q :: L) = t.pid :: s₂.qpids L := by
        show ((s₂.nodes q).map QNode.pid).getD 0 :: _ = _
        rw [hn, hpid]
        rfl
      rw [hcons] at hmem hfifo
      rcases List.mem_cons.1 hmem with he | hmem
      · exact absurd (h.tab.pids p u n.task t hc.2.1 ht he) hp
      · exact (List.pairwise_cons.1 hfifo).1 u.pid hmem
    · have hrun : (s₂.mapTasks fun p u => if p = n.task then runningTask u else u).tasks n.task =
          some (runningTask t) := by rw [mapTasks_of_some ht, if_pos rfl]
      exact hrun
    · intro j hj
      refine ⟨Q₂ j, Function.update Q₂ k L j, h.queues.link j hj, hpop.link j hj, ?_⟩
      rw [hpid]
      exact h.queues.qpids_popped h.tab hk hQ hn hj

end

/-! ## Runs -/

/-- The queues are in the order of the log. -/
def InOrder (s : State) (log : List Int) : Prop :=
  ∀ k < 5, ∀ L, Linked (· = 0) s.nnext (s.head k) L → Fifo log (s.qpids L)

section
variable {s : Sys} {log : List Int}

theorem InOrder.queue {st : State} {Q : Nat → List Ptr} (h : InOrder st log) (hq : QueueOk st Q) :
    ∀ k < 5, Fifo log (st.qpids (Q k)) := fun k hk => h k hk (Q k) (hq.link k hk)

theorem inOrder_of {st : State} {Q : Nat → List Ptr} (hq : QueueOk st Q)
    (h : ∀ k < 5, Fifo log (st.qpids (Q k))) : InOrder st log := by
  intro k hk L hL
  rw [hL.unique (hq.link k hk)]
  exact h k hk

/-- One step keeps the queues in the order of the log. -/
theorem LogStep.inOrder {s' : Sys} {log' : List Int} {op : Op} (hi : SysInv s)
    (h : InOrder s.toState log) (hst : LogStep (s, log) op (s', log')) : InOrder s'.toState log' := by
  obtain ⟨hop, hlog⟩ := hst
  dsimp only at hop hlog
  obtain ⟨t, ht, -⟩ := hi.cur
  cases hsched : op.isSchedule with
  | false =>
    have hran := opStep_ran hi ht (hop.pend.trans hsched) hop
    have hnil : s.logged op = [] := by
      cases op with
      | schedule fresh => cases hsched
      | _ => rfl
    have hnext : s'.nnext = s.nnext := by
      funext q
      rw [State.nnext, State.nnext, hran.nodes]
    rw [hnil, List.append_nil] at hlog
    intro k hk L hL
    rw [hran.head, hnext] at hL
    unfold State.qpids
    rw [hran.nodes, hlog]
    exact h k hk L hL
  | true =>
    obtain ⟨fresh, rfl⟩ := Op.eq_schedule hsched
    obtain ⟨s₁, s₂, fresh', Q, Q₂, h₁, h₂, hq, hprep, h₃, -⟩ := opStep_parts hi hop
    have hfifo := fun k hk => hprep.fifo hk (h.queue hq k hk)
    have hjoins : s.logged (.schedule fresh) = joins s₁ s₂ := by
      unfold Sys.logged
      rw [h₁]
      dsimp only
      rw [h₂]
    rw [hjoins] at hlog
    subst hlog
    obtain ⟨-, hd⟩ | ⟨k, q, L, n, t, hk, -, hQ, hn, ht, hd, hpop⟩ := dispatch_cases hprep.queues
    · rw [hd] at h₃
      rw [← Except.ok.inj h₃]
      have hidle : QueueOk { s₂ with current := s₂.task 0 } Q₂ :=
        hprep.queues.congr rfl rfl rfl rfl
      exact inOrder_of hidle hfifo
    · rw [hd] at h₃
      rw [← Except.ok.inj h₃]
      refine inOrder_of hpop fun j hj => ?_
      rw [hprep.queues.qpids_popped hprep.tab hk hQ hn hj]
      exact (hfifo j hj).sublist List.filter_sublist

theorem logRun_fifo {p : Ptr} (hp : p ≠ 0) {ops : List Op}
    (hr : Run LogStep (Sys.boot p, []) ops (s, log)) : SysInv s ∧ InOrder s.toState log := by
  refine hr.invariant (I := fun c => SysInv c.1 ∧ InOrder c.1.toState c.2) ⟨sysInv_boot hp, ?_⟩ ?_
  · intro k hk L hL
    have hnil : L = [] := hL.unique (linked_nil.2 rfl)
    rw [hnil]
    exact .nil
  · rintro ⟨s, log⟩ op ⟨s', log'⟩ ⟨hi, h⟩ hst
    exact ⟨hst.1.inv hi, hst.inOrder hi h⟩

/-- **Strict priorities, first in first out.** In every state that a run reaches, `schedule()` returns
when `malloc` has room for its nodes. The task that it takes then has, after `alter_state` and
`set_Queue`, the least order among the ready and running tasks of slots 1 to 63, and among those of
its order it was queued first; it runs and leaves the queues, in which all others stay in order. If
there is no such task, and only then, it is task 0. -/
theorem schedule_fifo {p : Ptr} (hp : p ≠ 0) {ops : List Op}
    (hr : Run LogStep (Sys.boot p, []) ops (s, log)) :
    (∀ fresh : List Ptr, 63 ≤ fresh.length → fresh.Nodup →
      (∀ q ∈ fresh, q ≠ 0 ∧ s.nodes q = none) → ∃ s', schedule fresh s.toState = .ok s') ∧
    ∀ fresh s', schedule fresh s.toState = .ok s' → ∃ s₁ s₂ fresh',
      alterState s.toState = .ok s₁ ∧ setQueue fresh s₁ = .ok (s₂, fresh') ∧
      dispatch s₂ = .ok s' ∧ Dispatched (log ++ joins s₁ s₂) s₂ s' := by
  obtain ⟨hi, hin⟩ := logRun_fifo hp hr
  obtain ⟨Q, hq⟩ := hi.queues
  refine ⟨fun fresh => schedule_returns hi.tab.toTabOk hq hi.order, fun fresh s' hs => ?_⟩
  obtain ⟨s₁, s₂, fresh', h₁, h₂, h₃⟩ := schedule_parts hs
  obtain ⟨Q₂, hprep⟩ := prepared hi.tab.toTabOk hq hi.order h₁ h₂
  have hfifo := fun k hk => hprep.fifo hk (hin.queue hq k hk)
  exact ⟨s₁, s₂, fresh', h₁, h₂, h₃, dispatched hprep hfifo h₃⟩

end

/-- The state and the log after an operation, if there is one. -/
def logNext (c : Sys × List Int) (op : Op) : Option (Sys × List Int) :=
  (c.1.next op).map fun s' => (s', c.2 ++ c.1.logged op)

theorem logStep_of_next {c c' : Sys × List Int} {op : Op} (h : logNext c op = some c') :
    LogStep c op c' := by
  obtain ⟨s', hs', rfl⟩ := Option.map_eq_some_iff.1 h
  exact ⟨opStep_of_next hs', rfl⟩

/-- Tasks 1 and 2 were queued, 2 first, and 2 has used up its slice: it goes to the next queue, and 1
is taken. -/
theorem schedule_fifo_two : ∃ s log s' s₁ s₂, Run LogStep (Sys.boot 100, [])
      [.fork 200, .fork 300, .tick, .schedule [1, 2], .tick, .tick] (s, log) ∧ log = [2, 1] ∧
    schedule [3] s.toState = .ok s' ∧ s'.current = 200 ∧ Dispatched (log ++ joins s₁ s₂) s₂ s' := by
  have hx : ((Lib.exec logNext (Sys.boot 100, [])
      [.fork 200, .fork 300, .tick, .schedule [1, 2], .tick, .tick]).any fun c => c.2 = [2, 1] ∧
        (schedule [3] c.1.toState).toOption.any fun s' => s'.current = 200) = true := by
    decide +kernel
  obtain ⟨⟨s, log⟩, hs, hx⟩ := (Option.any_eq_true _ _).1 hx
  obtain ⟨hlog, hx⟩ := of_decide_eq_true hx
  obtain ⟨s', hs', hcur⟩ := Res.exists_ok_of_any hx
  have hr := run_of_exec (fun _ _ _ => logStep_of_next) hs
  obtain ⟨s₁, s₂, -, -, -, -, hd⟩ := (schedule_fifo (by decide) hr).2 [3] s' hs'
  exact ⟨s, log, s', s₁, s₂, hr, hlog, hs', of_decide_eq_true hcur, hd⟩

end Sched
