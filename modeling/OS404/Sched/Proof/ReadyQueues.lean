import OS404.Sched.Proof.Step

/-!
# The ready queues in every run

`ready_queues`: in every state that the system reaches, in particular just before and after each
`schedule()`, the nodes of the five queues stand for the queued tasks, one each, and the branch of
`set_Queue` that takes a task off its queue is not run.
-/

namespace Sched

open Lib

/-- Node `q` is in queue `k`. -/
def InQueue (s : State) (k : Nat) (q : Ptr) : Prop :=
  ∃ L, Linked (· = 0) s.nnext (s.head k) L ∧ q ∈ L

/-- Node `q` is in one of the five queues and refers to the task at `p`. -/
def RefersTo (s : State) (q p : Ptr) : Prop :=
  ∃ k < 5, InQueue s k q ∧ ∃ n, s.nodes q = some n ∧ n.task = p

section
variable {s : State} {Q : Nat → List Ptr}

theorem QueueOk.inQueue_iff (h : QueueOk s Q) {k : Nat} (hk : k < 5) {q : Ptr} :
    InQueue s k q ↔ q ∈ Q k :=
  ⟨fun ⟨_, hL, hq⟩ => hL.unique (h.link k hk) ▸ hq, fun hq => ⟨Q k, h.link k hk, hq⟩⟩

/-- A task is queued exactly if one node refers to it. -/
theorem QueueOk.queued_iff (h : QueueOk s Q) {p : Ptr} {t : Task} (ht : s.tasks p = some t) :
    t.inQueue = true ↔ ∃! q, RefersTo s q p := by
  constructor
  · intro hin
    obtain ⟨k, hk, q, hq, n, hn, hp⟩ := h.full p t ht hin
    refine ⟨q, ⟨k, hk, (h.inQueue_iff hk).2 hq, n, hn, hp⟩, ?_⟩
    rintro q' ⟨k', hk', hq', n', hn', hp'⟩
    exact h.uniq k' hk' k hk q' ((h.inQueue_iff hk').1 hq') q hq n' n hn' hn (hp'.trans hp.symm)
  · rintro ⟨q, ⟨k, hk, hq, n, hn, rfl⟩, -⟩
    obtain ⟨n', t', hn', ht', -, -, -, hin, -⟩ := h.node k hk q ((h.inQueue_iff hk).1 hq)
    rw [hn] at hn'
    cases hn'
    rw [ht] at ht'
    cases ht'
    exact hin

end

/-- **The ready queues are sound** in every reachable state. -/
theorem ready_queues {p : Ptr} (hp : p ≠ 0) {es : List Event} {s : Sys}
    (hr : Run SysStep (Sys.boot p) es s) :
    -- `in_Queue` says whether one node refers to a task; if not, none does
    (∀ i, 1 ≤ i → i < 64 → s.task i ≠ 0 → ∃ t, s.tasks (s.task i) = some t ∧
      (t.inQueue = true ↔ ∃! q, RefersTo s.toState q (s.task i)) ∧
      (t.inQueue = false ↔ ∀ q, ¬ RefersTo s.toState q (s.task i))) ∧
    -- the queues are lists and `tail` is the last node of each that is not empty
    (∀ k < 5, ∃ L, Linked (· = 0) s.nnext (s.head k) L ∧
      ∀ q, L.getLast? = some q → s.tail k = q) ∧
    -- every node refers to a ready task of the table that does not run
    (∀ k < 5, ∀ q, InQueue s.toState k q → ∃ n t i, s.nodes q = some n ∧
      s.tasks n.task = some t ∧ 1 ≤ i ∧ i < 64 ∧ s.task i = n.task ∧ t.pid = n.pid ∧ t.order = k ∧
      t.state = .ready ∧ n.task ≠ s.current) ∧
    -- the removing branch of `set_Queue` may be any code
    ∃ s₁, alterState s.toState = .ok s₁ ∧
      ∀ remove fresh, setQueueWith remove fresh s₁ = setQueue fresh s₁ := by
  have h : SysInv s := (sys_induction (P := fun _ _ => True) hp trivial (fun _ _ _ => trivial)
    (fun _ _ _ _ _ _ _ _ _ => trivial) hr).1
  obtain ⟨Q, hq⟩ := h.queues
  refine ⟨fun i hi hi' h0 => ?_, fun k hk => ⟨Q k, hq.link k hk, hq.last k hk⟩,
    fun k hk q hin => ?_, ?_⟩
  · obtain ⟨t, ht, -⟩ := h.tab.slot i hi' h0
    have hiff := hq.queued_iff ht
    refine ⟨t, ht, hiff, fun hf q hx => ?_, fun hno => ?_⟩
    · obtain ⟨k, hk, hqk, n, hn, hnt⟩ := hx
      obtain ⟨n', t', hn', ht', -, -, -, hin, -⟩ := hq.node k hk q ((hq.inQueue_iff hk).1 hqk)
      rw [hn] at hn'
      cases hn'
      rw [hnt, ht] at ht'
      cases ht'
      exact absurd (hf.symm.trans hin) (by decide)
    · by_contra hf
      obtain ⟨q, hx, -⟩ := hiff.1 (by simpa using hf)
      exact hno q hx
  · obtain ⟨n, t, hn, ht, h0, hpid, ho, hin', hst⟩ := hq.node k hk q ((hq.inQueue_iff hk).1 hin)
    have hpcb := h.tab.toTabOk.pcbId_zero_iff ht
    obtain ⟨-, hlt, hslot⟩ := h.tab.live _ t ht
    refine ⟨n, t, t.pcbId, hn, ht, by omega, hlt, hslot, hpid, ho, hst, fun hc => ?_⟩
    exact absurd ((h.get_cur (hc ▸ ht)).1.symm.trans hin') (by decide)
  · refine ⟨_, alterState_eq h.tab.toTabOk, fun remove fresh => ?_⟩
    exact setQueueLoop_congr (h.tab.toTabOk.map fun q t _ => (scheduled_alterMap t).toSameId)
      hq.alter h.order.alter fun i hi => mem_slotsDown.1 hi

/-- Task 1 is forked and queued, and runs. -/
theorem ready_queues_first_task : ∃ es s, Run SysStep (Sys.boot 100) es s ∧ s.current = 200 ∧
    ∀ q, ¬ RefersTo s.toState q 200 := by
  have hx : (((Sys.boot 100).exec [.fork 200, .tick, .schedule [1]]).any fun c =>
      c.2.current = 200 ∧ c.2.task 1 = 200 ∧ (c.2.tasks 200).any fun t => !t.inQueue) = true := by
    decide +kernel
  obtain ⟨⟨es, s⟩, hc, hs⟩ := (Option.any_eq_true _ _).1 hx
  have hrun := Sys.run_of_exec hc
  obtain ⟨hcur, h1, hq⟩ := by simpa using hs
  obtain ⟨t, ht, -, hno⟩ := (ready_queues (by decide) hrun).1 1 (by decide) (by decide) (by simp [h1])
  rw [h1] at ht hno
  rw [ht] at hq
  exact ⟨es, s, hrun, hcur, hno.1 (by simpa using hq)⟩

end Sched
